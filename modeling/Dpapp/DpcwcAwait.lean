import Dpapp.AwaitEle
import Dpapp.Dpaco

/-! # dpcwc_await, dpcwc_cease and the main loop (dpcwc.c)

The coroutines of one thread and the elements that they wait for. A coroutine runs until it gives the control to another
one; the main coroutine runs the main loop and the step function of the application. -/

set_option linter.unusedSectionVars false

namespace Dpapp.DpcwcAwait
open Dpapp.Machine Dpapp.Ret Dpapp.AwaitEle

structure Sys (ι κ : Type*) where
  evp : Evp ι κ
  env : Dpaco.Thenv κ Dpret

variable {ι κ : Type*} [DecidableEq ι] [DecidableEq κ]

def start (main : κ) : Sys ι κ := ⟨{},Dpaco.thinit main⟩

/-- dpaco_resume of the coroutine in `cop`. -/
def resumeCo (s : Sys ι κ) (c : κ) (k : ι) (ret : Dpret) : Sys ι κ :=
  match (s.env.co c).status with
  | .created | .suspend => ⟨s.evp.resume c k ret,Dpaco.dpacoResume s.env c ret⟩
  | .running | .dead => {s with env := Dpaco.dpacoResume s.env c ret}

/-- dpcwc_await; the main coroutine has nobody to yield to, so that its dpaco_yield returns at once. -/
def dpcwcAwait (s : Sys ι κ) (k : ι) (msg : Dpret) : Sys ι κ :=
  let c := s.env.cocurr
  let e := s.evp.ele k
  if e.doing=true ∧ e.isDetach=false then
    ⟨if (s.env.co c).link=none then
        {s.evp.setEle k {e with cop := some c, owed := false} with early := s.evp.early++[(c,k,true)]}
      else s.evp.wait c k,Dpaco.dpacoYield s.env msg⟩
  else {s with evp := {s.evp with early := s.evp.early++[(c,k,e.doing)]}}

/-- dpcwc_cease -/
def dpcwcCease (s : Sys ι κ) (k : ι) (ret : Dpret) (hit : Bool) : Sys ι κ :=
  let (r,e) := (s.evp.ele k).end ret hit
  let t : Sys ι κ := {s with evp := s.evp.ceased k e}
  match (s.evp.ele k).cop with
  | some c => if 0≤r then resumeCo t c k ret else t
  | none => t

/-- `_dpcwc_thread_main_step`, once dpevp_pop has reaped the element. A timer's function runs in a coroutine of its
own, which the main coroutine makes next. -/
def mainStep (s : Sys ι κ) (k : ι) : Sys ι κ :=
  if (s.evp.ele k).kind=.tmr ∧ (s.evp.ele k).func=true then s
  else match (s.evp.ele k).cop with
    | some c => if (s.env.co c).status=.suspend then resumeCo s c k (s.evp.ele k).ret else s
    | none => s

def pop (s : Sys ι κ) (k : ι) (queued : Bool) (ret : Dpret) : Sys ι κ :=
  let t : Sys ι κ := {s with evp := s.evp.over k queued ret}
  if (s.evp.ele k).refc≤0 ∨ (s.evp.ele k).isDetach=true then t else mainStep t k

inductive Act (ι κ : Type*)
  | ele (a : AwaitEle.Act ι)
  | env (a : Dpaco.Act κ Dpret)
  | await (k : ι) (msg : Dpret)
  | cease (k : ι) (ret : Dpret) (hit : Bool)
  | pop (k : ι) (queued : Bool) (ret : Dpret)

/-- What the current coroutine does; the main coroutine calls dpevp_pop. -/
def step (s : Sys ι κ) : Act ι κ → Option (Sys ι κ)
  | .ele a => (AwaitEle.step s.evp a).map fun evp => {s with evp := evp}
  | .env a => (Dpaco.step s.env a).map fun env => {s with env := env}
  | .await k msg => if s.evp.alive k=true then some (dpcwcAwait s k msg) else none
  | .cease k ret hit => if s.evp.alive k=true then some (dpcwcCease s k ret hit) else none
  | .pop k queued ret =>
      if s.evp.alive k=true ∧ s.env.cocurr=s.env.comain ∧
          (if queued=true then (s.evp.ele k).ready=true else (s.evp.ele k).armed=true) then
        some (pop s k queued ret)
      else none

/-! ### Sound runs -/

/-- A coroutine awaits an operation that nobody else awaits (see `fit`), and is not the main coroutine. One that awaits is
not resumed by the program itself. When an element is over or ceased that nobody awaits, the coroutine that its `cop` still
names is none that would be resumed, and has not been freed. A CTC is not ceased once it runs. -/
def orderly (s : Sys ι κ) : Act ι κ → Prop
  | .ele a => calm s.evp a
  | .env (.resume c v) => Dpaco.orderly s.env (.resume c v) ∧ s.evp.waits c=none
  | .env a => Dpaco.orderly s.env a
  | .await k _ => (s.evp.ele k).doing=true → fit s.evp k ∧ s.env.cocurr≠s.env.comain
  | .cease k ret hit => 0≤((s.evp.ele k).end ret hit).1 →
      if waitsFor s.evp k=true then (s.evp.ele k).kind=.ctc → hit=true
      else ∀ c∈ (s.evp.ele k).cop,s.env.alive c=true ∧ ((s.env.co c).status=.running ∨ (s.env.co c).status=.dead)
  | .pop k _ _ => waitsFor s.evp k=false → 0<(s.evp.ele k).refc → (s.evp.ele k).isDetach=false →
      ¬((s.evp.ele k).kind=.tmr ∧ (s.evp.ele k).func=true) →
      ∀ c∈ (s.evp.ele k).cop,s.env.alive c=true ∧ (s.env.co c).status≠.suspend

/-- The operation on the element is over, or has been ceased. -/
def ends (s : Sys ι κ) : Act ι κ → ι → Prop
  | .pop j _ _,k => j=k
  | .cease j ret hit,k => j=k ∧ 0≤((s.evp.ele j).end ret hit).1
  | .ele _,_ | .env _,_ | .await ..,_ => False

/-- Its dpaco_yield will return. -/
structure Parked (s : Dpaco.Thenv κ Dpret) (c : κ) : Prop where
  alive : s.alive c=true
  status : (s.co c).status=.suspend
  place : (s.co c).place=.yield

/-- dpcwc_await suspends the coroutine where an operation is going on, and then returns the result of the element. -/
structure Arrives (s s' : Sys ι κ) (a : Act ι κ) : Prop where
  woken : ∀ c k n,s.evp.waits c=some (k,n) → ends s a k →
    s'.env.cocurr=c ∧ s'.env.got=some ⟨c,.yield,some (s'.evp.ele k).ret⟩
  await : ∀ k msg,a=.await k msg → (s.evp.ele k).doing=true → s'.evp.waits s.env.cocurr=some (k,s.evp.next)

/-- Who waits is suspended, and the operation will end. -/
structure Sound (s : Sys ι κ) : Prop where
  evp : AwaitEle.Sound s.evp
  parked : ∀ c k n,s.evp.waits c=some (k,n) → Parked s.env c ∧ (s.evp.ele k).pending
  step : ∀ a s',orderly s a → step s a=some s' → Effect s.evp s'.evp (ends s a) ∧ Arrives s s' a

/-! ### Suspended coroutines -/

section Env
variable {s s' : Dpaco.Thenv κ Dpret} {rest free : List κ} {c k p : κ} {v : Dpret}

theorem parked_congr (hp : Parked s c) (hco : s'.co c=s.co c) (ha : s'.alive c=s.alive c) : Parked s' c :=
  ⟨ha.trans hp.alive,by rw [hco]; exact hp.status,by rw [hco]; exact hp.place⟩

theorem Parked.ne_cocurr (h : Dpaco.Shape s rest free) (hp : Parked s c) : c≠s.cocurr := by
  intro hc
  have hst := hp.status
  rw [hc,h.runs] at hst
  cases hst

/-- Whoever has resumed the current coroutine is in dpaco_resume. -/
theorem resumer (h : Dpaco.Shape s rest free) (hl : (s.co s.cocurr).link=some p) : Dpaco.waitsFor s s.cocurr p := by
  have hpath := h.chain.2
  cases rest with
  | nil =>
    rw [show s.link s.cocurr=some p from hl] at hpath
    cases hpath
  | cons q rest =>
    cases hl.symm.trans hpath.1
    exact (List.isChain_cons_cons.mp h.waits).1

theorem Parked.ne_resumer (h : Dpaco.Shape s rest free) (hl : (s.co s.cocurr).link=some p) (hp : Parked s c) : c≠p := by
  intro hc
  have hplace := hp.place
  rw [hc,(resumer h hl).2] at hplace
  cases hplace

theorem Parked.not_free (h : Dpaco.Shape s rest free) (hp : Parked s c) : c∉free := by
  intro hc
  rcases (h.spent c hc).2 with hst | hst
  · rw [hp.status] at hst
    cases hst
  · rw [hp.status] at hst
    cases hst

theorem parked_delater (hp : Parked s c) : Parked (Dpaco.dpacoDelater s k) c := by
  by_cases hck : c=k
  · subst hck
    unfold Dpaco.dpacoDelater
    rw [hp.status]
    refine ⟨hp.alive,?_,?_⟩
    · simp only [Dpaco.set_self]
      exact hp.status
    · simp only [Dpaco.set_self]
      exact hp.place
  · exact parked_congr hp (Dpaco.delater_co hck).1 (Dpaco.delater_co hck).2

theorem parked_goOn (hp : Parked s c) : Parked (Dpaco.goOn s) c := by
  unfold Dpaco.goOn
  cases (s.co s.cocurr).place with
  | enter => exact parked_congr hp rfl rfl
  | yield => exact parked_congr hp rfl rfl
  | resume j =>
    simp only
    split
    · exact parked_congr (parked_delater hp) rfl rfl
    · exact parked_congr hp rfl rfl

theorem parked_resume (h : Dpaco.Shape s rest free) (hck : c≠k) (hkc : k≠s.cocurr) (hp : Parked s c) :
    Parked (Dpaco.dpacoResume s k v) c := by
  have hgive : Parked (s.give k v) c := by
    refine parked_congr hp ?_ rfl
    rw [Dpaco.give_co hkc,if_neg (hp.ne_cocurr h),if_neg hck]
  unfold Dpaco.dpacoResume
  cases (s.co k).status with
  | created | suspend => exact parked_goOn hgive
  | running | dead => exact parked_congr hp rfl rfl

/-- The current coroutine, or what has become of it, gives the control back. -/
theorem parked_yield {d : Dpaco.Co κ Dpret} (h : Dpaco.Shape s rest free) (hd : d.link=(s.co s.cocurr).link) (hp : Parked s c) :
    Parked (Dpaco.dpacoYield (s.set s.cocurr d) v) c := by
  have hcc := hp.ne_cocurr h
  have hset : Parked (s.set s.cocurr d) c := parked_congr hp (Dpaco.set_ne s d hcc) rfl
  unfold Dpaco.dpacoYield
  rw [Dpaco.set_cocurr,Dpaco.set_self]
  cases hl : d.link with
  | none => exact parked_congr hset rfl rfl
  | some p =>
    have hl := hd.symm.trans hl
    have hpc : p≠s.cocurr := by
      intro hpc
      have hw := (resumer h hl).1
      rw [hpc,h.runs] at hw
      cases hw
    refine parked_goOn (parked_congr hset ?_ rfl)
    rw [Dpaco.back_co (show p≠(s.set s.cocurr d).cocurr from hpc),if_neg (hp.ne_resumer h hl),Dpaco.set_cocurr,if_neg hcc]

theorem parked_create {size : ℤ} {moved : Option κ} (h : Dpaco.Shape s rest free) (hfit : Dpaco.fits s k moved)
    (hp : Parked s c) : Parked (Dpaco.dpacoCreate s k size moved) c := by
  obtain ⟨hk,hmoved⟩ := hfit
  -- neither the block that is taken nor the one that realloc finds is the coroutine's
  have hfirst : c≠s.recycle.getD k := by
    intro hc
    cases hr : s.recycle with
    | some r =>
      have hpath := h.pool
      rw [hr] at hpath hc
      cases free with
      | nil => cases hpath
      | cons x free =>
        cases hpath.1
        exact hp.not_free h (hc ▸ List.mem_cons_self)
    | none =>
      have halive := hp.alive
      rw [hr] at hc
      rw [hc,Option.getD_none,hk hr] at halive
      cases halive
  have hsecond : ∀ j∈ moved,c≠j := by
    rintro j hj rfl
    rcases hmoved c hj with hm | hm
    · rw [hp.alive] at hm
      cases hm
    · apply hfirst
      cases hr : s.recycle with
      | some r =>
        rw [hr] at hm
        exact Option.some.inj hm
      | none =>
        rw [hr] at hm
        exact Option.some.inj hm
  have htaken : ∀ (t : Dpaco.Thenv κ Dpret) (d : Dpaco.Co κ Dpret),Parked t c → Parked (t.set (s.recycle.getD k) d) c :=
    fun t d ht => parked_congr ht (Dpaco.set_ne t d hfirst) rfl
  have hbase : ∀ (t : Dpaco.Thenv κ Dpret) (d : Dpaco.Co κ Dpret),Parked t c → Parked (match moved with
      | some j =>
          if d.size=size then t.set (s.recycle.getD k) d
          else {(t.set (s.recycle.getD k) d).set j {d with size := size} with
            alive := Function.update (Function.update (t.set (s.recycle.getD k) d).alive (s.recycle.getD k) false) j true}
      | none => t.set (s.recycle.getD k) d) c := by
    intro t d ht
    cases moved with
    | none => exact htaken t d ht
    | some j =>
      simp only
      split
      · exact htaken t d ht
      · refine parked_congr (htaken t d ht) (Dpaco.set_ne _ _ (hsecond j rfl)) ?_
        exact (Function.update_of_ne (hsecond j rfl) ..).trans (Function.update_of_ne hfirst ..)
  unfold Dpaco.dpacoCreate
  cases hr : s.recycle with
  | some r =>
    rw [hr] at hbase
    exact hbase _ _ (parked_congr hp rfl rfl)
  | none =>
    rw [hr] at hbase htaken hfirst
    exact hbase _ _ (parked_congr (htaken s _ hp) rfl (Function.update_of_ne hfirst ..))

theorem parked_step {a : Dpaco.Act κ Dpret} (h : Dpaco.Inv s) (hok : Dpaco.orderly s a) (ha : ∀ v,a≠.resume c v)
    (hu : Dpaco.step s a=some s') (hp : Parked s c) : Parked s' c := by
  obtain ⟨⟨rest,free,hs⟩,-⟩ := h
  cases a with
  | create k size moved =>
    simp only [Dpaco.step] at hu
    split at hu <;> cases hu
    rename_i hfit
    exact parked_create hs hfit hp
  | resume k v =>
    simp only [Dpaco.step] at hu
    split at hu <;> cases hu
    have hck : c≠k := by
      rintro rfl
      exact ha v rfl
    by_cases hkc : k=s.cocurr
    · have hno : Dpaco.dpacoResume s k v={s with got := none} := by
        unfold Dpaco.dpacoResume
        rw [hkc,hs.runs]
      rw [hno]
      exact parked_congr hp rfl rfl
    · exact parked_resume hs hck hkc hp
  | yield v =>
    cases hu
    have hy := parked_yield (v := v) (d := s.co s.cocurr) hs rfl hp
    rwa [Dpaco.set_same] at hy
  | ret v =>
    simp only [Dpaco.step] at hu
    split at hu <;> cases hu
    exact parked_yield hs rfl hp
  | delater k =>
    simp only [Dpaco.step] at hu
    split at hu <;> cases hu
    exact parked_delater hp

/-- The current coroutine is parked once it has yielded. -/
theorem yield_parked (h : Dpaco.Shape s rest free) (hl : (s.co s.cocurr).link=some p) :
    Parked (Dpaco.dpacoYield s v) s.cocurr := by
  have hw := resumer h hl
  have hpc : p≠s.cocurr := by
    intro hpc
    have hst := hw.1
    rw [hpc,h.runs] at hst
    cases hst
  have hco : (s.back p v).co s.cocurr={s.co s.cocurr with status := .suspend, place := .yield} := by
    rw [Dpaco.back_co hpc,if_neg hpc.symm,if_pos rfl,h.runs]
    rfl
  unfold Dpaco.dpacoYield
  rw [hl]
  exact parked_goOn ⟨h.alive _ List.mem_cons_self,by rw [hco],by rw [hco]⟩

end Env

/-! ### The invariant -/

structure Inv (s : Sys ι κ) : Prop where
  evp : AwaitEle.Inv s.evp
  env : Dpaco.Inv s.env
  parked : ∀ c k n,s.evp.waits c=some (k,n) → Parked s.env c

section Steps
variable {s s' : Sys ι κ} {k : ι} {c : κ} {n : ℕ} {e : Ele κ} {ret : Dpret}

theorem inv_start (main : κ) : Inv (start main : Sys ι κ) :=
  ⟨AwaitEle.inv_start,Dpaco.inv_start main,fun _ _ _ h => by cases h⟩

theorem arrives_same {a : Act ι κ} (hno : ∀ c k n,s.evp.waits c=some (k,n) → ¬ends s a k) (ha : ∀ k msg,a≠.await k msg) :
    Arrives s s' a where
  woken c k n hc he := absurd he (hno c k n hc)
  await k msg h := absurd h (ha k msg)

theorem resumeCo_parked (hp : Parked s.env c) :
    resumeCo s c k ret=⟨s.evp.resume c k ret,Dpaco.dpacoResume s.env c ret⟩ := by
  unfold resumeCo
  rw [hp.status]

/-- The coroutine that waits goes on. -/
theorem inv_resumeCo {a : Act ι κ} (h : Inv s) (hw : s.evp.waits c=some (k,n)) (he : e.ret=ret)
    (hi : AwaitEle.Inv ((s.evp.setEle k e).resume c k ret)) (hends : ends s a k) (honly : ∀ j,ends s a j → j=k)
    (ha : ∀ j msg,a≠.await j msg) : Inv (resumeCo {s with evp := s.evp.setEle k e} c k ret) ∧
      Effect s.evp (resumeCo {s with evp := s.evp.setEle k e} c k ret).evp (ends s a) ∧
      Arrives s (resumeCo {s with evp := s.evp.setEle k e} c k ret) a := by
  have hp := h.parked c k n hw
  obtain ⟨⟨rest,free,hs⟩,hh⟩ := h.env
  obtain ⟨henv,hcur,-,hgot,-⟩ := Dpaco.resume_spec (v := ret) hs hh hp.alive (.inr hp.status)
    ⟨fun _ => by rw [hp.place]; rfl,fun hc => by rw [hp.status] at hc; cases hc⟩
  rw [resumeCo_parked (s := {s with evp := s.evp.setEle k e}) hp]
  have hret : ((s.evp.setEle k e).resume c k ret).ele k=e := setEle_self
  have hothers : ∀ d,d≠c → ((s.evp.setEle k e).resume c k ret).waits d=s.evp.waits d := fun d hdc =>
    Function.update_of_ne hdc ..
  refine ⟨⟨hi,henv,fun d j m hd => ?_⟩,
    effect_woken h.evp hw (Function.update_self ..) ?_ hends honly hothers,⟨fun d j m hd hj => ?_,fun j msg he => absurd he (ha j msg)⟩⟩
  · have hdc : d≠c := by
      rintro rfl
      simp [Evp.resume] at hd
    exact parked_resume hs hdc (hp.ne_cocurr hs) (h.parked d j m ((hothers d hdc).symm.trans hd))
  · rw [hret,he]
    simp only [Evp.resume,setEle_self,he]
    rw [show (s.evp.setEle k e).waits c=some (k,n) from hw]
    rfl
  · cases honly j hj
    have hdc : d=c := Option.some.inj ((h.evp.waits d k m hd).2.1.cop.symm.trans (h.evp.waits c k n hw).2.1.cop)
    subst hdc
    simp only [hret,he]
    rw [hgot,hp.place]
    exact ⟨hcur,rfl⟩

theorem inv_ele {a : AwaitEle.Act ι} {t : Evp ι κ} (h : Inv s) (hok : calm s.evp a) (hu : AwaitEle.step s.evp a=some t) :
    Inv {s with evp := t} ∧ Effect s.evp t (ends s (.ele a)) ∧ Arrives s {s with evp := t} (.ele a) := by
  obtain ⟨hi,hstill⟩ := AwaitEle.step_inv h.evp hok hu
  refine ⟨⟨hi,h.env,fun c k n hw => h.parked c k n ?_⟩,effect_same hstill.waits hstill.resumed fun _ _ _ _ he => he,
    arrives_same (fun _ _ _ _ he => he) fun _ _ he => by cases he⟩
  rw [← hstill.waits]
  exact hw

theorem orderly_env {a : Dpaco.Act κ Dpret} (hok : orderly s (.env a)) :
    Dpaco.orderly s.env a ∧ ∀ c v,a=.resume c v → s.evp.waits c=none := by
  cases a with
  | resume c v => exact ⟨hok.1,fun _ _ he => by cases he; exact hok.2⟩
  | create k size moved => exact ⟨hok,fun _ _ he => by cases he⟩
  | yield v => exact ⟨hok,fun _ _ he => by cases he⟩
  | ret v => exact ⟨hok,fun _ _ he => by cases he⟩
  | delater k => exact ⟨hok,fun _ _ he => by cases he⟩

theorem inv_env {a : Dpaco.Act κ Dpret} {t : Dpaco.Thenv κ Dpret} (h : Inv s) (hok : orderly s (.env a))
    (hu : Dpaco.step s.env a=some t) :
    Inv {s with env := t} ∧ Effect s.evp s.evp (ends s (.env a)) ∧ Arrives s {s with env := t} (.env a) := by
  obtain ⟨hok,hfree⟩ := orderly_env hok
  refine ⟨⟨h.evp,(Dpaco.step_spec a h.env hok hu).1,fun c k n hw => ?_⟩,effect_same rfl rfl fun _ _ _ _ he => he,
    arrives_same (fun _ _ _ _ he => he) fun _ _ he => by cases he⟩
  refine parked_step h.env hok (fun v ha => ?_) hu (h.parked c k n hw)
  rw [hfree c v ha] at hw
  cases hw

/-- The current coroutine does not wait. -/
theorem Inv.current (h : Inv s) : s.evp.waits s.env.cocurr=none := by
  obtain ⟨⟨rest,free,hs⟩,-⟩ := h.env
  cases hw : s.evp.waits s.env.cocurr with
  | none => rfl
  | some w => exact absurd rfl ((h.parked _ w.1 w.2 hw).ne_cocurr hs)

theorem inv_await {msg : Dpret} (h : Inv s) (ha : s.evp.alive k=true) (hok : orderly s (.await k msg)) :
    Inv (dpcwcAwait s k msg) ∧ Effect s.evp (dpcwcAwait s k msg).evp (ends s (.await k msg)) ∧
      Arrives s (dpcwcAwait s k msg) (.await k msg) := by
  by_cases hd : (s.evp.ele k).doing=true
  · obtain ⟨hfit,hmain⟩ := hok hd
    obtain ⟨⟨rest,free,hs⟩,-⟩ := h.env
    obtain ⟨p,hl⟩ : ∃ p,(s.env.co s.env.cocurr).link=some p := by
      have hpath := hs.chain.2
      have hlast := hs.main
      cases rest with
      | nil => exact absurd (Option.some.inj hlast) hmain
      | cons p rest => exact ⟨p,hpath.1⟩
    have hrun : dpcwcAwait s k msg=⟨s.evp.wait s.env.cocurr k,Dpaco.dpacoYield s.env msg⟩ := by
      unfold dpcwcAwait
      simp only
      rw [if_pos ⟨hd,hfit.1⟩,if_neg (by rw [hl]; simp)]
    have hkeep : ∀ c j n,s.evp.waits c=some (j,n) → c≠s.env.cocurr := by
      rintro c j n hw rfl
      rw [h.current] at hw
      cases hw
    rw [hrun]
    refine ⟨⟨AwaitEle.inv_wait h.evp ha hd hfit h.current,(Dpaco.step_spec (.yield msg) h.env trivial rfl).1,
      fun c j n hw => ?_⟩,⟨fun _ _ _ _ he => absurd he id,fun c j n hw _ => ?_,fun _ => rfl⟩,
      ⟨fun _ _ _ _ he => absurd he id,fun j m he _ => ?_⟩⟩
    · by_cases hc : c=s.env.cocurr
      · subst hc
        exact yield_parked hs hl
      · have hold : s.evp.waits c=some (j,n) := by simpa [Evp.wait,hc] using hw
        have hy := parked_yield (v := msg) (d := s.env.co s.env.cocurr) hs rfl (h.parked c j n hold)
        rwa [Dpaco.set_same] at hy
    · exact (Function.update_of_ne (hkeep c j n hw) ..).trans hw
    · cases he
      exact Function.update_self ..
  · have hrun : dpcwcAwait s k msg=
        {s with evp := {s.evp with early := s.evp.early++[(s.env.cocurr,k,(s.evp.ele k).doing)]}} := by
      unfold dpcwcAwait
      simp only
      rw [if_neg fun hx => hd hx.1]
    rw [hrun]
    refine ⟨⟨AwaitEle.inv_early h.evp (Bool.eq_false_iff.mpr hd),h.env,h.parked⟩,effect_same rfl rfl fun _ _ _ _ he => he,
      ⟨fun _ _ _ _ he => absurd he id,fun j m he hj => ?_⟩⟩
    cases he
    exact absurd hj hd

/-- Nobody waits for the element that is over, or ceased. -/
theorem inv_unawaited {a : Act ι κ} {t : Evp ι κ} (h : Inv s) (hn : waitsFor s.evp k=false) (hi : AwaitEle.Inv t)
    (hstill : Still s.evp t) (g : Option (Dpaco.Got κ Dpret)) (ha : ∀ j,ends s a j → j=k) (hw : ∀ j msg,a≠.await j msg) :
    Inv ⟨t,{s.env with got := g}⟩ ∧ Effect s.evp t (ends s a) ∧ Arrives s ⟨t,{s.env with got := g}⟩ a := by
  obtain ⟨⟨rest,free,hs⟩,hh⟩ := h.env
  have hno : ∀ c j n,s.evp.waits c=some (j,n) → ¬ends s a j := by
    intro c j n hc he
    cases ha j he
    rw [h.evp.waited hc] at hn
    cases hn
  refine ⟨⟨hi,⟨⟨rest,free,Dpaco.shape_got hs g⟩,hh⟩,fun c j n hc => parked_congr (h.parked c j n ?_) rfl rfl⟩,
    effect_same hstill.waits hstill.resumed hno,arrives_same hno hw⟩
  rw [← hstill.waits]
  exact hc

theorem inv_cease {hit : Bool} (h : Inv s) (ha : s.evp.alive k=true) (hok : orderly s (.cease k ret hit)) :
    Inv (dpcwcCease s k ret hit) ∧ Effect s.evp (dpcwcCease s k ret hit).evp (ends s (.cease k ret hit)) ∧
      Arrives s (dpcwcCease s k ret hit) (.cease k ret hit) := by
  cases hwait : waitsFor s.evp k with
  | true =>
    obtain ⟨c,n,hcop,hw⟩ := waitsFor_iff.mp hwait
    have hr : ((s.evp.ele k).end ret hit).1=dpeOk := end_ok (h.evp.waits c k n hw).2.1
    have hpos : 0≤((s.evp.ele k).end ret hit).1 := by
      rw [hr]
      exact Int.le_refl 0
    have hctc := hok hpos
    rw [if_pos hwait] at hctc
    obtain ⟨hret,hi⟩ := inv_ceased_wake h.evp hw hctc
    have hrun : dpcwcCease s k ret hit=resumeCo {s with evp := s.evp.ceased k ((s.evp.ele k).end ret hit).2} c k ret := by
      unfold dpcwcCease
      simp only [hcop]
      rw [if_pos hpos]
    rw [hrun]
    exact inv_resumeCo h hw (e := {((s.evp.ele k).end ret hit).2 with
      owed := ((s.evp.ele k).end ret hit).2.owed || ((s.evp.ele k).end ret hit).2.cop.isSome}) hret hi ⟨rfl,hpos⟩
      (fun j hj => hj.1.symm) fun _ _ he => by cases he
  | false =>
    have hi : AwaitEle.Inv (s.evp.ceased k ((s.evp.ele k).end ret hit).2) := inv_ceased h.evp ha hwait
    have hsame := fun g => inv_unawaited (a := .cease k ret hit) h hwait hi still_ceased g (fun j hj => hj.1.symm)
      fun _ _ he => by cases he
    unfold dpcwcCease
    simp only
    cases hcop : (s.evp.ele k).cop with
    | none => exact hsame s.env.got
    | some c =>
      simp only
      split
      · rename_i hpos
        have hspent := hok hpos
        rw [if_neg (by rw [hwait]; simp)] at hspent
        obtain ⟨-,hst⟩ := hspent c hcop
        unfold resumeCo Dpaco.dpacoResume
        rcases hst with hst | hst
        · simp only [hst]
          exact hsame none
        · simp only [hst]
          exact hsame none
      · exact hsame s.env.got

theorem inv_pop {queued : Bool} (h : Inv s) (ha : s.evp.alive k=true)
    (hq : if queued=true then (s.evp.ele k).ready=true else (s.evp.ele k).armed=true) (hok : orderly s (.pop k queued ret)) :
    Inv (pop s k queued ret) ∧ Effect s.evp (pop s k queued ret).evp (ends s (.pop k queued ret)) ∧
      Arrives s (pop s k queued ret) (.pop k queued ret) := by
  obtain ⟨hcop,hkind,hfunc,-⟩ := @pop_fields _ _ (s.evp.ele k) queued ret
  cases hwait : waitsFor s.evp k with
  | true =>
    obtain ⟨c,n,hc,hw⟩ := waitsFor_iff.mp hwait
    obtain ⟨-,haw,-⟩ := h.evp.waits c k n hw
    have hp := h.parked c k n hw
    obtain ⟨hover,hi⟩ := @inv_over_wake _ _ _ _ _ _ _ _ queued ret h.evp hw hq
    have hrefc := haw.refc
    have hrun : pop s k queued ret=resumeCo {s with evp := s.evp.setEle k ((s.evp.ele k).pop queued ret)} c k
        ((s.evp.ele k).pop queued ret).ret := by
      unfold pop mainStep
      simp only
      rw [if_neg (fun hx => hx.elim (fun hx => by omega) fun hx => by rw [haw.attached] at hx; cases hx),over_ele,hkind,
        hfunc,if_neg (fun hx => by rw [haw.func hx.1] at hx; cases hx.2),hcop,hc]
      simp only
      rw [if_pos hp.status,hover]
    rw [hrun]
    exact inv_resumeCo h hw rfl hi rfl (fun j hj => hj.symm) fun _ _ he => by cases he
  | false =>
    have hi : AwaitEle.Inv (s.evp.over k queued ret) := inv_over h.evp ha hwait
    have hsame := inv_unawaited (a := .pop k queued ret) h hwait hi still_over s.env.got (fun j hj => hj.symm)
      fun _ _ he => by cases he
    have hrun : pop s k queued ret={s with evp := s.evp.over k queued ret} := by
      unfold pop mainStep
      simp only
      split
      · rfl
      · rename_i hgo
        split
        · rfl
        · rename_i hbare
          rw [over_ele,hkind,hfunc] at hbare
          rw [over_ele,hcop]
          cases hc : (s.evp.ele k).cop with
          | none => rfl
          | some c =>
            obtain ⟨-,hst⟩ := hok hwait (by omega) (Bool.eq_false_iff.mpr fun hx => hgo (.inr hx)) hbare c hc
            exact if_neg hst
    rw [hrun]
    exact hsame

theorem step_inv (a : Act ι κ) (h : Inv s) (hok : orderly s a) (hu : step s a=some s') :
    Inv s' ∧ Effect s.evp s'.evp (ends s a) ∧ Arrives s s' a := by
  cases a with
  | ele a =>
    obtain ⟨t,ht,rfl⟩ := Option.map_eq_some_iff.mp hu
    exact inv_ele h hok ht
  | env a =>
    obtain ⟨t,ht,rfl⟩ := Option.map_eq_some_iff.mp hu
    exact inv_env h hok ht
  | await k msg =>
    simp only [step] at hu
    split at hu <;> cases hu
    rename_i ha
    exact inv_await h ha hok
  | cease k ret hit =>
    simp only [step] at hu
    split at hu <;> cases hu
    rename_i ha
    exact inv_cease h ha hok
  | pop k queued ret =>
    obtain ⟨⟨ha,-,hq⟩,hu⟩ := Option.ite_none_right_eq_some.mp hu
    cases hu
    exact inv_pop h ha hq hok

end Steps

instance (s : Sys ι κ) : (a : Act ι κ) → Decidable (orderly s a)
  | .ele a => inferInstanceAs (Decidable (calm s.evp a))
  | .env (.resume _ _) => inferInstanceAs (Decidable (_ ∧ _))
  | .env (.create ..) => .isTrue trivial
  | .env (.yield _) => .isTrue trivial
  | .env (.ret _) => .isTrue trivial
  | .env (.delater _) => inferInstanceAs (Decidable (_∉_))
  | .await _ _ => inferInstanceAs (Decidable (_ → _ ∧ _))
  | .cease k ret hit => inferInstanceAs (Decidable (0≤((s.evp.ele k).end ret hit).1 →
      if waitsFor s.evp k=true then (s.evp.ele k).kind=.ctc → hit=true
      else ∀ c∈ (s.evp.ele k).cop,s.env.alive c=true ∧ ((s.env.co c).status=.running ∨ (s.env.co c).status=.dead)))
  | .pop _ _ _ => inferInstanceAs (Decidable (_ → _ → _ → _ → _))

/-- A coroutine waits for an operation that is over, and then for one that another coroutine ceases; it returns before the
loop has reaped that. -/
def ceasing : List (Act (Fin 1) (Fin 3)) :=
  [.env (.create 1 8192 none),.env (.resume 1 0),.ele (.new 0 .usd),.ele (.add 0 false false dpeWait),.await 0 0,
    .pop 0 false 5,.ele (.add 0 false false dpeWait),.await 0 0,.env (.create 2 8192 none),.env (.resume 2 0),.cease 0 (-4) false,
    .env (.ret 0),.env (.ret 0),.pop 0 true (-4)]

/-- A coroutine whose wait has been ceased waits for another element when the loop reaps the first one. -/
def reaping : List (Act (Fin 2) (Fin 3)) :=
  [.env (.create 1 8192 none),.env (.resume 1 0),.ele (.new 0 .usd),.ele (.new 1 .usd),.ele (.add 0 false false dpeWait),
    .await 0 0,.env (.create 2 8192 none),.env (.resume 2 0),.cease 0 (-4) false,.ele (.add 1 false false dpeWait),.await 1 0,
    .env (.ret 0),.pop 0 true (-4)]

end Dpapp.DpcwcAwait
