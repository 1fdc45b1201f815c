import Dpapp.Machine
import Dpapp.Ret
import Mathlib.Data.List.Nodup

/-! # Elements that coroutines wait for (os/linux/dpevp_epoll.c)

The elements of one thread as a coroutine layer uses them: dpevp_addv, dpevp_end, dpele_wait, and what dpevp_pop reaps.
When an event comes, and what a prep function returns, is left open. -/

set_option linter.unusedSectionVars false

namespace Dpapp.AwaitEle
open Dpapp.Ret

inductive Kind | efd | usd | ctc | tmr
  deriving DecidableEq

/- `own` tells whether the `fromid` of a CTC is this thread, `func` whether data[0] of a timer's scratch data is set,
`ready` whether the element is in the ready queue, and `armed` whether an event, the timer or another thread can complete
it. History: `owed` tells whether an operation has been added, or ceased, since dpele_wait has set `cop`. -/
structure Ele (κ : Type*) where
  kind : Kind := .usd
  own : Bool := true
  doing : Bool := false
  isDetach : Bool := false
  refc : ℤ := 0
  cop : Option κ := none
  ret : Dpret := dpeOk
  func : Bool := false
  ready : Bool := false
  armed : Bool := false
  owed : Bool := false

variable {ι κ : Type*} [DecidableEq ι] [DecidableEq κ]

def Ele.pending (e : Ele κ) : Prop := e.ready=true ∨ e.armed=true

instance (e : Ele κ) : Decidable e.pending := inferInstanceAs (Decidable (_ ∨ _))

/-- dpevp_addv, where `ret` is what it has when it comes to FINISH, and `allow` is DPASC_FLAG_ALLOW_DOING. -/
def Ele.add (e : Ele κ) (allow func : Bool) (ret : Dpret) : Ele κ :=
  if e.doing=true ∧ ¬(allow=true ∧ e.kind=.tmr) then e
  else
    let e : Ele κ := {e with doing := true, func := if e.kind=.tmr then func else e.func}
    if 0≤ret then {e with ret := ret, ready := true}
    else if ret=dpeWait then
      {e with ret := dpeInprogress, armed := true, own := true, cop := if e.kind=.ctc then none else e.cop}
    else {e with doing := false, ret := ret}

/-- dpevp_end; `hit` tells whether a CTC is still in DPCTC_COMMIT. -/
def Ele.end (e : Ele κ) (ret : Dpret) (hit : Bool) : Dpret × Ele κ :=
  if e.doing=false then (dpeOk,e)
  else if e.kind=.ctc then
    if e.own=false then (dpePerm,e) else (dpeOk,if hit=true then {e with ret := ret} else e)
  else (dpeOk,{e with ret := ret, armed := false, ready := true})

/-- `_dpele_asc_over` of what was in the ready queue, or was completed: `ret` is the result, which is the one that the
element has unless post is run. -/
def Ele.pop (e : Ele κ) (queued : Bool) (ret : Dpret) : Ele κ :=
  if queued=true then {e with ready := false, doing := false, ret := if e.kind=.efd then e.ret else ret}
  else {e with armed := false, doing := false, ret := ret}

/-- A coroutine has been resumed with `val` because of `ele`, whose result was `result`; `awaited` is the element that it
was waiting for, and the number of that wait. -/
structure Resume (ι κ : Type*) where
  co : κ
  ele : ι
  val : Dpret
  result : Dpret
  awaited : Option (ι × ℕ)
  deriving DecidableEq

/- History: `waits` are the coroutines that are suspended, with the element and the number of the wait, `resumed` those
that have been resumed, and `early` the waits that have returned at once, with whether an operation was going on. -/
structure Evp (ι κ : Type*) where
  ele : ι → Ele κ := fun _ => {}
  alive : ι → Bool := fun _ => false
  waits : κ → Option (ι × ℕ) := fun _ => none
  next : ℕ := 0
  resumed : List (Resume ι κ) := []
  early : List (κ × ι × Bool) := []

def Evp.setEle (s : Evp ι κ) (k : ι) (e : Ele κ) : Evp ι κ := {s with ele := Function.update s.ele k e}

/-- The coroutine in `cop` waits for the element. -/
def waitsFor (s : Evp ι κ) (k : ι) : Bool := (s.ele k).cop.any fun c => (s.waits c).any fun w => decide (w.1=k)

/-- dpele_wait has registered the coroutine, which is suspended then. -/
def Evp.wait (s : Evp ι κ) (c : κ) (k : ι) : Evp ι κ :=
  {s.setEle k {s.ele k with cop := some c, owed := false} with
    waits := Function.update s.waits c (some (k,s.next)), next := s.next+1}

/-- The coroutine goes on with `val`. -/
def Evp.resume (s : Evp ι κ) (c : κ) (k : ι) (val : Dpret) : Evp ι κ :=
  {s with waits := Function.update s.waits c none, resumed := s.resumed++[⟨c,k,val,(s.ele k).ret,s.waits c⟩]}

/-- dpevp_pop reaps an element, and deletes it if it has no reference. -/
def Evp.over (s : Evp ι κ) (k : ι) (queued : Bool) (ret : Dpret) : Evp ι κ :=
  let s := s.setEle k ((s.ele k).pop queued ret)
  if (s.ele k).refc≤0 then {s with alive := Function.update s.alive k false} else s

/-- dpevp_end by a cease, which resumes the coroutine itself. -/
def Evp.ceased (s : Evp ι κ) (k : ι) (e : Ele κ) : Evp ι κ := s.setEle k {e with owed := e.owed || e.cop.isSome}

inductive Act (ι : Type*)
  | new (k : ι) (kind : Kind)
  | ref (k : ι)
  | del (k : ι)
  | setDetach (k : ι) (b : Bool)
  | setRet (k : ι) (ret : Dpret)
  | add (k : ι) (allow func : Bool) (ret : Dpret)
  | dpevpEnd (k : ι) (ret : Dpret) (hit : Bool)

def step (s : Evp ι κ) : Act ι → Option (Evp ι κ)
  | .new k kind =>
      if s.alive k=false then
        some {s.setEle k {kind := kind, own := decide (kind≠.ctc), refc := 1} with alive := Function.update s.alive k true}
      else none
  | .ref k =>
      if s.alive k=true ∧ 0<(s.ele k).refc then some (s.setEle k {s.ele k with refc := (s.ele k).refc+1}) else none
  -- an element that is doing is deleted by the loop
  | .del k =>
      if s.alive k=true ∧ 0<(s.ele k).refc then
        let e := s.ele k
        let s := s.setEle k {e with refc := e.refc-1}
        if e.refc=1 ∧ e.doing=false then some {s with alive := Function.update s.alive k false} else some s
      else none
  | .setDetach k b =>
      if s.alive k=true then
        if (s.ele k).doing=true then some s else some (s.setEle k {s.ele k with isDetach := b})
      else none
  | .setRet k ret => if s.alive k=true then some (s.setEle k {s.ele k with ret := ret}) else none
  | .add k allow func ret =>
      if s.alive k=true then
        let e := (s.ele k).add allow func ret
        some (s.setEle k {e with owed := if waitsFor s k=true then e.owed else e.cop.isSome})
      else none
  | .dpevpEnd k ret hit => if s.alive k=true then some (s.setEle k ((s.ele k).end ret hit).2) else none

/-- A timer that a coroutine waits for is not added anew unless it has not expired or been ceased, goes on waiting and has
no function; and the last reference to what one waits for is kept. -/
def calm (s : Evp ι κ) : Act ι → Prop
  | .add k allow func ret => waitsFor s k=true → allow=true → (s.ele k).kind=.tmr →
      (s.ele k).ready=false ∧ ret=dpeWait ∧ func=false
  | .del k => (s.ele k).refc=1 → waitsFor s k=false
  | .new .. | .ref _ | .setDetach .. | .setRet .. | .dpevpEnd .. => True

instance (s : Evp ι κ) : (a : Act ι) → Decidable (calm s a)
  | .add .. => inferInstanceAs (Decidable (_ → _ → _ → _ ∧ _ ∧ _))
  | .del _ => inferInstanceAs (Decidable (_ → _))
  | .new .. | .ref _ | .setDetach .. | .setRet .. | .dpevpEnd .. => .isTrue trivial

/-- What a coroutine may wait for: its own thread's operation, to which it has a reference, that nobody else waits for,
that is not detached, has no function and is not in the ready queue for another operation. -/
def fit (s : Evp ι κ) (k : ι) : Prop :=
  (s.ele k).isDetach=false ∧ (s.ele k).own=true ∧ 0<(s.ele k).refc ∧ waitsFor s k=false ∧
    ((s.ele k).kind=.tmr → (s.ele k).func=false) ∧ ¬((s.ele k).ready=true ∧ (s.ele k).armed=true)

instance (s : Evp ι κ) (k : ι) : Decidable (fit s k) := inferInstanceAs (Decidable (_ ∧ _))

/-! ### The invariant -/

structure Awaited (e : Ele κ) (c : κ) : Prop where
  cop : e.cop=some c
  doing : e.doing=true
  attached : e.isDetach=false
  own : e.own=true
  refc : 0<e.refc
  func : e.kind=.tmr → e.func=false
  owed : e.owed=false
  single : ¬(e.ready=true ∧ e.armed=true)

structure Inv (s : Evp ι κ) : Prop where
  waits : ∀ c k n,s.waits c=some (k,n) → s.alive k=true ∧ Awaited (s.ele k) c ∧ n<s.next
  uniq : ∀ c c' k k' n,s.waits c=some (k,n) → s.waits c'=some (k',n) → c=c'
  linked : ∀ k c,s.alive k=true → (s.ele k).pending → (s.ele k).owed=false → (s.ele k).cop=some c →
    ∃ n,s.waits c=some (k,n)
  live : ∀ k,s.alive k=true → (s.ele k).doing=true → (s.ele k).pending
  exact : ∀ r∈s.resumed,∃ n,r.awaited=some (r.ele,n) ∧ n<s.next ∧ ∀ c k,s.waits c≠some (k,n)
  value : ∀ r∈s.resumed,r.val=r.result
  once : (s.resumed.map fun r => r.awaited.map Prod.snd).Nodup
  early : ∀ x∈s.early,x.2.2=false

/-! ### What is promised -/

/-- Who has been resumed for an element has been waiting for it, once for each wait, and has got its result; and no wait
has returned at once while an operation was going on. -/
structure Sound (s : Evp ι κ) : Prop where
  exact : ∀ r∈s.resumed,∃ n,r.awaited=some (r.ele,n)
  once : (s.resumed.map fun r => r.awaited.map Prod.snd).Nodup
  value : ∀ r∈s.resumed,r.val=r.result
  early : ∀ x∈s.early,x.2.2=false

/-- A coroutine waits until the operation on its element ends, and nobody else is resumed. -/
structure Effect (s s' : Evp ι κ) (ends : ι → Prop) : Prop where
  woken : ∀ c k n,s.waits c=some (k,n) → ends k →
    s'.waits c=none ∧ s'.resumed=s.resumed++[⟨c,k,(s'.ele k).ret,(s'.ele k).ret,some (k,n)⟩]
  waits : ∀ c k n,s.waits c=some (k,n) → ¬ends k → s'.waits c=some (k,n)
  resumed : (∀ c k n,s.waits c=some (k,n) → ¬ends k) → s'.resumed=s.resumed

section Steps
variable {s s' : Evp ι κ} {k : ι} {c : κ} {n : ℕ} {e : Ele κ} {ends : ι → Prop}

theorem Inv.sound (h : Inv s) : Sound s where
  exact r hr := by
    obtain ⟨n,hn,-⟩ := h.exact r hr
    exact ⟨n,hn⟩
  once := h.once
  value := h.value
  early := h.early

/-- A step that ends nothing, or nothing that is awaited. -/
theorem effect_same (hw : s'.waits=s.waits) (hr : s'.resumed=s.resumed) (hno : ∀ c k n,s.waits c=some (k,n) → ¬ends k) :
    Effect s s' ends where
  woken c k n hc he := absurd he (hno c k n hc)
  waits c k n hc _ := by rw [hw]; exact hc
  resumed _ := hr

theorem effect_woken (h : Inv s) (hw : s.waits c=some (k,n)) (hwoken : s'.waits c=none)
    (hr : s'.resumed=s.resumed++[⟨c,k,(s'.ele k).ret,(s'.ele k).ret,some (k,n)⟩]) (he : ends k) (honly : ∀ j,ends j → j=k)
    (hsame : ∀ d,d≠c → s'.waits d=s.waits d) : Effect s s' ends where
  woken d j m hd hj := by
    cases honly j hj
    have hdc : d=c := Option.some.inj ((h.waits d k m hd).2.1.cop.symm.trans (h.waits c k n hw).2.1.cop)
    subst hdc
    cases hw.symm.trans hd
    exact ⟨hwoken,hr⟩
  waits d j m hd hj := by
    have hdc : d≠c := by
      rintro rfl
      cases hw.symm.trans hd
      exact hj he
    rw [hsame d hdc]
    exact hd
  resumed hno := absurd he (hno c k n hw)

theorem inv_start : Inv ({} : Evp ι κ) where
  waits _ _ _ h := by cases h
  uniq _ _ _ _ _ h := by cases h
  linked _ _ h := by cases h
  live _ h := by cases h
  exact _ h := by cases h
  value _ h := by cases h
  once := List.nodup_nil
  early _ h := by cases h

@[simp] theorem setEle_self : (s.setEle k e).ele k=e := Function.update_self ..

theorem setEle_ne {j : ι} (h : j≠k) : (s.setEle k e).ele j=s.ele j := Function.update_of_ne h ..

theorem waitsFor_eq (hw : s.waits c=some (k,n)) (hc : (s.ele k).cop=some c) : waitsFor s k=true := by
  simp [waitsFor,hc,hw]

theorem waitsFor_iff : waitsFor s k=true ↔ ∃ c n,(s.ele k).cop=some c ∧ s.waits c=some (k,n) := by
  constructor
  · intro h
    obtain ⟨c,hc,hw⟩ := (Option.any_eq_true _ _).mp h
    obtain ⟨⟨j,n⟩,hw,hj⟩ := (Option.any_eq_true _ _).mp hw
    have hj : j=k := of_decide_eq_true hj
    exact ⟨c,n,hc,by rw [hw,hj]⟩
  · rintro ⟨c,n,hc,hw⟩
    exact waitsFor_eq hw hc

theorem Inv.waited (h : Inv s) (hw : s.waits c=some (k,n)) : waitsFor s k=true := waitsFor_eq hw (h.waits c k n hw).2.1.cop

/-- An element is changed, but not for the coroutine that waits for it. -/
theorem inv_setEle (h : Inv s) (hw : ∀ c n,s.waits c=some (k,n) → Awaited e c)
    (hl : e.pending → e.owed=false → ∀ c,e.cop=some c → ∃ n,s.waits c=some (k,n)) (hlive : e.doing=true → e.pending) :
    Inv (s.setEle k e) where
  waits c j n hj := by
    obtain ⟨ha,hold,hn⟩ := h.waits c j n hj
    refine ⟨ha,?_,hn⟩
    by_cases hjk : j=k
    · subst hjk
      rw [setEle_self]
      exact hw c n hj
    · rwa [setEle_ne hjk]
  uniq := h.uniq
  linked j c ha hp ho hc := by
    by_cases hjk : j=k
    · subst hjk
      rw [setEle_self] at hp ho hc
      exact hl hp ho c hc
    · rw [setEle_ne hjk] at hp ho hc
      exact h.linked j c ha hp ho hc
  live j ha hd := by
    by_cases hjk : j=k
    · subst hjk
      rw [setEle_self] at hd ⊢
      exact hlive hd
    · rw [setEle_ne hjk] at hd ⊢
      exact h.live j ha hd
  exact := h.exact
  value := h.value
  once := h.once
  early := h.early

theorem inv_kill (h : Inv s) (hk : waitsFor s k=false) : Inv {s with alive := Function.update s.alive k false} where
  waits c j n hj := by
    obtain ⟨ha,hold⟩ := h.waits c j n hj
    have hjk : j≠k := by
      rintro rfl
      rw [h.waited hj] at hk
      cases hk
    exact ⟨(Function.update_of_ne hjk ..).trans ha,hold⟩
  uniq := h.uniq
  linked j c ha := by
    have hjk : j≠k := by
      rintro rfl
      simp at ha
    exact h.linked j c ((Function.update_of_ne hjk ..).symm.trans ha)
  live j ha := by
    have hjk : j≠k := by
      rintro rfl
      simp at ha
    exact h.live j ((Function.update_of_ne hjk ..).symm.trans ha)
  exact := h.exact
  value := h.value
  once := h.once
  early := h.early

/-- A coroutine that has been running waits. -/
theorem inv_wait (h : Inv s) (ha : s.alive k=true) (hd : (s.ele k).doing=true) (hfit : fit s k) (hc : s.waits c=none) :
    Inv (s.wait c k) := by
  obtain ⟨hatt,hown,href,hfree,hfunc,hsingle⟩ := hfit
  have hother : ∀ d j n,(s.wait c k).waits d=some (j,n) → d=c ∧ j=k ∧ n=s.next ∨ d≠c ∧ s.waits d=some (j,n) := by
    intro d j n hw
    by_cases hdc : d=c
    · subst hdc
      simp only [Evp.wait,Function.update_self,Option.some.injEq,Prod.mk.injEq] at hw
      exact .inl ⟨rfl,hw.1.symm,hw.2.symm⟩
    · simp only [Evp.wait,Function.update_of_ne hdc] at hw
      exact .inr ⟨hdc,hw⟩
  have hself : (s.wait c k).ele k={s.ele k with cop := some c, owed := false} := setEle_self
  have hsame : ∀ j,j≠k → (s.wait c k).ele j=s.ele j := fun j hj => setEle_ne hj
  refine ⟨fun d j n hw => ?_,fun d d' j j' n hw hw' => ?_,fun j d hja hp ho hcop => ?_,fun j hja hjd => ?_,fun r hr => ?_,
    h.value,h.once,h.early⟩
  · rcases hother d j n hw with ⟨rfl,rfl,rfl⟩ | ⟨hdc,hold⟩
    · rw [hself]
      exact ⟨ha,⟨rfl,hd,hatt,hown,href,hfunc,rfl,hsingle⟩,Nat.lt_succ_self _⟩
    · have hjk : j≠k := by
        rintro rfl
        rw [h.waited hold] at hfree
        cases hfree
      obtain ⟨hja,hold,hn⟩ := h.waits d j n hold
      rw [hsame j hjk]
      exact ⟨hja,hold,Nat.lt_succ_of_lt hn⟩
  · rcases hother d j n hw with ⟨rfl,-,rfl⟩ | ⟨-,hw⟩
    · rcases hother d' j' _ hw' with ⟨rfl,-⟩ | ⟨-,hw'⟩
      · rfl
      · exact absurd (h.waits d' j' _ hw').2.2 (Nat.lt_irrefl _)
    · rcases hother d' j' n hw' with ⟨-,-,rfl⟩ | ⟨-,hw'⟩
      · exact absurd (h.waits d j _ hw).2.2 (Nat.lt_irrefl _)
      · exact h.uniq d d' j j' n hw hw'
  · by_cases hjk : j=k
    · subst hjk
      rw [hself] at hcop
      cases hcop
      exact ⟨s.next,Function.update_self ..⟩
    · rw [hsame j hjk] at hp ho hcop
      obtain ⟨n,hw⟩ := h.linked j d hja hp ho hcop
      have hdc : d≠c := by
        rintro rfl
        rw [hc] at hw
        cases hw
      exact ⟨n,(Function.update_of_ne hdc ..).trans hw⟩
  · by_cases hjk : j=k
    · subst hjk
      rw [hself]
      exact h.live j ha hd
    · rw [hsame j hjk] at hjd ⊢
      exact h.live j hja hjd
  · obtain ⟨n,hr',hn,hnone⟩ := h.exact r hr
    refine ⟨n,hr',Nat.lt_succ_of_lt hn,fun d j hw => ?_⟩
    rcases hother d j n hw with ⟨-,-,rfl⟩ | ⟨-,hw⟩
    · exact absurd hn (Nat.lt_irrefl _)
    · exact hnone d j hw

/-- The coroutine that waits for an element goes on with its result. -/
theorem inv_wake (h : Inv s) (hw : s.waits c=some (k,n)) (hp : e.pending → e.owed=true) (hlive : e.doing=true → e.pending) :
    Inv ((s.setEle k e).resume c k e.ret) := by
  obtain ⟨ha,haw,hn⟩ := h.waits c k n hw
  have hother : ∀ d j m,((s.setEle k e).resume c k e.ret).waits d=some (j,m) → d≠c ∧ j≠k ∧ s.waits d=some (j,m) := by
    intro d j m hd
    have hdc : d≠c := by
      rintro rfl
      simp [Evp.resume] at hd
    have hold : s.waits d=some (j,m) := by simpa [Evp.resume,Evp.setEle,hdc] using hd
    refine ⟨hdc,?_,hold⟩
    rintro rfl
    exact hdc (Option.some.inj ((h.waits d j m hold).2.1.cop.symm.trans haw.cop))
  have hself : ((s.setEle k e).resume c k e.ret).ele k=e := setEle_self
  have hsame : ∀ j,j≠k → ((s.setEle k e).resume c k e.ret).ele j=s.ele j := fun j hj => setEle_ne hj
  refine ⟨fun d j m hd => ?_,fun d d' j j' m hd hd' => ?_,fun j d hja hjp ho hcop => ?_,fun j hja hjd => ?_,fun r hr => ?_,
    fun r hr => ?_,?_,h.early⟩
  · obtain ⟨-,hjk,hd⟩ := hother d j m hd
    rw [hsame j hjk]
    exact h.waits d j m hd
  · exact h.uniq d d' j j' m (hother d j m hd).2.2 (hother d' j' m hd').2.2
  · by_cases hjk : j=k
    · subst hjk
      rw [hself] at hjp ho
      rw [hp hjp] at ho
      cases ho
    · rw [hsame j hjk] at hjp ho hcop
      obtain ⟨m,hm⟩ := h.linked j d hja hjp ho hcop
      have hdc : d≠c := by
        rintro rfl
        rw [hw] at hm
        cases hm
        exact hjk rfl
      exact ⟨m,(Function.update_of_ne hdc ..).trans hm⟩
  · by_cases hjk : j=k
    · subst hjk
      rw [hself] at hjd ⊢
      exact hlive hjd
    · rw [hsame j hjk] at hjd ⊢
      exact h.live j hja hjd
  · rcases List.mem_append.mp hr with hr | hr
    · obtain ⟨m,hm,hlt,hnone⟩ := h.exact r hr
      exact ⟨m,hm,hlt,fun d j hd => hnone d j (hother d j m hd).2.2⟩
    · rcases List.mem_singleton.mp hr with rfl
      refine ⟨n,hw,hn,fun d j hd => ?_⟩
      obtain ⟨hdc,-,hd⟩ := hother d j n hd
      exact hdc (h.uniq d c j k n hd hw)
  · rcases List.mem_append.mp hr with hr | hr
    · exact h.value r hr
    · rcases List.mem_singleton.mp hr with rfl
      exact (congrArg Ele.ret (setEle_self (s := s) (k := k) (e := e))).symm
  · simp only [Evp.resume,List.map_append,List.map_cons,List.map_nil]
    refine List.nodup_append.mpr ⟨h.once,List.nodup_singleton _,fun x hx y hy heq => ?_⟩
    obtain ⟨r,hr,rfl⟩ := List.mem_map.mp hx
    obtain ⟨m,hm,-,hnone⟩ := h.exact r hr
    rw [List.mem_singleton.mp hy,hm,show (s.setEle k e).waits c=some (k,n) from hw] at heq
    cases heq
    exact hnone c k hw

/-- A wait returns at once, where no operation is going on. -/
theorem inv_early {d : Bool} (h : Inv s) (hd : d=false) : Inv {s with early := s.early++[(c,k,d)]} where
  waits := h.waits
  uniq := h.uniq
  linked := h.linked
  live := h.live
  exact := h.exact
  value := h.value
  once := h.once
  early x hx := by
    rcases List.mem_append.mp hx with hx | hx
    · exact h.early x hx
    · cases List.mem_singleton.mp hx
      exact hd

/-! ### Operations on elements -/

/-- Some element has the coroutine in its `cop`. -/
def named (s : Evp ι κ) (c : κ) : Prop := ∃ k,s.alive k=true ∧ (s.ele k).cop=some c

/-- Nothing but elements has changed, and no coroutine is named that was not. -/
structure Still (s s' : Evp ι κ) : Prop where
  waits : s'.waits=s.waits
  resumed : s'.resumed=s.resumed
  early : s'.early=s.early
  named : ∀ c,named s' c → named s c

theorem named_setEle (hc : e.cop=(s.ele k).cop ∨ e.cop=none) (h : named (s.setEle k e) c) : named s c := by
  obtain ⟨j,hj,hcop⟩ := h
  refine ⟨j,hj,?_⟩
  by_cases hjk : j=k
  · subst hjk
    rw [setEle_self] at hcop
    rcases hc with hc | hc
    · rw [← hc]
      exact hcop
    · rw [hc] at hcop
      cases hcop
  · rwa [setEle_ne hjk] at hcop

theorem still_setEle (hc : e.cop=(s.ele k).cop ∨ e.cop=none) : Still s (s.setEle k e) :=
  ⟨rfl,rfl,rfl,fun _ => named_setEle hc⟩

theorem named_kill (h : named {s with alive := Function.update s.alive k false} c) : named s c := by
  obtain ⟨j,hj,hcop⟩ := h
  refine ⟨j,?_,hcop⟩
  by_cases hjk : j=k
  · subst hjk
    simp at hj
  · simpa [hjk] using hj

theorem still_kill (h : Still s s') : Still s {s' with alive := Function.update s'.alive k false} :=
  ⟨h.waits,h.resumed,h.early,fun c hc => h.named c (named_kill hc)⟩

/-- What an element keeps that nobody waits for, or that keeps what its waiter needs. -/
theorem inv_same (h : Inv s) (ha : s.alive k=true) (hc : e.cop=(s.ele k).cop) (ho : e.owed=(s.ele k).owed)
    (hp : e.pending ↔ (s.ele k).pending) (hd : e.doing=(s.ele k).doing)
    (hw : waitsFor s k=true → ∀ c,Awaited (s.ele k) c → Awaited e c) : Inv (s.setEle k e) := by
  refine inv_setEle h (fun c n hcn => hw (h.waited hcn) c (h.waits c k n hcn).2.1) (fun hpe hoe c hce => ?_) fun hde => ?_
  · exact h.linked k c ha (hp.mp hpe) (ho.symm.trans hoe) (hc.symm.trans hce)
  · exact hp.mpr (h.live k ha (hd.symm.trans hde))

theorem inv_new {kind : Kind} (h : Inv s) (hk : s.alive k=false) :
    Inv {s.setEle k {kind := kind, own := decide (kind≠.ctc), refc := 1} with alive := Function.update s.alive k true} := by
  have hne : ∀ j,s.alive j=true → j≠k := by
    rintro j hj rfl
    rw [hk] at hj
    cases hj
  have hset : Inv (s.setEle k {kind := kind, own := decide (kind≠.ctc), refc := 1}) :=
    inv_setEle h (fun c n hw => absurd rfl (hne k (h.waits c k n hw).1)) (fun _ _ c hc => by cases hc) fun hd => by cases hd
  refine ⟨fun c j n hw => ?_,h.uniq,fun j c ha hp ho hc => ?_,fun j ha hd => ?_,h.exact,h.value,h.once,h.early⟩
  · obtain ⟨hja,hrest⟩ := hset.waits c j n hw
    exact ⟨(Function.update_of_ne (hne j hja) ..).trans hja,hrest⟩
  · by_cases hjk : j=k
    · subst hjk
      rw [show (s.setEle j _).ele j=_ from setEle_self] at hc
      cases hc
    · exact hset.linked j c ((Function.update_of_ne hjk ..).symm.trans ha) hp ho hc
  · by_cases hjk : j=k
    · subst hjk
      rw [show (s.setEle j _).ele j=_ from setEle_self] at hd
      cases hd
    · exact hset.live j ((Function.update_of_ne hjk ..).symm.trans ha) hd

theorem add_cop {allow func : Bool} {ret : Dpret} :
    (e.add allow func ret).cop=e.cop ∨ (e.add allow func ret).cop=none := by
  unfold Ele.add
  split
  · exact .inl rfl
  · simp only
    split
    · exact .inl rfl
    · split
      · by_cases hk : e.kind=.ctc
        · exact .inr (if_pos hk)
        · exact .inl (if_neg hk)
      · exact .inl rfl

theorem add_live {allow func : Bool} {ret : Dpret} (h : e.doing=true → e.pending) (hd : (e.add allow func ret).doing=true) :
    (e.add allow func ret).pending := by
  unfold Ele.add at hd ⊢
  split
  · rename_i hrefuse
    exact h hrefuse.1
  · rename_i hgo
    rw [if_neg hgo] at hd
    simp only at hd ⊢
    split
    · exact .inl rfl
    · rename_i hneg
      rw [if_neg hneg] at hd
      split
      · exact .inr rfl
      · rename_i hne
        rw [if_neg hne] at hd
        cases hd

theorem add_refused {allow func : Bool} {ret : Dpret} (hd : e.doing=true) (hno : ¬(allow=true ∧ e.kind=.tmr)) :
    e.add allow func ret=e := if_pos ⟨hd,hno⟩

theorem add_again {func : Bool} (hd : e.doing=true) (hk : e.kind=.tmr) : e.add true func dpeWait=
    {e with func := func, ret := dpeInprogress, armed := true, own := true} := by
  have hneg : ¬0≤dpeWait := by decide
  unfold Ele.add
  rw [if_neg (by simp [hk])]
  simp only
  rw [if_neg hneg,if_pos trivial,if_pos hk,if_neg (by simp [hk]),← hd]

theorem inv_add {allow func : Bool} {ret : Dpret} (h : Inv s) (ha : s.alive k=true) (hok : calm s (.add k allow func ret)) :
    Inv (s.setEle k {(s.ele k).add allow func ret with
      owed := if waitsFor s k=true then ((s.ele k).add allow func ret).owed
        else ((s.ele k).add allow func ret).cop.isSome}) := by
  by_cases hwait : waitsFor s k=true
  · rw [if_pos hwait]
    obtain ⟨c,n,hcop,hw⟩ := waitsFor_iff.mp hwait
    obtain ⟨-,haw,-⟩ := h.waits c k n hw
    by_cases hgo : allow=true ∧ (s.ele k).kind=.tmr
    · obtain ⟨hallow,hk⟩ := hgo
      obtain ⟨hready,hret,hfunc⟩ := hok hwait hallow hk
      rw [hallow,hret,hfunc,add_again haw.doing hk]
      refine inv_setEle h (fun d m hd => ?_) (fun _ _ d hd => ?_) fun _ => .inr rfl
      · obtain ⟨-,hawd,-⟩ := h.waits d k m hd
        exact ⟨hawd.cop,hawd.doing,hawd.attached,rfl,hawd.refc,fun _ => rfl,hawd.owed,fun hs => by
          rw [hready] at hs
          cases hs.1⟩
      · exact ⟨n,by rw [← Option.some.inj (hcop.symm.trans hd)]; exact hw⟩
    · rw [add_refused haw.doing hgo]
      exact inv_same h ha rfl rfl Iff.rfl rfl fun _ _ hx => hx
  · rw [if_neg hwait]
    refine inv_setEle h (fun c n hw => absurd (h.waited hw) hwait) (fun _ ho c hc => ?_) fun hd => ?_
    · rw [show ((s.ele k).add allow func ret).cop=some c from hc] at ho
      cases ho
    · exact add_live (h.live k ha) hd

theorem end_fields {hit : Bool} {ret : Dpret} : (e.end ret hit).2.cop=e.cop ∧ (e.end ret hit).2.owed=e.owed ∧
    ((e.doing=true → e.pending) → (e.end ret hit).2.doing=true → (e.end ret hit).2.pending) := by
  unfold Ele.end
  split
  · exact ⟨rfl,rfl,fun h => h⟩
  · split
    · split
      · exact ⟨rfl,rfl,fun h => h⟩
      · split
        · exact ⟨rfl,rfl,fun h => h⟩
        · exact ⟨rfl,rfl,fun h => h⟩
    · exact ⟨rfl,rfl,fun _ _ => .inl rfl⟩

/-- The operation that a coroutine waits for goes to the ready queue, from where dpevp_pop takes it. -/
theorem end_awaited {hit : Bool} {ret : Dpret} (h : Awaited e c) : Awaited (e.end ret hit).2 c := by
  unfold Ele.end
  split
  · exact h
  · split
    · split
      · exact h
      · split
        · exact ⟨h.cop,h.doing,h.attached,h.own,h.refc,h.func,h.owed,h.single⟩
        · exact h
    · exact ⟨h.cop,h.doing,h.attached,h.own,h.refc,h.func,h.owed,fun hs => by cases hs.2⟩

theorem end_pending {hit : Bool} {ret : Dpret} (h : e.doing=true → e.pending) (hp : (e.end ret hit).2.pending) : e.pending := by
  unfold Ele.end at hp
  split at hp
  · exact hp
  · rename_i hd
    exact h (Bool.not_eq_false _ ▸ hd)

theorem step_inv {a : Act ι} (h : Inv s) (hok : calm s a) (hu : step s a=some s') : Inv s' ∧ Still s s' := by
  cases a with
  | new k kind =>
    simp only [step] at hu
    split at hu
    · rename_i hk
      cases hu
      refine ⟨inv_new h hk,rfl,rfl,rfl,fun c ⟨j,hj,hc⟩ => ?_⟩
      by_cases hjk : j=k
      · subst hjk
        rw [show (s.setEle j _).ele j=_ from setEle_self] at hc
        cases hc
      · rw [show (s.setEle k _).ele j=_ from setEle_ne hjk] at hc
        exact ⟨j,(Function.update_of_ne hjk ..).symm.trans hj,hc⟩
    · cases hu
  | ref k =>
    simp only [step] at hu
    split at hu
    · rename_i hk
      cases hu
      refine ⟨inv_same h hk.1 rfl rfl Iff.rfl rfl fun _ c hx => ?_,still_setEle (.inl rfl)⟩
      exact ⟨hx.cop,hx.doing,hx.attached,hx.own,Int.lt_add_one_of_le (Int.le_of_lt hx.refc),hx.func,hx.owed,hx.single⟩
    · cases hu
  | del k =>
    simp only [step] at hu
    split at hu
    · rename_i hk
      have hdec : Inv (s.setEle k {s.ele k with refc := (s.ele k).refc-1}) := by
        refine inv_same h hk.1 rfl rfl Iff.rfl rfl fun hwait c hx => ?_
        have hne : (s.ele k).refc≠1 := fun hone => by
          rw [hok hone] at hwait
          cases hwait
        have hpos : 0<(s.ele k).refc-1 := by
          have := hx.refc
          omega
        exact ⟨hx.cop,hx.doing,hx.attached,hx.own,hpos,hx.func,hx.owed,hx.single⟩
      split at hu <;> cases hu
      · rename_i hlast
        refine ⟨inv_kill hdec ?_,still_kill (still_setEle (.inl rfl))⟩
        have := hok hlast.1
        unfold waitsFor at this ⊢
        rw [setEle_self]
        exact this
      · exact ⟨hdec,still_setEle (.inl rfl)⟩
    · cases hu
  | setDetach k b =>
    simp only [step] at hu
    split at hu
    · rename_i ha
      split at hu <;> cases hu
      · exact ⟨h,rfl,rfl,rfl,fun _ hc => hc⟩
      · rename_i hidle
        exact ⟨inv_same h ha rfl rfl Iff.rfl rfl fun _ c hx => absurd hx.doing hidle,still_setEle (.inl rfl)⟩
    · cases hu
  | setRet k ret =>
    simp only [step] at hu
    split at hu
    · rename_i ha
      cases hu
      refine ⟨inv_same h ha rfl rfl Iff.rfl rfl fun _ c hx => ?_,still_setEle (.inl rfl)⟩
      exact ⟨hx.cop,hx.doing,hx.attached,hx.own,hx.refc,hx.func,hx.owed,hx.single⟩
    · cases hu
  | add k allow func ret =>
    simp only [step] at hu
    split at hu
    · rename_i ha
      cases hu
      exact ⟨inv_add h ha hok,still_setEle add_cop⟩
    · cases hu
  | dpevpEnd k ret hit =>
    simp only [step] at hu
    split at hu
    · rename_i ha
      cases hu
      obtain ⟨hcop,howed,hlive⟩ := @end_fields _ _ (s.ele k) hit ret
      refine ⟨inv_setEle h (fun c n hw => end_awaited (h.waits c k n hw).2.1) (fun hp ho c hc => ?_) fun hd => ?_,
        still_setEle (.inl hcop)⟩
      · exact h.linked k c ha (end_pending (h.live k ha) hp) (howed.symm.trans ho) (hcop.symm.trans hc)
      · exact hlive (h.live k ha) hd
    · cases hu

/-! ### Reaping and ceasing -/

theorem pop_fields {e : Ele κ} {queued : Bool} {ret : Dpret} : (e.pop queued ret).cop=e.cop ∧ (e.pop queued ret).kind=e.kind ∧
    (e.pop queued ret).func=e.func ∧ (e.pop queued ret).owed=e.owed ∧ (e.pop queued ret).doing=false ∧ (e.pop queued ret).refc=e.refc ∧ ((e.pop queued ret).pending → e.pending) := by
  unfold Ele.pop
  split
  · exact ⟨rfl,rfl,rfl,rfl,rfl,rfl,fun hp => .inr (hp.resolve_left (by simp))⟩
  · exact ⟨rfl,rfl,rfl,rfl,rfl,rfl,fun hp => .inl (hp.resolve_right (by simp))⟩

theorem over_ele {queued : Bool} {ret : Dpret} : (s.over k queued ret).ele k=(s.ele k).pop queued ret := by
  unfold Evp.over
  simp only
  split
  · exact setEle_self
  · exact setEle_self

theorem still_over {queued : Bool} {ret : Dpret} : Still s (s.over k queued ret) := by
  unfold Evp.over
  simp only
  split
  · exact still_kill (still_setEle (.inl pop_fields.1))
  · exact still_setEle (.inl pop_fields.1)

/-- Nobody waits for what dpevp_pop reaps. -/
theorem inv_over {queued : Bool} {ret : Dpret} (h : Inv s) (ha : s.alive k=true) (hn : waitsFor s k=false) :
    Inv (s.over k queued ret) := by
  obtain ⟨hcop,-,-,howed,hdoing,-,hpend⟩ := @pop_fields _ _ (s.ele k) queued ret
  have hset : Inv (s.setEle k ((s.ele k).pop queued ret)) := by
    refine inv_setEle h (fun c n hw => ?_) (fun hp ho c hc => ?_) fun hd => ?_
    · rw [h.waited hw] at hn
      cases hn
    · exact h.linked k c ha (hpend hp) (howed.symm.trans ho) (hcop.symm.trans hc)
    · rw [hdoing] at hd
      cases hd
  unfold Evp.over
  simp only
  split
  · refine inv_kill hset ?_
    unfold waitsFor at hn ⊢
    rw [setEle_self,hcop]
    exact hn
  · exact hset

/-- What a coroutine waits for is reaped, and it goes on with the result. -/
theorem inv_over_wake {queued : Bool} {ret : Dpret} (h : Inv s) (hw : s.waits c=some (k,n))
    (hq : if queued=true then (s.ele k).ready=true else (s.ele k).armed=true) :
    s.over k queued ret=s.setEle k ((s.ele k).pop queued ret) ∧
      Inv ((s.setEle k ((s.ele k).pop queued ret)).resume c k ((s.ele k).pop queued ret).ret) := by
  obtain ⟨-,haw,-⟩ := h.waits c k n hw
  obtain ⟨-,-,-,-,hdoing,hrefc,-⟩ := @pop_fields _ _ (s.ele k) queued ret
  refine ⟨?_,inv_wake h hw (fun hp => ?_) fun hd => ?_⟩
  · unfold Evp.over
    simp only
    have hpos := haw.refc
    rw [if_neg (by rw [setEle_self,hrefc]; omega)]
  · -- it was in the ready queue, or armed, but not both
    exfalso
    unfold Ele.pop Ele.pending at hp
    cases queued with
    | true => exact haw.single ⟨hq,hp.resolve_left (by simp)⟩
    | false => exact haw.single ⟨hp.resolve_right (by simp),hq⟩
  · rw [hdoing] at hd
    cases hd

theorem still_ceased {hit : Bool} {ret : Dpret} : Still s (s.ceased k ((s.ele k).end ret hit).2) :=
  still_setEle (.inl end_fields.1)

theorem inv_ceased {hit : Bool} {ret : Dpret} (h : Inv s) (ha : s.alive k=true) (hn : waitsFor s k=false) :
    Inv (s.ceased k ((s.ele k).end ret hit).2) := by
  refine inv_setEle h (fun c n hw => ?_) (fun _ ho c hc => ?_) fun hd => end_fields.2.2 (h.live k ha) hd
  · rw [h.waited hw] at hn
    cases hn
  · rw [show ((s.ele k).end ret hit).2.cop=some c from hc] at ho
    simp at ho

theorem end_ok {hit : Bool} {ret : Dpret} (h : Awaited e c) : (e.end ret hit).1=dpeOk := by
  unfold Ele.end
  rw [if_neg (by rw [h.doing]; simp)]
  split
  · rw [if_neg (by rw [h.own]; simp)]
  · rfl

/-- The operation that a coroutine waits for is ended, and it goes on with the result. -/
theorem inv_ceased_wake {hit : Bool} {ret : Dpret} (h : Inv s) (hw : s.waits c=some (k,n))
    (hhit : (s.ele k).kind=.ctc → hit=true) : ((s.ele k).end ret hit).2.ret=ret ∧
      Inv ((s.ceased k ((s.ele k).end ret hit).2).resume c k ret) := by
  obtain ⟨ha,haw,-⟩ := h.waits c k n hw
  have hret : ((s.ele k).end ret hit).2.ret=ret := by
    unfold Ele.end
    rw [if_neg (by rw [haw.doing]; simp)]
    split
    · rename_i hk
      rw [if_neg (by rw [haw.own]; simp),if_pos (hhit hk)]
    · rfl
  refine ⟨hret,?_⟩
  have hwake := inv_wake (e := {((s.ele k).end ret hit).2 with
    owed := ((s.ele k).end ret hit).2.owed || ((s.ele k).end ret hit).2.cop.isSome}) h hw (fun _ => ?_) fun hd => ?_
  · rw [show ({((s.ele k).end ret hit).2 with
      owed := ((s.ele k).end ret hit).2.owed || ((s.ele k).end ret hit).2.cop.isSome} : Ele κ).ret=ret from hret] at hwake
    exact hwake
  · simp [end_fields.1,haw.cop]
  · exact end_fields.2.2 (h.live k ha) hd

end Steps

end Dpapp.AwaitEle
