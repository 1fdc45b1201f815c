import Dpapp.AwaitEle

/-! # aco_ele_awaitable, cease and the main loop of dpcpp (dpcpp_aco.hh, dpcpp.cc)

The frames of one thread's C++ coroutines and the elements that they wait for. When a coroutine is made, started by others
and destroyed is left to the program and its coroutine library. -/

set_option linter.unusedSectionVars false

namespace Dpapp.DpcppAwait
open Dpapp.Machine Dpapp.Ret Dpapp.AwaitEle

/-- What is at the address of a handle; `absent` is no frame, or one that has been destroyed. -/
inductive Frame | absent | suspended | active | done
  deriving DecidableEq

/- `stack` are the coroutines that run, each resumed by the next one. History: `fault` tells whether a handle has been
used of a frame that was absent, or resumed of one that was not suspended. -/
structure Sys (ι κ : Type*) where
  evp : Evp ι κ := {}
  frame : κ → Frame := fun _ => .absent
  stack : List κ := []
  fault : Bool := false

variable {ι κ : Type*} [DecidableEq ι] [DecidableEq κ]

def Sys.setFrame (s : Sys ι κ) (c : κ) (f : Frame) : Sys ι κ := {s with frame := Function.update s.frame c f}

/-- co_await of an aco_ele_awaitable: await_ready, await_suspend, and await_resume where it is not suspended. -/
def awaitEle (s : Sys ι κ) (c : κ) (k : ι) : Sys ι κ :=
  let e := s.evp.ele k
  if e.doing=true ∧ e.isDetach=false then
    {s.setFrame c .suspended with evp := s.evp.wait c k, stack := s.stack.tail}
  else {s with evp := {s.evp with early := s.evp.early++[(c,k,e.doing)]}}

/-- What await_resume returns to the coroutine: the `ret` of the element that it has awaited. -/
def awaitResume (s : Sys ι κ) (c : κ) : Dpret := ((s.evp.waits c).map fun w => (s.evp.ele w.1).ret).getD 0

/-- resume_from_ele -/
def resumeFromEle (s : Sys ι κ) (k : ι) : Sys ι κ :=
  match (s.evp.ele k).cop with
  | none => s
  | some c =>
      match s.frame c with
      | .done => s
      | .suspended => {s.setFrame c .active with evp := s.evp.resume c k (awaitResume s c), stack := c::s.stack}
      | .absent | .active => {s with fault := true}

def cease (s : Sys ι κ) (k : ι) (ret : Dpret) (hit : Bool) : Sys ι κ :=
  let (r,e) := (s.evp.ele k).end ret hit
  let t : Sys ι κ := {s with evp := s.evp.ceased k e}
  if 0≤r then resumeFromEle t k else t

/-- `_thread_main_step`. A timer's function runs in a coroutine of its own, which the loop makes next. -/
def pop (s : Sys ι κ) (k : ι) (queued : Bool) (ret : Dpret) : Sys ι κ :=
  let t : Sys ι κ := {s with evp := s.evp.over k queued ret}
  if (s.evp.ele k).refc≤0 ∨ (s.evp.ele k).isDetach=true then t
  else if (s.evp.ele k).kind=.tmr ∧ (s.evp.ele k).func=true then t
  else resumeFromEle t k

inductive Act (ι κ : Type*)
  | ele (a : AwaitEle.Act ι)
  | create (c : κ)
  | start (c : κ)
  | suspend
  | finish
  | destroy (c : κ)
  | await (k : ι)
  | cease (k : ι) (ret : Dpret) (hit : Bool)
  | pop (k : ι) (queued : Bool) (ret : Dpret)

/- The coroutine on top of the stack runs, and the main loop where the stack is empty. -/
def step (s : Sys ι κ) : Act ι κ → Option (Sys ι κ)
  | .ele a => (AwaitEle.step s.evp a).map fun evp => {s with evp := evp}
  | .create c => if s.frame c=.absent then some (s.setFrame c .suspended) else none
  | .start c => if s.frame c=.suspended then some {s.setFrame c .active with stack := c::s.stack} else none
  | .suspend =>
      match s.stack with
      | [] => none
      | c::rest => some {s.setFrame c .suspended with stack := rest}
  | .finish =>
      match s.stack with
      | [] => none
      | c::rest => some {s.setFrame c .done with stack := rest}
  | .destroy c => if s.frame c=.suspended ∨ s.frame c=.done then some (s.setFrame c .absent) else none
  | .await k =>
      match s.stack with
      | [] => none
      | c::_ => if s.evp.alive k=true then some (awaitEle s c k) else none
  | .cease k ret hit => if s.evp.alive k=true then some (cease s k ret hit) else none
  | .pop k queued ret =>
      if s.evp.alive k=true ∧ s.stack=[] ∧
          (if queued=true then (s.evp.ele k).ready=true else (s.evp.ele k).armed=true) then
        some (pop s k queued ret)
      else none

/-! ### Sound runs -/

/-- A coroutine awaits an operation that nobody else awaits (see `fit`); while it does, the program neither resumes nor
destroys it. When an element is over or ceased that nobody awaits, the handle that is left in it, if there is one, is that
of a coroutine that has ended and has not been destroyed. A CTC is not ceased once it runs. -/
def orderly (s : Sys ι κ) : Act ι κ → Prop
  | .ele a => calm s.evp a
  | .start c | .destroy c => s.evp.waits c=none
  | .await k => (s.evp.ele k).doing=true → fit s.evp k
  | .cease k ret hit => 0≤((s.evp.ele k).end ret hit).1 →
      if waitsFor s.evp k=true then (s.evp.ele k).kind=.ctc → hit=true else ∀ c∈ (s.evp.ele k).cop,s.frame c=.done
  | .pop k _ _ => waitsFor s.evp k=false → 0<(s.evp.ele k).refc → (s.evp.ele k).isDetach=false →
      ¬((s.evp.ele k).kind=.tmr ∧ (s.evp.ele k).func=true) → ∀ c∈ (s.evp.ele k).cop,s.frame c=.done
  | .create _ | .suspend | .finish => True

/-- The operation on the element is over, or has been ceased. -/
def ends (s : Sys ι κ) : Act ι κ → ι → Prop
  | .pop j _ _,k => j=k
  | .cease j ret hit,k => j=k ∧ 0≤((s.evp.ele j).end ret hit).1
  | .ele _,_ | .create _,_ | .start _,_ | .suspend,_ | .finish,_ | .destroy _,_ | .await _,_ => False

/-- A co_await suspends the coroutine where an operation is going on; once it has ended the coroutine runs, and what it
gets is what the operation has been ceased with. -/
structure Arrives (s s' : Sys ι κ) (a : Act ι κ) : Prop where
  woken : ∀ c k n,s.evp.waits c=some (k,n) → ends s a k → s'.stack=c::s.stack ∧ s'.frame c=.active
  ceased : ∀ c k n ret hit,s.evp.waits c=some (k,n) → a=.cease k ret hit → (s'.evp.ele k).ret=ret
  await : ∀ k c rest,a=.await k → s.stack=c::rest → (s.evp.ele k).doing=true →
    s'.evp.waits c=some (k,s.evp.next) ∧ s'.stack=rest

/-- No handle has been used of a frame that was not suspended. Who waits is suspended, and the operation will end. -/
structure Sound (s : Sys ι κ) : Prop where
  evp : AwaitEle.Sound s.evp
  fault : s.fault=false
  parked : ∀ c k n,s.evp.waits c=some (k,n) → s.frame c=.suspended ∧ (s.evp.ele k).pending
  step : ∀ a s',orderly s a → step s a=some s' → Effect s.evp s'.evp (ends s a) ∧ Arrives s s' a

/-! ### The invariant -/

structure Inv (s : Sys ι κ) : Prop where
  evp : AwaitEle.Inv s.evp
  fault : s.fault=false
  parked : ∀ c k n,s.evp.waits c=some (k,n) → s.frame c=.suspended
  active : ∀ c∈ s.stack,s.frame c=.active
  nodup : s.stack.Nodup

section Steps
variable {s s' : Sys ι κ} {k : ι} {c : κ} {rest : List κ} {n : ℕ} {e : Ele κ} {ret : Dpret} {f : Frame} {a : Act ι κ}

theorem inv_start : Inv ({} : Sys ι κ) where
  evp := AwaitEle.inv_start
  fault := rfl
  parked _ _ _ h := by cases h
  active _ h := by cases h
  nodup := List.nodup_nil

/-- The program changes a frame that neither waits nor runs; `stack` are those that run then. -/
theorem inv_frame {stack : List κ} (h : Inv s) (hw : s.evp.waits c=none) (hstack : ∀ d∈stack,d≠c → d∈ s.stack)
    (hc : c∈stack → f=.active) (hnodup : stack.Nodup) : Inv {s.setFrame c f with stack := stack} where
  evp := h.evp
  fault := h.fault
  parked d k n hd := by
    have hdc : d≠c := by
      rintro rfl
      rw [show s.evp.waits d=some (k,n) from hd] at hw
      cases hw
    exact (Function.update_of_ne hdc ..).trans (h.parked d k n hd)
  active d hd := by
    by_cases hdc : d=c
    · subst hdc
      exact (Function.update_self ..).trans (hc hd)
    · exact (Function.update_of_ne hdc ..).trans (h.active d (hstack d hd hdc))
  nodup := hnodup

theorem Inv.unsuspended (h : Inv s) (hf : s.frame c≠.suspended) : s.evp.waits c=none := by
  cases hw : s.evp.waits c with
  | none => rfl
  | some w => exact absurd (h.parked c w.1 w.2 hw) hf

/-- The coroutine that runs does not wait, and is not further down. -/
theorem Inv.top (h : Inv s) (hs : s.stack=c::rest) : s.evp.waits c=none ∧ c∉rest ∧ rest.Nodup := by
  have hactive := h.active c (hs ▸ List.mem_cons_self)
  have hnodup := h.nodup
  rw [hs] at hnodup
  refine ⟨h.unsuspended ?_,List.nodup_cons.mp hnodup⟩
  rw [hactive]
  exact Frame.noConfusion

theorem arrives_same (hno : ∀ c k n,s.evp.waits c=some (k,n) → ¬ends s a k)
    (hc : ∀ c k n ret hit,s.evp.waits c=some (k,n) → a≠.cease k ret hit) (ha : ∀ k,a≠.await k) : Arrives s s' a where
  woken c k n hw he := absurd he (hno c k n hw)
  ceased c k n ret hit hw he := absurd he (hc c k n ret hit hw)
  await k _ _ he := absurd he (ha k)

/-- What the program does with frames. -/
theorem inv_program {stack : List κ} (h : Inv s) (hw : s.evp.waits c=none) (hstack : ∀ d∈stack,d≠c → d∈ s.stack)
    (hc : c∈stack → f=.active) (hnodup : stack.Nodup) (he : ends s a=fun _ => False)
    (hcease : ∀ k ret hit,a≠.cease k ret hit) (ha : ∀ k,a≠.await k) :
    Inv {s.setFrame c f with stack := stack} ∧ Effect s.evp s.evp (ends s a) ∧
      Arrives s {s.setFrame c f with stack := stack} a := by
  have hno : ∀ c k n,s.evp.waits c=some (k,n) → ¬ends s a k := fun _ _ _ _ hx => by
    rw [he] at hx
    exact hx
  exact ⟨inv_frame h hw hstack hc hnodup,effect_same rfl rfl hno,arrives_same hno (fun _ k _ ret hit _ => hcease k ret hit) ha⟩

theorem inv_ele {b : AwaitEle.Act ι} {t : Evp ι κ} (h : Inv s) (hok : calm s.evp b) (hu : AwaitEle.step s.evp b=some t) :
    Inv {s with evp := t} ∧ Effect s.evp t (ends s (.ele b)) ∧ Arrives s {s with evp := t} (.ele b) := by
  obtain ⟨hi,hstill⟩ := AwaitEle.step_inv h.evp hok hu
  refine ⟨⟨hi,h.fault,fun c k n hw => h.parked c k n ?_,h.active,h.nodup⟩,
    effect_same hstill.waits hstill.resumed fun _ _ _ _ he => he,
    arrives_same (fun _ _ _ _ he => he) (fun _ _ _ _ _ _ he => by cases he) fun _ he => by cases he⟩
  rw [← hstill.waits]
  exact hw

theorem inv_await (h : Inv s) (hs : s.stack=c::rest) (ha : s.evp.alive k=true) (hok : orderly s (.await k)) :
    Inv (awaitEle s c k) ∧ Effect s.evp (awaitEle s c k).evp (ends s (.await k)) ∧ Arrives s (awaitEle s c k) (.await k) := by
  obtain ⟨hfree,hrest,hnodup⟩ := h.top hs
  by_cases hd : (s.evp.ele k).doing=true
  · have hfit := hok hd
    have hrun : awaitEle s c k={s.setFrame c .suspended with evp := s.evp.wait c k, stack := rest} := by
      unfold awaitEle
      simp only
      rw [if_pos ⟨hd,hfit.1⟩,hs,List.tail_cons]
    have hkeep : ∀ d j n,s.evp.waits d=some (j,n) → d≠c := by
      rintro d j n hw rfl
      rw [hfree] at hw
      cases hw
    rw [hrun]
    refine ⟨⟨AwaitEle.inv_wait h.evp ha hd hfit hfree,h.fault,fun d j n hw => ?_,fun d hdr => ?_,hnodup⟩,
      ⟨fun _ _ _ _ he => absurd he id,fun d j n hw _ => ?_,fun _ => rfl⟩,
      ⟨fun _ _ _ _ he => absurd he id,fun _ _ _ _ _ _ he => (by cases he),fun j d l he hst _ => ?_⟩⟩
    · by_cases hdc : d=c
      · subst hdc
        exact Function.update_self ..
      · exact (Function.update_of_ne hdc ..).trans (h.parked d j n (by simpa [Evp.wait,hdc] using hw))
    · have hdc : d≠c := fun hdc => hrest (hdc ▸ hdr)
      exact (Function.update_of_ne hdc ..).trans (h.active d (hs ▸ List.mem_cons_of_mem c hdr))
    · exact (Function.update_of_ne (hkeep d j n hw) ..).trans hw
    · cases he
      cases hs.symm.trans hst
      exact ⟨Function.update_self ..,rfl⟩
  · have hrun : awaitEle s c k={s with evp := {s.evp with early := s.evp.early++[(c,k,(s.evp.ele k).doing)]}} := by
      unfold awaitEle
      simp only
      rw [if_neg fun hx => hd hx.1]
    rw [hrun]
    refine ⟨⟨inv_early h.evp (Bool.eq_false_iff.mpr hd),h.fault,h.parked,h.active,h.nodup⟩,
      effect_same rfl rfl fun _ _ _ _ he => he,
      ⟨fun _ _ _ _ he => absurd he id,fun _ _ _ _ _ _ he => (by cases he),fun j _ _ he _ hj => ?_⟩⟩
    cases he
    exact absurd hj hd

/-- The coroutine that waits goes on. -/
theorem inv_resumeFromEle (h : Inv s) (hw : s.evp.waits c=some (k,n)) (hcop : e.cop=some c)
    (hi : AwaitEle.Inv ((s.evp.setEle k e).resume c k e.ret)) (he : ends s a k) (honly : ∀ j,ends s a j → j=k)
    (hret : ∀ j ret hit,a=.cease j ret hit → e.ret=ret) (ha : ∀ j,a≠.await j) :
    Inv (resumeFromEle {s with evp := s.evp.setEle k e} k) ∧
      Effect s.evp (resumeFromEle {s with evp := s.evp.setEle k e} k).evp (ends s a) ∧
      Arrives s (resumeFromEle {s with evp := s.evp.setEle k e} k) a := by
  have hp := h.parked c k n hw
  have hele : (s.evp.setEle k e).ele k=e := setEle_self
  have hrun : resumeFromEle {s with evp := s.evp.setEle k e} k=
      {s.setFrame c .active with evp := (s.evp.setEle k e).resume c k e.ret, stack := c::s.stack} := by
    unfold resumeFromEle awaitResume
    simp only [hele,hcop,hp]
    rw [show (s.evp.setEle k e).waits c=some (k,n) from hw]
    simp only [Option.map_some,Option.getD_some,hele]
    rfl
  rw [hrun]
  have hothers : ∀ d,d≠c → ((s.evp.setEle k e).resume c k e.ret).waits d=s.evp.waits d := fun d hdc =>
    Function.update_of_ne hdc ..
  have hretk : ((s.evp.setEle k e).resume c k e.ret).ele k=e := setEle_self
  have honec : ∀ d j m,s.evp.waits d=some (j,m) → ends s a j → d=c := by
    intro d j m hd hj
    cases honly j hj
    exact Option.some.inj ((h.evp.waits d k m hd).2.1.cop.symm.trans (h.evp.waits c k n hw).2.1.cop)
  refine ⟨⟨hi,h.fault,fun d j m hd => ?_,fun d hd => ?_,List.nodup_cons.mpr ⟨fun hc => ?_,h.nodup⟩⟩,
    effect_woken h.evp hw (Function.update_self ..) ?_ he honly hothers,
    ⟨fun d j m hd hj => ?_,fun d j m ret hit hd hj => ?_,fun j _ _ hj => absurd hj (ha j)⟩⟩
  · have hdc : d≠c := by
      rintro rfl
      simp [Evp.resume] at hd
    exact (Function.update_of_ne hdc ..).trans (h.parked d j m ((hothers d hdc).symm.trans hd))
  · by_cases hdc : d=c
    · subst hdc
      exact Function.update_self ..
    · exact (Function.update_of_ne hdc ..).trans (h.active d ((List.mem_cons.mp hd).resolve_left hdc))
  · rw [h.active c hc] at hp
    cases hp
  · rw [hretk]
    simp only [Evp.resume,hele]
    rw [show (s.evp.setEle k e).waits c=some (k,n) from hw]
    rfl
  · rw [honec d j m hd hj]
    exact ⟨rfl,Function.update_self ..⟩
  · have hjk : j=k := by
      refine honly j ?_
      rw [hj] at he ⊢
      exact ⟨rfl,he.1 ▸ he.2⟩
    rw [hjk,hretk]
    exact hret j ret hit hj

/-- Nobody waits for the element that is over, or ceased. -/
theorem inv_unawaited {t : Evp ι κ} (h : Inv s) (hn : waitsFor s.evp k=false) (hi : AwaitEle.Inv t) (hstill : Still s.evp t)
    (hends : ∀ j,ends s a j → j=k) (hcease : ∀ j ret hit,a=.cease j ret hit → j=k) (ha : ∀ j,a≠.await j) :
    Inv {s with evp := t} ∧ Effect s.evp t (ends s a) ∧ Arrives s {s with evp := t} a := by
  have hno : ∀ c j n,s.evp.waits c=some (j,n) → j≠k := by
    rintro c j n hc rfl
    rw [h.evp.waited hc] at hn
    cases hn
  have hnoends : ∀ c j n,s.evp.waits c=some (j,n) → ¬ends s a j := fun c j n hc he => hno c j n hc (hends j he)
  refine ⟨⟨hi,h.fault,fun c j n hc => h.parked c j n ?_,h.active,h.nodup⟩,effect_same hstill.waits hstill.resumed hnoends,
    arrives_same hnoends (fun c j n ret hit hc he => hno c j n hc (hcease j ret hit he)) ha⟩
  rw [← hstill.waits]
  exact hc

/-- What is left in the element is the handle of a coroutine that has ended. -/
theorem resumeFromEle_done (hdone : ∀ c∈ (s.evp.ele k).cop,s.frame c=.done) : resumeFromEle s k=s := by
  unfold resumeFromEle
  cases hcop : (s.evp.ele k).cop with
  | none => rfl
  | some c =>
    simp only
    rw [hdone c hcop]

theorem inv_cease {hit : Bool} (h : Inv s) (ha : s.evp.alive k=true) (hok : orderly s (.cease k ret hit)) :
    Inv (cease s k ret hit) ∧ Effect s.evp (cease s k ret hit).evp (ends s (.cease k ret hit)) ∧
      Arrives s (cease s k ret hit) (.cease k ret hit) := by
  have hcop : ((s.evp.ele k).end ret hit).2.cop=(s.evp.ele k).cop := end_fields.1
  cases hwait : waitsFor s.evp k with
  | true =>
    obtain ⟨c,n,hc,hw⟩ := waitsFor_iff.mp hwait
    have hr : ((s.evp.ele k).end ret hit).1=dpeOk := end_ok (h.evp.waits c k n hw).2.1
    have hpos : 0≤((s.evp.ele k).end ret hit).1 := by
      rw [hr]
      exact Int.le_refl 0
    have hctc := hok hpos
    rw [if_pos hwait] at hctc
    obtain ⟨hret,hi⟩ := inv_ceased_wake h.evp hw hctc
    have hrun : cease s k ret hit=resumeFromEle {s with evp := s.evp.ceased k ((s.evp.ele k).end ret hit).2} k := by
      unfold cease
      simp only
      rw [if_pos hpos]
    rw [hrun]
    refine inv_resumeFromEle h hw (e := {((s.evp.ele k).end ret hit).2 with
      owed := ((s.evp.ele k).end ret hit).2.owed || ((s.evp.ele k).end ret hit).2.cop.isSome}) (hcop.trans hc) ?_ ⟨rfl,hpos⟩
      (fun j hj => hj.1.symm) (fun j r hit' he => by cases he; exact hret) fun _ he => by cases he
    show AwaitEle.Inv ((s.evp.ceased k ((s.evp.ele k).end ret hit).2).resume c k ((s.evp.ele k).end ret hit).2.ret)
    rw [hret]
    exact hi
  | false =>
    have hi : AwaitEle.Inv (s.evp.ceased k ((s.evp.ele k).end ret hit).2) := inv_ceased h.evp ha hwait
    have hsame := inv_unawaited (a := .cease k ret hit) h hwait hi still_ceased (fun j hj => hj.1.symm)
      (fun j r hit' he => by cases he; rfl) fun _ he => by cases he
    have hrun : cease s k ret hit={s with evp := s.evp.ceased k ((s.evp.ele k).end ret hit).2} := by
      unfold cease
      simp only
      split
      · rename_i hpos
        have hdone := hok hpos
        rw [if_neg (by rw [hwait]; simp)] at hdone
        refine resumeFromEle_done fun c hc => hdone c ?_
        rw [show ((s.evp.ceased k ((s.evp.ele k).end ret hit).2).ele k).cop=_ from congrArg Ele.cop setEle_self] at hc
        exact hcop ▸ hc
      · rfl
    rw [hrun]
    exact hsame

theorem inv_pop {queued : Bool} (h : Inv s) (ha : s.evp.alive k=true)
    (hq : if queued=true then (s.evp.ele k).ready=true else (s.evp.ele k).armed=true) (hok : orderly s (.pop k queued ret)) :
    Inv (pop s k queued ret) ∧ Effect s.evp (pop s k queued ret).evp (ends s (.pop k queued ret)) ∧
      Arrives s (pop s k queued ret) (.pop k queued ret) := by
  obtain ⟨hcop,-⟩ := @pop_fields _ _ (s.evp.ele k) queued ret
  cases hwait : waitsFor s.evp k with
  | true =>
    obtain ⟨c,n,hc,hw⟩ := waitsFor_iff.mp hwait
    obtain ⟨-,haw,-⟩ := h.evp.waits c k n hw
    obtain ⟨hover,hi⟩ := @inv_over_wake _ _ _ _ _ _ _ _ queued ret h.evp hw hq
    have hrefc := haw.refc
    have hrun : pop s k queued ret=resumeFromEle {s with evp := s.evp.setEle k ((s.evp.ele k).pop queued ret)} k := by
      unfold pop
      simp only
      rw [if_neg (fun hx => hx.elim (fun hx => by omega) fun hx => by rw [haw.attached] at hx; cases hx),
        if_neg (fun hx => by rw [haw.func hx.1] at hx; cases hx.2),hover]
    rw [hrun]
    exact inv_resumeFromEle h hw (hcop.trans hc) hi rfl (fun j hj => hj.symm) (fun _ _ _ he => by cases he)
      fun _ he => by cases he
  | false =>
    have hi : AwaitEle.Inv (s.evp.over k queued ret) := inv_over h.evp ha hwait
    have hsame := inv_unawaited (a := .pop k queued ret) h hwait hi still_over (fun j hj => hj.symm)
      (fun _ _ _ he => by cases he) fun _ he => by cases he
    have hrun : pop s k queued ret={s with evp := s.evp.over k queued ret} := by
      unfold pop
      simp only
      split
      · rfl
      · rename_i hgo
        split
        · rfl
        · rename_i hbare
          refine resumeFromEle_done fun c hc => ?_
          rw [over_ele,hcop] at hc
          exact hok hwait (by omega) (Bool.eq_false_iff.mpr fun hx => hgo (.inr hx)) hbare c hc
    rw [hrun]
    exact hsame

theorem step_inv (h : Inv s) (hok : orderly s a) (hu : step s a=some s') :
    Inv s' ∧ Effect s.evp s'.evp (ends s a) ∧ Arrives s s' a := by
  cases a with
  | ele b =>
    obtain ⟨t,ht,rfl⟩ := Option.map_eq_some_iff.mp hu
    exact inv_ele h hok ht
  | create c =>
    obtain ⟨hc,hu⟩ := Option.ite_none_right_eq_some.mp hu
    cases hu
    have hfree : s.evp.waits c=none := h.unsuspended (by rw [hc]; exact Frame.noConfusion)
    refine inv_program h hfree (fun _ hd _ => hd) (fun hd => ?_) h.nodup rfl (fun _ _ _ he => by cases he) fun _ he => by cases he
    rw [h.active c hd] at hc
    cases hc
  | start c =>
    obtain ⟨hc,hu⟩ := Option.ite_none_right_eq_some.mp hu
    cases hu
    have hnew : c∉ s.stack := by
      intro hd
      rw [h.active c hd] at hc
      cases hc
    exact inv_program h hok (fun d hd hdc => (List.mem_cons.mp hd).resolve_left hdc) (fun _ => rfl)
      (List.nodup_cons.mpr ⟨hnew,h.nodup⟩) rfl (fun _ _ _ he => by cases he) fun _ he => by cases he
  | suspend =>
    simp only [step] at hu
    split at hu <;> cases hu
    rename_i c rest hs
    obtain ⟨hfree,hrest,hnodup⟩ := h.top hs
    exact inv_program h hfree (fun d hd _ => hs ▸ List.mem_cons_of_mem c hd) (fun hd => absurd hd hrest) hnodup rfl
      (fun _ _ _ he => by cases he) fun _ he => by cases he
  | finish =>
    simp only [step] at hu
    split at hu <;> cases hu
    rename_i c rest hs
    obtain ⟨hfree,hrest,hnodup⟩ := h.top hs
    exact inv_program h hfree (fun d hd _ => hs ▸ List.mem_cons_of_mem c hd) (fun hd => absurd hd hrest) hnodup rfl
      (fun _ _ _ he => by cases he) fun _ he => by cases he
  | destroy c =>
    obtain ⟨hc,hu⟩ := Option.ite_none_right_eq_some.mp hu
    cases hu
    refine inv_program h hok (fun _ hd _ => hd) (fun hd => ?_) h.nodup rfl (fun _ _ _ he => by cases he) fun _ he => by cases he
    rcases hc with hc | hc
    · rw [h.active c hd] at hc
      cases hc
    · rw [h.active c hd] at hc
      cases hc
  | await k =>
    simp only [step] at hu
    split at hu
    · cases hu
    · rename_i c rest hs
      obtain ⟨ha,hu⟩ := Option.ite_none_right_eq_some.mp hu
      cases hu
      exact inv_await h hs ha hok
  | cease k ret hit =>
    obtain ⟨ha,hu⟩ := Option.ite_none_right_eq_some.mp hu
    cases hu
    exact inv_cease h ha hok
  | pop k queued ret =>
    obtain ⟨⟨ha,-,hq⟩,hu⟩ := Option.ite_none_right_eq_some.mp hu
    cases hu
    exact inv_pop h ha hq hok

end Steps

instance (s : Sys ι κ) : (a : Act ι κ) → Decidable (orderly s a)
  | .ele a => inferInstanceAs (Decidable (calm s.evp a))
  | .start c => inferInstanceAs (Decidable (s.evp.waits c=none))
  | .destroy c => inferInstanceAs (Decidable (s.evp.waits c=none))
  | .await _ => inferInstanceAs (Decidable (_ → _))
  | .cease k ret hit => inferInstanceAs (Decidable (0≤((s.evp.ele k).end ret hit).1 →
      if waitsFor s.evp k=true then (s.evp.ele k).kind=.ctc → hit=true else ∀ c∈ (s.evp.ele k).cop,s.frame c=.done))
  | .pop _ _ _ => inferInstanceAs (Decidable (_ → _ → _ → _ → _))
  | .create _ => .isTrue trivial
  | .suspend => .isTrue trivial
  | .finish => .isTrue trivial

/-- A coroutine waits for an operation that is over, and then for one that another coroutine ceases; it ends before the
loop has reaped that, and is destroyed afterwards. -/
def ceasing : List (Act (Fin 1) (Fin 2)) :=
  [.create 0,.start 0,.ele (.new 0 .usd),.ele (.add 0 false false dpeWait),.await 0,.pop 0 false 5,
    .ele (.add 0 false false dpeWait),.await 0,.create 1,.start 1,.cease 0 (-4) false,.finish,.finish,.pop 0 true (-4),.destroy 0]

/-- A coroutine whose wait has been ceased ends and is destroyed before the loop reaps the element. -/
def reaping : List (Act (Fin 1) (Fin 2)) :=
  [.create 0,.start 0,.ele (.new 0 .usd),.ele (.add 0 false false dpeWait),.await 0,.create 1,.start 1,.cease 0 (-4) false,
    .finish,.destroy 0,.finish,.pop 0 true (-4)]

end Dpapp.DpcppAwait
