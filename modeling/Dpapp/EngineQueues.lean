import Dpapp.Engine
import Dpapp.CtcMemory

/-! # Timer tree and ready deque -/

set_option linter.unusedSectionVars false

namespace Dpapp.EngineQueues
open Dpapp.Machine Dpapp.Ret Dpapp.EfdWake Dpapp.Engine
open Dpapp.CtcChannel (deqPushBack)

variable {κ : Type*} [LinearOrder κ]

/- An element that is doing is added again only while it is not in the ready deque and none of its own
preps runs; if its timer is armed the prep leaves it waiting. dpevp_end is not called on an EFD from
inside its own post function, and a prep that has ended its own element reports no error and does not
go on. A timer's callback does not both add the timer again and drop the last reference to it. -/
def tidy (s : Dpevp κ) : Act κ → Prop
  | .add k _ => dpeleIsDoing (s.ele k)=true → k∉s.ready ∧ .prep k∉s.stack
  | .end_ k _ => .wake k true∉s.stack ∧ .wake k false∉s.stack
  | .prepRet ret _ _ => match s.stack with
    | .prep k::_ => (k∈s.ready → dpretIsok ret) ∧ ((s.ele k).isTiming=true → ret=dpeContinue ∨ ret=dpeWait)
    | _ => True
  | .postRet _ _ => match s.stack with
    | .over k::_ => (s.ele k).refc=0 → dpeleIsDoing (s.ele k)=false
    | _ => True
  | _ => True

instance (s : Dpevp κ) : (a : Act κ) → Decidable (tidy s a)
  | .add _ _ => inferInstanceAs (Decidable (_ → _ ∧ _))
  | .end_ _ _ => inferInstanceAs (Decidable (_ ∧ _))
  | .prepRet _ _ _ => by unfold tidy; dsimp only; split <;> infer_instance
  | .postRet _ _ => by unfold tidy; dsimp only; split <;> infer_instance
  | .new _ _ _ _ _ _ | .ref _ | .setDetach _ _ | .setTimeout _ _ | .del _ | .dup _ _ _ | .cont | .harvest _ | .reapEfd
  | .reapUsd | .reapTmr _ => .isTrue trivial

/-! ### One element -/

/-- Where an element is, and how often. -/
structure View where
  timer : ℕ
  isTiming : Bool
  ready : ℕ
  kind : Kind
  want : Evts
  doing : Bool
  alive : Bool
  pending : Bool
  prep : ℕ
  wake : ℕ
  feed : ℕ
  free : ℕ

def view (s : Dpevp κ) (k : κ) : View where
  timer := s.timer.count k
  isTiming := (s.ele k).isTiming
  ready := s.ready.count k
  kind := (s.ele k).kind
  want := (s.ele k).efd.want
  doing := dpeleIsDoing (s.ele k)
  alive := s.alive k
  pending := s.pending k
  prep := s.stack.count (.prep k)
  wake := s.stack.count (.wake k true)
  feed := s.stack.count (.wake k false)
  free := s.dels.count (.free k)

structure Good (v : View) : Prop where
  timer : v.timer=if v.isTiming then 1 else 0
  ready : v.ready≤1
  doing : v.timer≠0 ∨ v.ready≠0 ∨ v.prep≠0 ∨ v.wake≠0 ∨ v.feed≠0 → v.doing=true
  apart : v.timer≠0 → v.ready=0
  pending : v.pending=true → v.ready=0
  want : v.want≠∅ → v.doing=true ∧ v.ready=0 ∧ v.kind=.efd
  alive : v.doing=true → v.alive=true ∧ v.free=0
  once : v.prep+v.wake+v.feed≤1
  wake : v.wake≠0 ∨ v.feed≠0 → v.ready=0 ∧ v.kind=.efd
  add : v.wake≠0 ∨ (v.prep≠0 ∧ v.kind≠.tmr) → v.timer=0
  prep : v.prep≠0 → v.want=∅

/-- Only element `k` may have changed. -/
def Others (s u : Dpevp κ) (k : κ) : Prop := ∀ j,j≠k → view u j=view s j

theorem Others.trans {s t u : Dpevp κ} {k : κ} (h : Others s t k) (h' : Others t u k) : Others s u k :=
  fun j hj => (h' j hj).trans (h j hj)

theorem Others.refl (s : Dpevp κ) (k : κ) : Others s s k := fun _ _ => rfl

section Ops
variable (s : Dpevp κ) (k : κ)

@[simp] theorem setEle_ele (e : Ele κ) : (s.setEle k e).ele=Function.update s.ele k e := rfl
@[simp] theorem setEle_timer (e : Ele κ) : (s.setEle k e).timer=s.timer := rfl
@[simp] theorem setEle_ready (e : Ele κ) : (s.setEle k e).ready=s.ready := rfl
@[simp] theorem setEle_alive (e : Ele κ) : (s.setEle k e).alive=s.alive := rfl
@[simp] theorem setEle_stack (e : Ele κ) : (s.setEle k e).stack=s.stack := rfl
@[simp] theorem setEle_dels (e : Ele κ) : (s.setEle k e).dels=s.dels := rfl
@[simp] theorem setEle_pending (e : Ele κ) : (s.setEle k e).pending=s.pending := rfl
@[simp] theorem setPending_ele (b : Bool) : (s.setPending k b).ele=s.ele := rfl
@[simp] theorem setPending_timer (b : Bool) : (s.setPending k b).timer=s.timer := rfl
@[simp] theorem setPending_ready (b : Bool) : (s.setPending k b).ready=s.ready := rfl
@[simp] theorem setPending_alive (b : Bool) : (s.setPending k b).alive=s.alive := rfl
@[simp] theorem setPending_stack (b : Bool) : (s.setPending k b).stack=s.stack := rfl
@[simp] theorem setPending_dels (b : Bool) : (s.setPending k b).dels=s.dels := rfl
@[simp] theorem setPending_pending (b : Bool) : (s.setPending k b).pending=Function.update s.pending k b := rfl

theorem view_setEle (e : Ele κ) : view (s.setEle k e) k={view s k with
    isTiming := e.isTiming, kind := e.kind, want := e.efd.want, doing := dpeleIsDoing e} := by
  simp [view]

theorem others_setEle (e : Ele κ) : Others s (s.setEle k e) k := fun j hj => by
  simp [view,Function.update_of_ne hj]

theorem view_setPending (b : Bool) : view (s.setPending k b) k={view s k with pending := b} := by simp [view]

theorem others_setPending (b : Bool) : Others s (s.setPending k b) k := fun j hj => by
  simp [view,Function.update_of_ne hj]

theorem count_rbInsert (ele : κ → Ele κ) (q : List κ) (j : κ) :
    (rbInsert ele k q).count j=q.count j+if j=k then 1 else 0 := by
  induction q with
  | nil =>
    by_cases h : j=k
    · subst h; simp [rbInsert]
    · simp [rbInsert,h,Ne.symm h]
  | cons a q ih =>
    simp only [rbInsert]
    split
    · by_cases h : j=k
      · subst h; simp
      · simp [h,Ne.symm h]
    · rw [List.count_cons,List.count_cons,ih]; omega

theorem count_deqPushBack (q : List κ) (j : κ) :
    (deqPushBack q k).count j=if j=k ∧ q.count k=0 then 1 else q.count j := by
  unfold deqPushBack
  by_cases hk : k∈q
  · have hc : q.count k≠0 := by simpa [List.count_eq_zero] using hk
    simp [hk,hc]
  · have hc : q.count k=0 := List.count_eq_zero.mpr hk
    by_cases h : j=k
    · subst h; simp [hk,hc]
    · simp [hk,h,hc,List.count_append,Ne.symm h]

theorem view_remove (ht : (view s k).timer=if (view s k).isTiming then 1 else 0) :
    view (dptmrsetRemove s k) k={view s k with timer := 0, isTiming := false} := by
  unfold dptmrsetRemove
  split
  · rename_i hi
    have hc : s.timer.count k=1 := by simpa [view,hi] using ht
    simp [view,hc,dpeleIsDoing]
  · rename_i hi
    have hc : s.timer.count k=0 := by simpa [view,hi] using ht
    simp [view,hc,hi]

theorem others_remove : Others s (dptmrsetRemove s k) k := fun j hj => by
  unfold dptmrsetRemove
  split
  · simp [view,Function.update_of_ne hj,List.count_erase_of_ne hj]
  · rfl

theorem view_upsert (now : ℤ) (ht : (view s k).timer=if (view s k).isTiming then 1 else 0) :
    view (dptmrsetUpsert s k now) k=view s k ∨
    view (dptmrsetUpsert s k now) k={view s k with timer := 1, isTiming := true} := by
  unfold dptmrsetUpsert
  split
  · exact .inl rfl
  · split
    · exact .inl rfl
    · cases hi : (s.ele k).isTiming with
      | true =>
        have hc : s.timer.count k=1 := by simpa [view,hi] using ht
        exact .inr (by simp [view,hi,hc,count_rbInsert,dpeleIsDoing])
      | false =>
        have hc : s.timer.count k=0 := by simpa [view,hi] using ht
        have hm : k∉s.timer := List.count_eq_zero.mp hc
        exact .inr (by simp [view,hi,hm,hc,count_rbInsert,dpeleIsDoing])

theorem others_upsert (now : ℤ) : Others s (dptmrsetUpsert s k now) k := fun j hj => by
  unfold dptmrsetUpsert
  split
  · rfl
  · split
    · rfl
    · cases hi : (s.ele k).isTiming with
      | true => simp [view,hi,count_rbInsert,hj,List.count_erase_of_ne hj]
      | false => by_cases hm : k∈s.timer <;> simp [view,hi,hm,count_rbInsert,hj]

theorem view_dpeleDel : view (dpeleDel s k) k={view s k with free := (view s k).free+1} := by
  have hu (l : List κ) : (l.map DelOp.unref).count (.free k)=0 := List.count_eq_zero.mpr (by simp)
  simp [view,dpeleDel,List.count_append,hu]

theorem others_dpeleDel : Others s (dpeleDel s k) k := fun j hj => by
  have hu (l : List κ) : (l.map DelOp.unref).count (.free j)=0 := List.count_eq_zero.mpr (by simp)
  simp [view,dpeleDel,List.count_append,hu,Ne.symm hj]

/-- The reference count, `ret` and the timeout are not in the view. -/
theorem view_plain {e : Ele κ} (h1 : e.isTiming=(s.ele k).isTiming) (h2 : e.kind=(s.ele k).kind)
    (h3 : e.efd.want=(s.ele k).efd.want) (h4 : e.asc=(s.ele k).asc) : view (s.setEle k e) k=view s k := by
  rw [view_setEle]
  simp [view,h1,h2,h3,h4,dpeleIsDoing]

theorem view_unref : view (unref s k) k=view s k ∨
    (view s k).doing=false ∧ view (unref s k) k={view s k with free := (view s k).free+1} := by
  simp only [unref]
  split
  · rename_i hc
    refine .inr ⟨?_,?_⟩
    · have := hc.2
      simp only [view,dpeleIsDoing]
      simpa [Option.isNone_iff_eq_none] using this
    · rw [view_dpeleDel,view_plain s k (by rfl) (by rfl) (by rfl) (by rfl)]
  · exact .inl (view_plain s k rfl rfl rfl rfl)

theorem others_unref : Others s (unref s k) k := by
  simp only [unref]
  split
  · exact (others_setEle s k _).trans (others_dpeleDel _ k)
  · exact others_setEle s k _

theorem view_ascEnd : view (ascEnd s k) k=view s k ∨
    (s.ele k).refc=0 ∧ view (ascEnd s k) k={view s k with free := (view s k).free+1} := by
  unfold ascEnd
  split
  · exact .inr ⟨‹_›,view_dpeleDel s k⟩
  · exact .inl rfl

theorem others_ascEnd : Others s (ascEnd s k) k := by
  unfold ascEnd
  split
  · exact others_dpeleDel s k
  · exact .refl s k

end Ops

/-! ### What an element's view may become -/

section Good
variable {v : View}

theorem Good.timing (hg : Good v) (ht : v.timer=0) : v.isTiming=false := by
  have := hg.timer
  rw [ht] at this
  by_contra hi
  simp [hi] at this

theorem Good.freed (hg : Good v) (hd : v.doing=false) (n : ℕ) : Good {v with free := n} := by
  refine ⟨hg.timer,hg.ready,hg.doing,hg.apart,hg.pending,hg.want,?_,hg.once,hg.wake,hg.add,hg.prep⟩
  intro h
  rw [hd] at h
  cases h

theorem Good.untimed (hg : Good v) : Good {v with timer := 0, isTiming := false} :=
  ⟨rfl,hg.ready,fun h => hg.doing (.inr (h.resolve_left (absurd rfl))),fun h => absurd rfl h,hg.pending,hg.want,hg.alive,
    hg.once,hg.wake,fun _ => rfl,hg.prep⟩

/-- Functions that have returned. -/
theorem Good.leave (hg : Good v) {p w f : ℕ} (hp : p≤v.prep) (hw : w≤v.wake) (hf : f≤v.feed) :
    Good {v with prep := p, wake := w, feed := f} := by
  have ho := hg.once
  refine ⟨hg.timer,hg.ready,fun h => ?_,hg.apart,hg.pending,hg.want,hg.alive,?_,fun h => ?_,fun h => ?_,fun h => ?_⟩
  · refine hg.doing ?_
    simp only at h
    omega
  · simp only; omega
  · refine hg.wake ?_
    simp only at h
    omega
  · refine hg.add ?_
    simp only at h
    obtain h | ⟨h,hk⟩ := h
    · exact .inl (by omega)
    · exact .inr ⟨by omega,hk⟩
  · refine hg.prep ?_
    simp only at h
    omega

/-- An operation that is over. -/
theorem Good.over (hg : Good v) (ht : v.timer=0) (hr : v.ready=0) (ho : v.prep=0 ∧ v.wake=0 ∧ v.feed=0) :
    Good {v with want := ∅, doing := false, pending := false} := by
  have hi := hg.timing ht
  constructor <;> simp [ht,hi,hr,ho]

/-- An operation that has completed at once. -/
theorem Good.queued (hg : Good v) (ht : v.timer=0) (hd : v.doing=true) (hn : v.want=∅) (ho : v.prep=0 ∧ v.wake=0 ∧ v.feed=0) :
    Good {v with ready := 1, pending := false} := by
  have hi := hg.timing ht
  have ha := hg.alive hd
  constructor <;> simp [ht,hi,hd,hn,ho,ha]

/-- An operation that is left pending. -/
theorem Good.pends (hg : Good v) (hr : v.ready=0) (hd : v.doing=true) (ho : v.prep=0 ∧ v.wake=0 ∧ v.feed=0) :
    Good {v with pending := true} ∧ Good {v with timer := 1, isTiming := true, pending := true} := by
  have ha : ¬(v.wake≠0 ∨ (v.prep≠0 ∧ v.kind≠.tmr)) := by simp [ho]
  refine ⟨⟨hg.timer,hg.ready,hg.doing,hg.apart,fun _ => hr,hg.want,hg.alive,hg.once,hg.wake,hg.add,hg.prep⟩,?_⟩
  exact ⟨rfl,hg.ready,fun _ => hd,fun _ => hr,fun _ => hr,hg.want,hg.alive,hg.once,hg.wake,fun h => (ha h).elim,hg.prep⟩

end Good

/-! ### Completion -/

def Sound (s : Dpevp κ) : Prop := ∀ k,Good (view s k)

section Sound
variable {s u : Dpevp κ} {k : κ}

theorem sound_of (hs : Sound s) (ho : Others s u k) (hk : Good (view u k)) : Sound u := fun j => by
  by_cases hj : j=k
  · subst hj; exact hk
  · rw [ho j hj]; exact hs j

/-- None of the element's functions is on the stack. -/
def outside (v : View) : Prop := v.prep=0 ∧ v.wake=0 ∧ v.feed=0

theorem sound_ascEnd (hs : Sound s) (hd : (s.ele k).refc=0 → (view s k).doing=false) : Sound (ascEnd s k) := by
  refine sound_of hs (others_ascEnd s k) ?_
  obtain h | ⟨hr,h⟩ := view_ascEnd s k
  · rw [h]; exact hs k
  · rw [h]; exact (hs k).freed (hd hr) _

theorem sound_ascOver (hs : Sound s) (ht : (view s k).timer=0) (hr : (view s k).ready=0) (ho : outside (view s k)) :
    Sound (dpeleAscOver s k) := by
  simp only [dpeleAscOver]
  set t := (s.setEle k {s.ele k with efd := {(s.ele k).efd with want := ∅}, asc := none}).setPending k false with htd
  have hv : view t k={view s k with want := ∅, doing := false, pending := false} := by
    rw [htd,view_setPending,view_setEle]
    simp [view,dpeleIsDoing]
  have hg := (hs k).over ht hr ho
  have hot : Others s t k := (others_setEle s k _).trans (others_setPending _ k _)
  have hst : Sound t := sound_of hs hot (by rw [hv]; exact hg)
  have hend : Sound (ascEnd t k) := sound_ascEnd hst (fun _ => by rw [hv])
  split
  · exact hend
  · split
    · intro j
      have hj := hst j
      have hov : view {t with stack := .over k::t.stack} j=view t j := by simp [view]
      rw [hov]
      exact hj
    · exact hend

theorem sound_remove (hs : Sound s) : Sound (dptmrsetRemove s k) := by
  refine sound_of hs (others_remove s k) ?_
  rw [view_remove s k (hs k).timer]
  exact (hs k).untimed

theorem view_queue (hr : (view s k).ready≤1) : view ({s with ready := deqPushBack s.ready k}.setPending k false) k=
    {view s k with ready := 1, pending := false} := by
  have h1 : (deqPushBack s.ready k).count k=1 := by
    rw [count_deqPushBack]
    split
    · rfl
    · rename_i h
      have hc : s.ready.count k=(view s k).ready := rfl
      have : s.ready.count k≠0 := fun h0 => h ⟨rfl,h0⟩
      omega
  simp [view,h1]

theorem sound_queue (hs : Sound s) (hg : Good {view s k with ready := 1, pending := false}) :
    Sound ({s with ready := deqPushBack s.ready k}.setPending k false) := by
  refine sound_of hs (k := k) (fun j hj => ?_) ?_
  · simp [view,count_deqPushBack,hj]
  · rw [view_queue (hs k).ready]; exact hg

/-- The element's plain fields are not in the view. -/
theorem sound_plain {e : Ele κ} (hs : Sound s) (h1 : e.isTiming=(s.ele k).isTiming) (h2 : e.kind=(s.ele k).kind)
    (h3 : e.efd.want=(s.ele k).efd.want) (h4 : e.asc=(s.ele k).asc) : Sound (s.setEle k e) := by
  refine sound_of hs (others_setEle s k e) ?_
  rw [view_plain s k h1 h2 h3 h4]
  exact hs k

theorem sound_feedEnd {r : Dpret} (hs : Sound s) (hr : (view s k).ready=0) (ho : outside (view s k)) :
    Sound (feedEnd s k r) := by
  unfold feedEnd
  split
  · exact sound_plain hs rfl rfl rfl rfl
  · have hv := view_plain s k (e := {s.ele k with ret := r}) rfl rfl rfl rfl
    have hst : Sound (s.setEle k {s.ele k with ret := r}) := sound_plain hs rfl rfl rfl rfl
    have hvr := view_remove _ k (hst k).timer
    refine sound_ascOver (sound_remove hst) ?_ ?_ ?_
    · rw [hvr]
    · rw [hvr,hv]; exact hr
    · rw [hvr,hv]; exact ho

theorem sound_addFinish {r : Dpret} {now : ℤ} (hs : Sound s) (hd : (view s k).doing=true) (ho : outside (view s k))
    (hr : ¬dpretIsok r → (view s k).ready=0) (ht : r≠dpeWait → (view s k).timer=0 ∧ (view s k).want=∅) :
    Sound (addFinish s k r now) := by
  unfold addFinish
  split
  · rename_i hok
    have hw : r≠dpeWait := fun h => by rw [h] at hok; revert hok; decide
    obtain ⟨ht,hn⟩ := ht hw
    have hv := view_plain s k (e := {s.ele k with ret := r}) rfl rfl rfl rfl
    refine sound_queue (s := s.setEle k {s.ele k with ret := r}) (sound_plain hs rfl rfl rfl rfl) ?_
    rw [hv]
    exact (hs k).queued ht hd hn ho
  · rename_i hok
    have hr := hr hok
    split
    · have hst : Sound (s.setEle k {s.ele k with ret := dpeInprogress}) := sound_plain hs rfl rfl rfl rfl
      have hv := view_plain s k (e := {s.ele k with ret := dpeInprogress}) rfl rfl rfl rfl
      refine sound_of hst (k := k) ((others_upsert _ k now).trans (others_setPending _ k true)) ?_
      have hp := (hs k).pends hr hd ho
      rw [view_setPending]
      obtain h | h := view_upsert _ k now (hst k).timer
      · rw [h,hv]; exact hp.1
      · rw [h,hv]; exact hp.2
    · rename_i hw
      obtain ⟨ht,hn⟩ := ht hw
      refine sound_of hs ((others_setEle s k _).trans (others_setPending _ k false)) ?_
      rw [view_setPending,view_setEle]
      have hg := (hs k).over ht hr ho
      rw [←hn] at hg
      exact hg

/-! ### The stack -/

theorem view_stack (st : List (Frame κ)) (j : κ) : view {s with stack := st} j={view s j with
    prep := st.count (.prep j), wake := st.count (.wake j true), feed := st.count (.wake j false)} := rfl

theorem sound_pop {fr : Frame κ} {st : List (Frame κ)} (hs : Sound s) (h : s.stack=fr::st) : Sound {s with stack := st} := by
  intro j
  rw [view_stack]
  refine (hs j).leave ?_ ?_ ?_ <;> simp only [view,h,List.count_cons] <;> omega

/-- Nothing else of the element is on the stack below one of its functions. -/
theorem pop_outside {fr : Frame κ} {st : List (Frame κ)} (hs : Sound s) (h : s.stack=fr::st)
    (hf : fr=.prep k ∨ ∃ add,fr=.wake k add) : outside (view {s with stack := st} k) := by
  have ho := (hs k).once
  rw [view_stack]
  obtain rfl | ⟨add,rfl⟩ := hf
  · simp only [view,h,List.count_cons] at ho
    simp at ho
    exact ⟨by simp only; omega,by simp only; omega,by simp only; omega⟩
  · cases add <;>
    · simp only [view,h,List.count_cons] at ho
      simp at ho
      exact ⟨by simp only; omega,by simp only; omega,by simp only; omega⟩

theorem stack_empty (h : s.stack=[]) (k : κ) : outside (view s k) := by simp [outside,view,h]

theorem sound_pushWake {add : Bool} (hs : Sound s) (ho : outside (view s k)) (hd : (view s k).doing=true)
    (hr : (view s k).ready=0) (hk : (view s k).kind=.efd) (ht : add=true → (view s k).timer=0) :
    Sound {s with stack := .wake k add::s.stack} := by
  intro j
  rw [view_stack]
  obtain ⟨h1,h2,h3⟩ := ho
  have hg := hs j
  by_cases hj : j=k
  · subst hj
    simp only [view] at h1 h2 h3
    refine ⟨hg.timer,hg.ready,fun _ => hd,hg.apart,hg.pending,hg.want,hg.alive,?_,fun _ => ⟨hr,hk⟩,fun h => ?_,fun h => ?_⟩
    · cases add <;> simp [h1,h2,h3]
    · cases add with
      | true => exact ht rfl
      | false => simp [h1,h2] at h
    · simp [h1] at h
  · have hc (fr : Frame κ) (hfr : fr≠.wake k add) : (.wake k add::s.stack).count fr=s.stack.count fr := by
      simp [Ne.symm hfr]
    rw [hc (.prep j) (by simp),hc (.wake j true) (by simp [hj]),hc (.wake j false) (by simp [hj])]
    exact hg

theorem sound_wakeTurn {add : Bool} {now : ℤ} {f : Efd} {w : Turn} (hs : Sound s) (ho : outside (view s k))
    (hd : (view s k).doing=true) (hr : (view s k).ready=0) (hk : (view s k).kind=.efd)
    (ht : add=true → (view s k).timer=0) (hw : ∀ r,w=.ret r → r≠dpeWait → f.want=∅) :
    Sound (wakeTurn s k add now (f,w)) := by
  have hv := view_setEle s k {s.ele k with efd := f}
  have hst : Sound (s.setEle k {s.ele k with efd := f}) := by
    refine sound_of hs (others_setEle s k _) ?_
    rw [hv]
    have hg := hs k
    exact ⟨hg.timer,hg.ready,hg.doing,hg.apart,hg.pending,fun _ => ⟨hd,hr,hk⟩,hg.alive,hg.once,hg.wake,hg.add,
      fun h => (h ho.1).elim⟩
  cases w with
  | post =>
    refine sound_pushWake hst ?_ ?_ ?_ ?_ ?_ <;> rw [hv]
    exacts [ho,hd,hr,hk,ht]
  | ret r =>
    simp only [wakeTurn]
    cases add with
    | true =>
      refine sound_addFinish hst ?_ ?_ ?_ ?_ <;> rw [hv]
      exacts [hd,ho,fun _ => hr,fun hne => ⟨ht rfl,hw r rfl hne⟩]
    | false =>
      refine sound_feedEnd hst ?_ ?_ <;> rw [hv]
      exacts [hr,ho]

end Sound

/-! ### Steps -/

section Steps
variable {s u : Dpevp κ} {k : κ}

theorem view_alive (hs : Sound s) (ha : s.alive k=false) : (view s k).doing=false := by
  cases hd : (view s k).doing with
  | false => rfl
  | true =>
    have h := ((hs k).alive hd).1
    have h' : s.alive k=true := h
    rw [ha] at h'
    cases h'

/-- An element with no operation is nowhere. -/
theorem Good.nowhere {v : View} (hg : Good v) (hd : v.doing=false) :
    v.timer=0 ∧ v.isTiming=false ∧ v.ready=0 ∧ outside v ∧ v.want=∅ := by
  have hn : ¬(v.timer≠0 ∨ v.ready≠0 ∨ v.prep≠0 ∨ v.wake≠0 ∨ v.feed≠0) := fun h => by
    have := hg.doing h
    rw [hd] at this
    cases this
  have ht : v.timer=0 := by omega
  refine ⟨ht,hg.timing ht,by omega,⟨by omega,by omega,by omega⟩,?_⟩
  by_contra hw
  have := (hg.want hw).1
  rw [hd] at this
  cases this

theorem sound_alloc {e : Ele κ} (reg : Bool) (hs : Sound s) (ha : s.alive k=false) (hd : e.asc=none)
    (hi : e.isTiming=false) (hw : e.efd.want=∅) : Sound (alloc s k e reg) ∧ (view (alloc s k e reg) k).doing=false := by
  obtain ⟨ht,-,hr,ho,-⟩ := (hs k).nowhere (view_alive hs ha)
  have hv : view (alloc s k e reg) k={view s k with
      isTiming := false, kind := e.kind, want := ∅, doing := false, alive := true, pending := false} := by
    simp [view,alloc,dpeleIsDoing,hd,hi,hw]
  refine ⟨sound_of hs (k := k) (fun j hj => ?_) ?_,?_⟩
  · simp [view,alloc,Function.update_of_ne hj]
  · rw [hv]
    obtain ⟨h1,h2,h3⟩ := ho
    constructor <;> simp [ht,hr,h1,h2,h3]
  · rw [hv]

theorem sound_del (hs : Sound s) (hd : (view s k).doing=false) : Sound (dpeleDel s k) := by
  refine sound_of hs (others_dpeleDel s k) ?_
  rw [view_dpeleDel]
  exact (hs k).freed hd _

theorem sound_unref (hs : Sound s) : Sound (unref s k) := by
  refine sound_of hs (others_unref s k) ?_
  obtain h | ⟨hd,h⟩ := view_unref s k
  · rw [h]; exact hs k
  · rw [h]; exact (hs k).freed hd _

theorem sound_add {asc : Asc} (hs : Sound s) (hok : tidy s (.add k asc)) (h : step s (.add k asc)=some u) : Sound u := by
  simp only [step] at h
  split at h
  · rename_i hown
    split at h
    · cases h; exact hs
    · rename_i hty
      split at h
      · cases h; exact hs
      · rename_i hdo
        cases h
        have hg := hs k
        have hfree : (view s k).free=0 := by simp [view,hown.1]
        -- an element that is doing is a timer whose operation allows it
        have hnow : (view s k).ready=0 ∧ outside (view s k) ∧ ((view s k).kind≠.tmr → (view s k).timer=0) ∧
            (view s k).want=∅ := by
          cases hd : dpeleIsDoing (s.ele k) with
          | false =>
            obtain ⟨ht,-,hr,ho,hn⟩ := hg.nowhere hd
            exact ⟨hr,ho,fun _ => ht,hn⟩
          | true =>
            have hallow : asc.allowDoing=true := by
              by_contra ha
              exact hdo ⟨hd,by simpa using ha⟩
            have hty' : asc.types (s.ele k).kind (s.ele k).aio=true := by simpa using hty
            have hk : (view s k).kind=.tmr := asc.allowTmr hallow _ _ hty'
            have hne : (view s k).kind≠.efd := by rw [hk]; simp
            obtain ⟨hr,hp⟩ := hok hd
            have hw : ¬((view s k).wake≠0 ∨ (view s k).feed≠0) := fun h => hne (hg.wake h).2
            refine ⟨List.count_eq_zero.mpr hr,⟨List.count_eq_zero.mpr hp,by omega,by omega⟩,fun h => (h hk).elim,?_⟩
            by_contra hwant
            exact hne (hg.want hwant).2.2
        obtain ⟨hr,⟨hp,hw,hf⟩,ht,hn⟩ := hnow
        refine sound_of hs (k := k) (fun j hj => ?_) ?_
        · simp [view,Function.update_of_ne hj,Ne.symm hj]
        · have hv : view {s.setEle k {s.ele k with asc := some asc} with stack := .prep k::s.stack} k=
              {view s k with doing := true, prep := (view s k).prep+1} := by simp [view,dpeleIsDoing]
          rw [hv]
          refine ⟨hg.timer,hg.ready,fun _ => rfl,hg.apart,hg.pending,?_,fun _ => ⟨hown.2.1,hfree⟩,?_,?_,?_,fun _ => hn⟩
          · exact fun h => (h hn).elim
          · simp only; omega
          · simp only [hw,hf]; simp
          · simp only [hw]; simpa using ht
  · cases h

theorem sound_prepRet {ret : Dpret} {out : AscOut} {now : ℤ} (hs : Sound s) (hok : tidy s (.prepRet ret out now))
    (h : step s (.prepRet ret out now)=some u) : Sound u := by
  simp only [step] at h
  split at h
  · rename_i k stack hst
    simp only [tidy,hst] at hok
    split at h
    · have hsp := sound_pop hs hst
      have ho := pop_outside hs hst (.inl rfl)
      have hg := hs k
      have hp : (view s k).prep≠0 := by simp [view,hst]
      have hd : (view {s with stack := stack} k).doing=true := hg.doing (by omega)
      have hn : (view {s with stack := stack} k).want=∅ := hg.prep hp
      have htime (hc : ret≠dpeContinue) (hw : ret≠dpeWait) : (view s k).timer=0 := by
        have hi : ¬(view s k).isTiming=true := fun hi => (hok.2 hi).elim hc hw
        rw [hg.timer,if_neg hi]
      have hready (hc : ¬dpretIsok ret) : (view s k).ready=0 :=
        List.count_eq_zero.mpr fun hm => hc (hok.1 hm)
      split at h
      · rename_i hc
        cases h
        exact sound_addFinish hsp hd ho hready fun hw => ⟨htime hc hw,hn⟩
      · rename_i hc
        have hcont : ret=dpeContinue := not_not.mp hc
        have hr : (view s k).ready=0 := hready (by rw [hcont]; decide)
        split at h
        · rename_i hk
          cases h
          have hk' : (view s k).kind=.efd := hk
          refine sound_wakeTurn hsp ho hd hr hk' (fun _ => hg.add (.inr ⟨hp,by rw [hk']; simp⟩)) ?_
          intro r hw hne
          exact ((dpefdWake_ret hw).2 hne).1
        · cases h
          exact sound_addFinish hsp hd ho (fun _ => hr) fun hne => (hne rfl).elim
    · cases h
  · cases h

theorem sound_end {ret : Dpret} (hs : Sound s) (hok : tidy s (.end_ k ret)) (h : step s (.end_ k ret)=some u) :
    Sound u := by
  simp only [step] at h
  split at h
  · split at h
    · rename_i hd
      cases h
      have hg := hs k
      have hst := sound_remove (k := k) hs
      set t := dptmrsetRemove s k with ht
      have hvt : view t k={view s k with timer := 0, isTiming := false} := view_remove s k hg.timer
      set f : Efd := if (t.ele k).kind=.efd then {(t.ele k).efd with want := ∅} else (t.ele k).efd with hf
      have hwant : f.want=∅ := by
        by_cases hk : (t.ele k).kind=.efd
        · simp [hf,hk]
        · rw [hf,if_neg hk]
          by_contra hne
          exact hk ((hst k).want hne).2.2
      have hv := view_setEle t k {t.ele k with efd := f, ret := ret}
      have hw1 : (view t k).wake=0 := by rw [hvt]; exact List.count_eq_zero.mpr hok.1
      have hw2 : (view t k).feed=0 := by rw [hvt]; exact List.count_eq_zero.mpr hok.2
      have ht0 : (view t k).timer=0 := by rw [hvt]
      have hi0 : (t.ele k).isTiming=false := (hst k).timing ht0
      have hd' : (view t k).doing=true := by rw [hvt]; exact hd
      have hgt : ∀ n b,n≤1 → (b=true → n=0) → Good {view (t.setEle k {t.ele k with efd := f, ret := ret}) k with
          ready := n, pending := b} := by
        intro n b hn hb
        rw [hv]
        refine ⟨?_,hn,fun _ => hd',fun h => (h ht0).elim,hb,fun h => (h hwant).elim,fun _ => (hst k).alive hd',(hst k).once,
          fun h => ?_,fun _ => ht0,fun _ => hwant⟩
        · simp only [ht0,hi0]
          simp
        · simp only [hw1,hw2] at h
          simp at h
      have hse : Sound (t.setEle k {t.ele k with efd := f, ret := ret}) := by
        refine sound_of hst (others_setEle t k _) ?_
        have h := hgt (view t k).ready (view t k).pending (hst k).ready (hst k).pending
        rw [hv] at h ⊢
        exact h
      exact sound_queue hse (hgt 1 false le_rfl (fun h => by cases h))
    · cases h; exact hs
  · cases h

theorem sound_postRet {p : PostRet} {now : ℤ} (hs : Sound s) (hok : tidy s (.postRet p now))
    (h : step s (.postRet p now)=some u) : Sound u := by
  simp only [step] at h
  split at h
  · rename_i k add stack hst
    split at h
    · cases h
      have hg := hs k
      have hw : (view s k).wake≠0 ∨ (view s k).feed≠0 := by cases add <;> simp [view,hst]
      have hd : (view s k).doing=true := hg.doing (by omega)
      have hr : (view s k).ready=0 := (hg.wake hw).1
      have hk : (view s k).kind=.efd := (hg.wake hw).2
      have ht : add=true → (view s k).timer=0 := fun ha => hg.add (.inl (by simp [view,hst,ha]))
      refine sound_wakeTurn (sound_pop hs hst) (pop_outside hs hst (.inr ⟨add,rfl⟩)) hd hr hk ht ?_
      exact fun r hw hne => (dpefdPosted_ret hw).2.2 hne
    · cases h
  · rename_i k stack hst
    simp only [tidy,hst] at hok
    split at h
    · cases h
      refine sound_ascEnd (sound_plain (sound_pop hs hst) rfl rfl rfl rfl) fun hr => ?_
      simp only [setEle_ele,Function.update_self] at hr
      simpa [view,dpeleIsDoing] using hok hr
    · cases h
  · cases h

theorem sound_cont (hs : Sound s) (h : step s .cont=some u) : Sound u := by
  simp only [step] at h
  split at h
  · rename_i k dels hdel
    cases h
    refine sound_unref fun j => ?_
    have hv : view {s with dels := dels} j=view s j := by simp [view,hdel]
    rw [hv]; exact hs j
  · rename_i k dels hdel
    cases h
    have hg := hs k
    have hd : (view s k).doing=false := by
      cases hd : (view s k).doing with
      | false => rfl
      | true =>
        have := (hg.alive hd).2
        simp [view,hdel] at this
    have hd' : dpeleIsDoing (s.ele k)=false := hd
    refine sound_of hs (k := k) (fun j hj => ?_) ?_
    · simp [view,Function.update_of_ne hj,hdel,Ne.symm hj]
    · have hv : view {s with dels := dels, alive := Function.update s.alive k false} k=
          {view s k with alive := false, free := dels.count (.free k)} := by simp [view]
      rw [hv]
      refine ⟨hg.timer,hg.ready,hg.doing,hg.apart,hg.pending,hg.want,fun h => ?_,hg.once,hg.wake,hg.add,hg.prep⟩
      rw [hd] at h
      cases h
  · cases h

theorem sound_reapEfd (hs : Sound s) (h : step s .reapEfd=some u) : Sound u := by
  simp only [step] at h
  split at h
  · rename_i en evs hev
    split at h
    · rename_i hpop
      set k := en.key with hkey
      set e : Ele κ := {s.ele k with efd := {(s.ele k).efd with able := (s.ele k).efd.able∪en.evt.bits}} with he
      set t := {s.setEle k e with evs := evs, fed := s.fed++[en], stray := s.stray || !s.alive k} with ht
      have hst : Sound t := sound_plain (e := e) hs rfl rfl rfl rfl
      have hv : view t k=view s k := view_plain s k (e := e) rfl rfl rfl rfl
      split at h
      · obtain rfl := Option.some.inj h
        exact hst
      · rename_i hc
        obtain rfl := Option.some.inj h
        have hw : (view s k).want≠∅ := fun hw => hc (.inl hw)
        obtain ⟨hd,hr,hk⟩ := (hs k).want hw
        refine sound_wakeTurn hst ?_ ?_ ?_ ?_ (fun h => by cases h) fun r hw hne => ((dpefdWake_ret hw).2 hne).1
        · exact stack_empty hpop.2 k
        · rw [hv]; exact hd
        · rw [hv]; exact hr
        · rw [hv]; exact hk
    · cases h
  · cases h

theorem sound_reapUsd (hs : Sound s) (h : step s .reapUsd=some u) : Sound u := by
  simp only [step] at h
  split at h
  · rename_i k ready hre
    split at h
    · rename_i hpop
      cases h
      have hg := hs k
      have hr : (view s k).ready=ready.count k+1 := by simp [view,hre]
      have hle := hg.ready
      have ht : (view s k).timer=0 := by
        by_contra hne
        have := hg.apart hne
        omega
      have hv : view {s with ready := ready} k={view s k with ready := 0} := by
        have : ready.count k=0 := by omega
        simp [view,this]
      refine sound_ascOver (sound_of hs (k := k) (fun j hj => ?_) ?_) ?_ ?_ (stack_empty hpop.1.2 k)
      · simp [view,hre,Ne.symm hj]
      · rw [hv]
        refine ⟨hg.timer,by simp,fun h => hg.doing ?_,fun _ => rfl,fun _ => rfl,fun h => ?_,hg.alive,hg.once,fun h => ?_,
          hg.add,hg.prep⟩
        · simp only at h; omega
        · have := hg.want h
          exact ⟨this.1,rfl,this.2.2⟩
        · exact ⟨rfl,(hg.wake h).2⟩
      · rw [hv]; exact ht
      · rw [hv]
    · cases h
  · cases h

theorem sound_reapTmr {now : ℤ} (hs : Sound s) (h : step s (.reapTmr now)=some u) : Sound u := by
  simp only [step] at h
  split at h
  · rename_i k timer hti
    split at h
    · rename_i hpop
      cases h
      have hg := hs k
      have hc : (view s k).timer=timer.count k+1 := by simp [view,hti]
      have h1 : timer.count k=0 := by
        have := hg.timer
        split at this <;> omega
      have hr : (view s k).ready=0 := hg.apart (by omega)
      have hv : view ({s with timer := timer}.setEle k {s.ele k with isTiming := false, ret := dpeTime}) k=
          {view s k with timer := 0, isTiming := false} := by
        rw [view_setEle]
        simp [view,h1,dpeleIsDoing]
      refine sound_ascOver (sound_of hs (k := k) (fun j hj => ?_) ?_) ?_ ?_ (stack_empty hpop.1.2 k)
      · simp [view,hti,Ne.symm hj,Function.update_of_ne hj]
      · rw [hv]; exact hg.untimed
      · rw [hv]
      · rw [hv]; exact hr
    · cases h
  · cases h

theorem sound_step {a : Act κ} (hs : Sound s) (hok : tidy s a) (h : step s a=some u) : Sound u := by
  cases a with
  | new k kind aio fd lower ok =>
    simp only [step] at h
    split at h
    · rename_i hc
      split at h
      · cases h
        exact (sound_alloc _ hs hc.2 rfl rfl rfl).1
      · cases h
        obtain ⟨hst,hd⟩ := sound_alloc false
          (e := {kind := kind, aio := aio, fd := kind≠.efd || fd, refc := 1, lower := lower}) hs hc.2 rfl rfl rfl
        exact sound_del hst hd
    · cases h
  | ref k | setTimeout k sec =>
    simp only [step] at h
    split at h <;> cases h
    exact sound_plain hs rfl rfl rfl rfl
  | setDetach k b =>
    simp only [step] at h
    split at h
    · split at h <;> cases h
      · exact hs
      · exact sound_plain hs rfl rfl rfl rfl
    · cases h
  | add k asc => exact sound_add hs hok h
  | prepRet ret out now => exact sound_prepRet hs hok h
  | end_ k ret => exact sound_end hs hok h
  | del k =>
    obtain ⟨-,rfl⟩ := step_del h
    exact sound_unref hs
  | dup k j ok =>
    simp only [step] at h
    split at h
    · rename_i hc
      split at h
      · cases h; exact hs
      · split at h
        · split at h
          · cases h
            exact (sound_alloc (k := j) true hs hc.2 rfl rfl rfl).1
          · cases h; exact hs
        · cases h
          exact (sound_alloc _ hs hc.2 rfl rfl rfl).1
    · cases h
  | postRet p now => exact sound_postRet hs hok h
  | cont => exact sound_cont hs h
  | harvest evs =>
    simp only [step] at h
    split at h <;> cases h
    exact hs
  | reapEfd => exact sound_reapEfd hs h
  | reapUsd => exact sound_reapUsd hs h
  | reapTmr now => exact sound_reapTmr hs h

theorem sound_start : Sound ({} : Dpevp κ) := fun k => by constructor <;> simp [view,dpeleIsDoing]

theorem sound_run (h : Reach step tidy {} s) : Sound s :=
  h.invariant sound_start fun _ _ _ hs hok ht => sound_step hs hok ht

end Steps

/-! ### The engine's own elements and the CTCs -/

variable {ι γ : Type*} [DecidableEq ι] [DecidableEq γ]

/-- The elements of one engine, and the CTCs of all. -/
structure Node (κ ι γ : Type*) where
  evp : Dpevp κ := {}
  ctc : CtcEngine.Sys ι γ := {}

abbrev NodeAct (κ ι γ : Type*) := Act κ ⊕ CtcEngine.Act ι γ

def nodeStep (n : Node κ ι γ) : NodeAct κ ι γ → Option (Node κ ι γ)
  | .inl a => (step n.evp a).map fun s => {n with evp := s}
  | .inr a => (CtcEngine.step n.ctc a).map fun s => {n with ctc := s}

def nodeTidy (n : Node κ ι γ) : NodeAct κ ι γ → Prop
  | .inl a => tidy n.evp a
  | .inr a => ∀ k,CtcEngine.okFor CtcMemory.ordered k n.ctc a

/-- Where an element may be. -/
structure Consistent (n : Node κ ι γ) : Prop where
  timing : ∀ k,k∈n.evp.timer ↔ (n.evp.ele k).isTiming=true
  timer : n.evp.timer.Nodup
  ready : n.evp.ready.Nodup
  pending : ∀ k,n.evp.pending k=true → k∉n.evp.ready
  alive : ∀ k,k∈n.evp.timer ∨ k∈n.evp.ready → n.evp.alive k=true
  ctcOnce : ∀ loc,(n.ctc.queue loc).Nodup
  ctcOne : ∀ k loc loc',k∈n.ctc.queue loc → k∈n.ctc.queue loc' → loc=loc'
  ctcReady : ∀ k t,k∉n.ctc.queue (.ready t)
  ctcAlive : ∀ k loc,k∈n.ctc.queue loc → (n.ctc.hist k).born=true ∧ (n.ctc.hist k).frees=0

theorem nodeTidy_runs {n : Node κ ι γ} (h : Reach nodeStep nodeTidy {} n) :
    Reach step tidy {} n.evp ∧
    Reach CtcEngine.step (fun s a => ∀ k,CtcEngine.okFor CtcMemory.ordered k s a) {} n.ctc := by
  induction h with
  | refl => exact ⟨.refl,.refl⟩
  | @tail m u a _ hok hu ih =>
    cases a with
    | inl a =>
      obtain ⟨s,hs,rfl⟩ := Option.map_eq_some_iff.mp hu
      exact ⟨.tail ih.1 hok hs,ih.2⟩
    | inr a =>
      obtain ⟨s,hs,rfl⟩ := Option.map_eq_some_iff.mp hu
      exact ⟨ih.1,.tail ih.2 hok hs⟩

theorem engine_queues {n : Node κ ι γ} (h : Reach nodeStep nodeTidy {} n) : Consistent n := by
  obtain ⟨he,hc⟩ := nodeTidy_runs h
  have hs := sound_run he
  have htime (k : κ) : n.evp.timer.count k=if (n.evp.ele k).isTiming then 1 else 0 := (hs k).timer
  have hplace (k : γ) := (CtcMemory.sound_run hc k).1
  refine ⟨fun k => ?_,?_,?_,fun k hp => ?_,fun k hk => ?_,fun loc => ?_,fun k loc loc' h1 h2 => ?_,
    fun k t => CtcMemory.ready_run hc k t,fun k loc hk => ?_⟩
  · rw [←List.count_pos_iff,htime]
    cases (n.evp.ele k).isTiming <;> simp
  · refine List.nodup_iff_count_le_one.mpr fun k => ?_
    rw [htime]
    split <;> omega
  · exact List.nodup_iff_count_le_one.mpr fun k => (hs k).ready
  · exact List.count_eq_zero.mp ((hs k).pending hp)
  · refine ((hs k).alive ((hs k).doing ?_)).1
    obtain hk | hk := hk
    · exact .inl (Nat.ne_of_gt (List.count_pos_iff.mpr hk))
    · exact .inr (.inl (Nat.ne_of_gt (List.count_pos_iff.mpr hk)))
  · refine List.nodup_iff_count_le_one.mpr fun k => ?_
    rw [(hplace k).count]
    split <;> omega
  · have hin (loc : CtcLife.Loc ι) (h : k∈n.ctc.queue loc) : (n.ctc.hist k).place=.queued loc := by
      by_contra hne
      have := (hplace k).count loc
      rw [if_neg hne] at this
      exact List.count_eq_zero.mp this h
    have := (hin loc h1).symm.trans (hin loc' h2)
    cases this
    rfl
  · have hne : (n.ctc.hist k).place≠.idle := fun hi => by
      have := (hplace k).count loc
      rw [hi] at this
      exact List.count_eq_zero.mp (by simpa using this) hk
    obtain ⟨hf,ha⟩ := CtcMemory.sound_frees (CtcMemory.sound_run hc k).2 hne
    exact ⟨CtcMemory.alive_born ha hne,hf⟩

theorem tmr_kind {kind : Kind} (h : decide (kind=.tmr)=true) : kind=.tmr := of_decide_eq_true h

/-- dptmr_timeout -/
def dptmrTimeout : Asc :=
  ⟨fun kind _ => decide (kind=.tmr),true,false,fun _ _ _ => tmr_kind⟩

instance (n : Node κ ι γ) [Fintype γ] : (a : NodeAct κ ι γ) → Decidable (nodeTidy n a)
  | .inl a => inferInstanceAs (Decidable (tidy n.evp a))
  | .inr a => inferInstanceAs (Decidable (∀ k,CtcEngine.okFor CtcMemory.ordered k n.ctc a))

/-- A timer is added, added again, and expires; meanwhile a CTC is submitted. -/
def twoTimeouts : List (NodeAct (Fin 1) (Fin 1) Unit) :=
  [.inl (.new 0 .tmr false false [] true),.inl (.setTimeout 0 1000),.inl (.add 0 dptmrTimeout),
    .inl (.prepRet dpeContinue {} 0),.inr (.new none ()),.inr (.add none () CtcLife.dpctcSubmit (some 0) false),
    .inl (.add 0 dptmrTimeout),.inl (.prepRet dpeContinue {} 500)]

theorem engine_queues_again : ∃ n : Node (Fin 1) (Fin 1) Unit,
    Reach nodeStep nodeTidy {} n ∧ n.evp.timer=[0] ∧ n.evp.pending 0=true ∧ Consistent n := by
  have hrun : (execOk nodeStep nodeTidy {} twoTimeouts).any
      (fun n => n.evp.timer=[0] && n.evp.pending 0)=true := by decide +kernel
  obtain ⟨n,hn,hf⟩ := (Option.any_eq_true _ _).mp hrun
  simp only [Bool.and_eq_true,decide_eq_true_eq] at hf
  exact ⟨n,execOk_reach hn,hf.1,hf.2,engine_queues (execOk_reach hn)⟩

/-- A timer that dpevp_end has just queued is added again. -/
def endedAgain : List (NodeAct (Fin 1) (Fin 1) Unit) :=
  [.inl (.new 0 .tmr false false [] true),.inl (.setTimeout 0 1000),.inl (.add 0 dptmrTimeout),
    .inl (.prepRet dpeContinue {} 0),.inl (.end_ 0 (-1)),.inl (.add 0 dptmrTimeout),.inl (.prepRet dpeContinue {} 1)]

theorem engine_queues_ended : ¬∀ n : Node (Fin 1) (Fin 1) Unit,Reach nodeStep anyStep {} n → Consistent n := by
  intro h
  have hrun : (exec nodeStep {} endedAgain).any (fun n => n.evp.ready=[0] && n.evp.pending 0)=true := by decide +kernel
  obtain ⟨n,hn,hf⟩ := (Option.any_eq_true _ _).mp hrun
  simp only [Bool.and_eq_true,decide_eq_true_eq] at hf
  have hout := (h n (exec_reach hn)).pending 0 hf.2
  rw [hf.1] at hout
  simp at hout

end Dpapp.EngineQueues
