import Dpapp.EngineQueues

/-! # What one step of the engine leaves alone -/

set_option linter.unusedSectionVars false

namespace Dpapp.EngineFrame
open Dpapp.Ret Dpapp.EfdWake Dpapp.Engine
open Dpapp.CtcChannel (deqPushBack)
open Dpapp.EngineQueues (count_rbInsert count_deqPushBack)

variable {κ : Type*} [LinearOrder κ]

/-- The calls that are inside a prep or post function of the element. -/
def frames (s : Dpevp κ) (k : κ) : List (Frame κ) := s.stack.filter (·.key=k)

/-- Nothing happens to the element. -/
structure Apart (s t : Dpevp κ) (k : κ) : Prop where
  ele : t.ele k=s.ele k
  timer : t.timer.count k=s.timer.count k
  ready : t.ready.count k=s.ready.count k
  frames : frames t k=frames s k

/-- The element that a step is about. -/
def subject (s : Dpevp κ) : Act κ → Option κ
  | .new k .. | .ref k | .setDetach k _ | .setTimeout k _ | .add k _ | .end_ k _ | .del k | .dup _ k _ => some k
  | .prepRet .. | .postRet .. => s.stack.head?.map Frame.key
  | .cont => s.dels.head?.bind fun
      | .unref k => some k
      | .free _ => none
  | .harvest _ => none
  | .reapEfd => s.evs.head?.map Entry.key
  | .reapUsd => s.ready.head?
  | .reapTmr _ => s.timer.head?

/-- `_dpele_asc_over` has come to its end for this element. -/
def overDone (s t : Dpevp κ) : Act κ → Option κ
  | .reapUsd => if t.stack=[] then s.ready.head? else none
  | .reapTmr _ => if t.stack=[] then s.timer.head? else none
  | .reapEfd => s.evs.head?.bind fun en =>
      if dpeleIsDoing (s.ele en.key)=true ∧ dpeleIsDoing (t.ele en.key)=false then some en.key else none
  | .postRet _ _ =>
      match s.stack with
      | .over k::_ => some k
      | .wake k false::_ => if dpeleIsDoing (t.ele k)=false then some k else none
      | _ => none
  | _ => none

/-- The engine has nothing more to do with the element. -/
structure Settled (s : Dpevp κ) (k : κ) : Prop where
  asc : (s.ele k).asc=none
  timer : k∉s.timer
  ready : k∉s.ready
  frames : frames s k=[]

/-- No wait begins, and neither is_detach nor a reference comes back. -/
structure Calm (s t : Dpevp κ) (k : κ) : Prop where
  kind : (t.ele k).kind=(s.ele k).kind
  asc : (t.ele k).asc=(s.ele k).asc ∨ (t.ele k).asc=none
  refc : (s.ele k).refc=0 → (t.ele k).refc=0
  detach : (t.ele k).isDetach=(s.ele k).isDetach

/-- Nothing begins, and what is settled stays so. -/
structure Tame (s t : Dpevp κ) (k : κ) : Prop extends Calm s t k where
  settled : Settled s k → Settled t k

/-- A fini deletes the references that its element has. -/
def hasRef (s : Dpevp κ) : Act κ → Bool
  | .cont => s.dels.head?.all fun
      | .unref k => decide (0<(s.ele k).refc)
      | .free _ => true
  | _ => true

/-- A step that may give the element a new wait, a new life or a new is_detach. -/
def begins (k : κ) : Act κ → Prop
  | .new j .. | .dup _ j _ | .setDetach j _ | .add j _ => j=k
  | _ => False

section Calls
variable {s t u : Dpevp κ} {j k : κ}

theorem Apart.refl (s : Dpevp κ) (k : κ) : Apart s s k := ⟨rfl,rfl,rfl,rfl⟩

theorem Apart.trans (h : Apart s t k) (h' : Apart t u k) : Apart s u k :=
  ⟨h'.ele.trans h.ele,h'.timer.trans h.timer,h'.ready.trans h.ready,h'.frames.trans h.frames⟩

theorem apart_setEle (e : Ele κ) (hjk : k≠j) : Apart s (s.setEle j e) k :=
  ⟨by simp [Dpevp.setEle,hjk],rfl,rfl,rfl⟩

theorem apart_setPending {b : Bool} : Apart s (s.setPending j b) k := ⟨rfl,rfl,rfl,rfl⟩

theorem apart_pushReady (hjk : k≠j) : Apart s {s with ready := deqPushBack s.ready j} k :=
  ⟨rfl,rfl,(count_deqPushBack ..).trans (by simp [hjk]),rfl⟩

theorem apart_pushStack {fr : Frame κ} (hk : k≠fr.key) : Apart s {s with stack := fr::s.stack} k :=
  ⟨rfl,rfl,rfl,List.filter_cons_of_neg (by simpa using hk.symm)⟩

theorem apart_pop {fr : Frame κ} {stack : List (Frame κ)} (h : s.stack=fr::stack) (hk : k≠fr.key) :
    Apart s {s with stack := stack} k := by
  refine ⟨rfl,rfl,rfl,?_⟩
  rw [frames,frames,h]
  exact (List.filter_cons_of_neg (by simpa using hk.symm)).symm

theorem apart_remove (hjk : k≠j) : Apart s (dptmrsetRemove s j) k := by
  unfold dptmrsetRemove
  split
  · exact ⟨by simp [Dpevp.setEle,hjk],List.count_erase_of_ne hjk,rfl,rfl⟩
  · exact .refl s k

theorem apart_upsert (now : ℤ) (hjk : k≠j) : Apart s (dptmrsetUpsert s j now) k := by
  unfold dptmrsetUpsert
  split
  · exact .refl s k
  · split
    · exact .refl s k
    · simp only
      split
      · refine ⟨by simp [Dpevp.setEle,hjk],?_,rfl,rfl⟩
        exact (count_rbInsert ..).trans (by simp [Dpevp.setEle,hjk])
      · split
        · exact apart_setEle _ hjk
        · exact ⟨by simp [Dpevp.setEle,hjk],(count_rbInsert ..).trans (by simp [Dpevp.setEle,hjk]),rfl,rfl⟩

theorem apart_dpeleDel : Apart s (dpeleDel s j) k := ⟨rfl,rfl,rfl,rfl⟩

theorem apart_ascEnd : Apart s (ascEnd s j) k := by
  unfold ascEnd
  split
  · exact apart_dpeleDel
  · exact .refl s k

theorem apart_ascOver (hjk : k≠j) : Apart s (dpeleAscOver s j) k := by
  have hset : Apart s ((s.setEle j {s.ele j with efd := {(s.ele j).efd with want := ∅}, asc := none}).setPending j false) k :=
    (apart_setEle _ hjk).trans apart_setPending
  unfold dpeleAscOver
  simp only
  split
  · exact hset.trans apart_ascEnd
  · split
    · exact hset.trans (apart_pushStack hjk)
    · exact hset.trans apart_ascEnd

theorem apart_feedEnd {r : Dpret} (hjk : k≠j) : Apart s (feedEnd s j r) k := by
  unfold feedEnd
  split
  · exact apart_setEle _ hjk
  · exact ((apart_setEle _ hjk).trans (apart_remove hjk)).trans (apart_ascOver hjk)

theorem apart_addFinish {r : Dpret} {now : ℤ} (hjk : k≠j) : Apart s (addFinish s j r now) k := by
  unfold addFinish
  split
  · exact ((apart_setEle _ hjk).trans (apart_pushReady hjk)).trans apart_setPending
  · split
    · exact ((apart_setEle _ hjk).trans (apart_upsert now hjk)).trans apart_setPending
    · exact (apart_setEle _ hjk).trans apart_setPending

theorem apart_wakeTurn {add : Bool} {now : ℤ} {w : Efd × Turn} (hjk : k≠j) : Apart s (wakeTurn s j add now w) k := by
  unfold wakeTurn
  split
  · exact (apart_setEle _ hjk).trans (apart_pushStack hjk)
  · simp only
    split
    · exact (apart_setEle _ hjk).trans (apart_addFinish hjk)
    · exact (apart_setEle _ hjk).trans (apart_feedEnd hjk)

theorem apart_unref (hjk : k≠j) : Apart s (unref s j) k := by
  unfold unref
  simp only
  split
  · exact (apart_setEle _ hjk).trans apart_dpeleDel
  · exact apart_setEle _ hjk

theorem apart_alloc {e : Ele κ} {reg : Bool} (hjk : k≠j) : Apart s (alloc s j e reg) k :=
  ⟨by simp [alloc,hjk],rfl,rfl,rfl⟩

/-! ### One step -/

theorem apart_reapEfd (h : step s .reapEfd=some t) (hk : subject s .reapEfd≠some k) : Apart s t k := by
  simp only [step] at h
  split at h
  · rename_i en evs hevs
    have hjk : k≠en.key := fun hjk => hk (by simp [subject,hevs,hjk])
    have hset : ∀ (e : Ele κ) (fed : List (Entry κ)) (stray : Bool),
        Apart s {s.setEle en.key e with evs := evs, fed := fed, stray := stray} k :=
      fun e _ _ => ⟨(apart_setEle e hjk).ele,rfl,rfl,rfl⟩
    split at h
    · split at h <;> cases h
      · exact hset ..
      · exact (hset ..).trans (apart_wakeTurn hjk)
    · cases h
  · cases h

theorem apart_prepRet {ret : Dpret} {out : AscOut} {now : ℤ} (h : step s (.prepRet ret out now)=some t)
    (hk : subject s (.prepRet ret out now)≠some k) : Apart s t k := by
  simp only [step] at h
  split at h
  · rename_i j stack hstack
    have hjk : k≠j := fun hjk => hk (by simp [subject,hstack,hjk,Frame.key])
    have hpop := apart_pop hstack hjk
    split at h
    · split at h
      · cases h
        exact hpop.trans (apart_addFinish hjk)
      · split at h <;> cases h
        · exact hpop.trans (apart_wakeTurn hjk)
        · exact hpop.trans (apart_addFinish hjk)
    · cases h
  · cases h

theorem apart_postRet {p : PostRet} {now : ℤ} (h : step s (.postRet p now)=some t)
    (hk : subject s (.postRet p now)≠some k) : Apart s t k := by
  simp only [step] at h
  split at h
  · rename_i j add stack hstack
    have hjk : k≠j := fun hjk => hk (by simp [subject,hstack,hjk,Frame.key])
    split at h <;> cases h
    exact (apart_pop hstack hjk).trans (apart_wakeTurn hjk)
  · rename_i j stack hstack
    have hjk : k≠j := fun hjk => hk (by simp [subject,hstack,hjk,Frame.key])
    split at h <;> cases h
    exact ((apart_pop hstack hjk).trans (apart_setEle _ hjk)).trans apart_ascEnd
  · cases h

theorem apart_reapUsd (h : step s .reapUsd=some t) (hk : subject s .reapUsd≠some k) : Apart s t k := by
  simp only [step] at h
  split at h
  · rename_i j ready hready
    have hjk : k≠j := fun hjk => hk (by simp [subject,hready,hjk])
    have hpop : Apart s {s with ready := ready} k := ⟨rfl,rfl,by simp [hready,hjk.symm],rfl⟩
    split at h <;> cases h
    exact hpop.trans (apart_ascOver hjk)
  · cases h

theorem apart_reapTmr {now : ℤ} (h : step s (.reapTmr now)=some t) (hk : subject s (.reapTmr now)≠some k) :
    Apart s t k := by
  simp only [step] at h
  split at h
  · rename_i j timer htimer
    have hjk : k≠j := fun hjk => hk (by simp [subject,htimer,hjk])
    have hpop : Apart s {s with timer := timer} k := ⟨rfl,by simp [htimer,hjk.symm],rfl,rfl⟩
    split at h <;> cases h
    exact (hpop.trans (apart_setEle _ hjk)).trans (apart_ascOver hjk)
  · cases h

/-- A step leaves every element alone but the one it is about. -/
theorem step_apart {a : Act κ} (h : step s a=some t) (hk : subject s a≠some k) : Apart s t k := by
  cases a with
  | new j kind aio fd lower ok =>
    have hjk : k≠j := fun hjk => hk (congrArg some hjk.symm)
    simp only [step] at h
    split at h
    · split at h <;> cases h
      · exact apart_alloc hjk
      · exact (apart_alloc hjk).trans apart_dpeleDel
    · cases h
  | ref j =>
    have hjk : k≠j := fun hjk => hk (congrArg some hjk.symm)
    simp only [step] at h
    split at h <;> cases h
    exact apart_setEle _ hjk
  | setDetach j b =>
    have hjk : k≠j := fun hjk => hk (congrArg some hjk.symm)
    simp only [step] at h
    split at h
    · split at h <;> cases h
      · exact .refl s k
      · exact apart_setEle _ hjk
    · cases h
  | setTimeout j sec =>
    have hjk : k≠j := fun hjk => hk (congrArg some hjk.symm)
    simp only [step] at h
    split at h <;> cases h
    exact apart_setEle _ hjk
  | add j asc =>
    have hjk : k≠j := fun hjk => hk (congrArg some hjk.symm)
    simp only [step] at h
    split at h
    · split at h
      · cases h
        exact .refl s k
      · split at h <;> cases h
        · exact .refl s k
        · exact (apart_setEle _ hjk).trans (apart_pushStack hjk)
    · cases h
  | prepRet ret out now => exact apart_prepRet h hk
  | end_ j ret =>
    have hjk : k≠j := fun hjk => hk (congrArg some hjk.symm)
    simp only [step] at h
    split at h
    · split at h <;> cases h
      · exact (((apart_remove hjk).trans (apart_setEle _ hjk)).trans (apart_pushReady hjk)).trans apart_setPending
      · exact .refl s k
    · cases h
  | del j =>
    have hjk : k≠j := fun hjk => hk (congrArg some hjk.symm)
    simp only [step] at h
    split at h <;> cases h
    exact apart_unref hjk
  | dup i j ok =>
    have hjk : k≠j := fun hjk => hk (congrArg some hjk.symm)
    simp only [step] at h
    split at h
    · split at h
      · cases h
        exact .refl s k
      · split at h
        · split at h <;> cases h
          · exact ⟨by simp [alloc,hjk],rfl,rfl,rfl⟩
          · exact .refl s k
        · cases h
          exact apart_alloc hjk
    · cases h
  | postRet p now => exact apart_postRet h hk
  | cont =>
    simp only [step] at h
    split at h
    · rename_i j dels hdels
      have hjk : k≠j := fun hjk => hk (by simp [subject,hdels,hjk])
      cases h
      have hpop : Apart s {s with dels := dels} k := ⟨rfl,rfl,rfl,rfl⟩
      exact hpop.trans (apart_unref hjk)
    · cases h
      exact ⟨rfl,rfl,rfl,rfl⟩
    · cases h
  | harvest evs =>
    simp only [step] at h
    split at h <;> cases h
    exact ⟨rfl,rfl,rfl,rfl⟩
  | reapEfd => exact apart_reapEfd h hk
  | reapUsd => exact apart_reapUsd h hk
  | reapTmr now => exact apart_reapTmr h hk

/-! ### What a step may do to the element it is about -/

theorem Calm.refl (s : Dpevp κ) (k : κ) : Calm s s k := ⟨rfl,.inl rfl,id,rfl⟩

theorem Calm.trans (h : Calm s t k) (h' : Calm t u k) : Calm s u k where
  kind := h'.kind.trans h.kind
  asc := by
    rcases h'.asc with ha | ha
    · rw [ha]; exact h.asc
    · exact .inr ha
  refc hr := h'.refc (h.refc hr)
  detach := h'.detach.trans h.detach

theorem Apart.calm (h : Apart s t k) : Calm s t k := by
  constructor <;> simp [h.ele]

theorem Apart.mem_timer (h : Apart s t k) : k∈t.timer ↔ k∈s.timer := by
  rw [← List.count_pos_iff,h.timer,List.count_pos_iff]

theorem Apart.mem_ready (h : Apart s t k) : k∈t.ready ↔ k∈s.ready := by
  rw [← List.count_pos_iff,h.ready,List.count_pos_iff]

theorem Apart.settled (h : Apart s t k) (hs : Settled s k) : Settled t k :=
  ⟨by rw [h.ele]; exact hs.asc,fun hk => hs.timer (h.mem_timer.mp hk),fun hk => hs.ready (h.mem_ready.mp hk),
    h.frames.trans hs.frames⟩

theorem Apart.tame (h : Apart s t k) : Tame s t k := ⟨h.calm,h.settled⟩

theorem Tame.trans (h : Tame s t k) (h' : Tame t u k) : Tame s u k := ⟨h.toCalm.trans h'.toCalm,h'.settled∘h.settled⟩

theorem calm_same {t : Dpevp κ} (h : t.ele=s.ele) : Calm s t k := by
  constructor <;> simp [h]

theorem calm_setEle {e : Ele κ} (h1 : e.kind=(s.ele k).kind) (h2 : e.asc=(s.ele k).asc ∨ e.asc=none)
    (h3 : (s.ele k).refc=0 → e.refc=0) (h4 : e.isDetach=(s.ele k).isDetach) : Calm s (s.setEle k e) k := by
  constructor <;> simpa [Dpevp.setEle]

theorem calm_remove : Calm s (dptmrsetRemove s k) k := by
  unfold dptmrsetRemove
  split
  · constructor <;> simp [Dpevp.setEle]
  · exact .refl s k

theorem calm_upsert (now : ℤ) : Calm s (dptmrsetUpsert s k now) k := by
  unfold dptmrsetUpsert
  split
  · exact .refl s k
  · split
    · exact .refl s k
    · simp only
      split
      · constructor <;> simp [Dpevp.setEle]
      · split
        · constructor <;> simp [Dpevp.setEle]
        · constructor <;> simp [Dpevp.setEle]

theorem calm_ascOver : Calm s (dpeleAscOver s k) k := by
  have hset : Calm s ((s.setEle k {s.ele k with efd := {(s.ele k).efd with want := ∅}, asc := none}).setPending k false) k := by
    constructor <;> simp [Dpevp.setEle,Dpevp.setPending]
  unfold dpeleAscOver
  simp only
  split
  · exact hset.trans apart_ascEnd.calm
  · split
    · exact hset.trans (calm_same rfl)
    · exact hset.trans apart_ascEnd.calm

theorem calm_feedEnd {r : Dpret} : Calm s (feedEnd s k r) k := by
  unfold feedEnd
  split
  · exact calm_setEle rfl (.inl rfl) id rfl
  · refine Calm.trans ?_ (Calm.trans calm_remove calm_ascOver)
    exact calm_setEle rfl (.inl rfl) id rfl

theorem calm_addFinish {r : Dpret} {now : ℤ} : Calm s (addFinish s k r now) k := by
  unfold addFinish
  split
  · have h : Calm s (s.setEle k {s.ele k with ret := r}) k := calm_setEle rfl (.inl rfl) id rfl
    exact h.trans (calm_same rfl)
  · split
    · have h : Calm s (s.setEle k {s.ele k with ret := dpeInprogress}) k := calm_setEle rfl (.inl rfl) id rfl
      exact (h.trans (calm_upsert now)).trans (calm_same rfl)
    · have h : Calm s (s.setEle k {s.ele k with ret := r, asc := none}) k := calm_setEle rfl (.inr rfl) id rfl
      exact h.trans (calm_same rfl)

theorem calm_wakeTurn {add : Bool} {now : ℤ} {w : Efd × Turn} : Calm s (wakeTurn s k add now w) k := by
  unfold wakeTurn
  split
  · rename_i f
    have h : Calm s (s.setEle k {s.ele k with efd := f}) k := calm_setEle rfl (.inl rfl) id rfl
    exact h.trans (calm_same rfl)
  · simp only
    split
    · refine Calm.trans ?_ calm_addFinish
      exact calm_setEle rfl (.inl rfl) id rfl
    · refine Calm.trans ?_ calm_feedEnd
      exact calm_setEle rfl (.inl rfl) id rfl

theorem tame_setEle {e : Ele κ} (h1 : e.kind=(s.ele k).kind) (h2 : e.asc=(s.ele k).asc)
    (h3 : (s.ele k).refc=0 → e.refc=0) (h4 : e.isDetach=(s.ele k).isDetach) : Tame s (s.setEle k e) k :=
  ⟨calm_setEle h1 (.inl h2) h3 h4,fun hs => ⟨by simpa [Dpevp.setEle,h2] using hs.asc,hs.timer,hs.ready,hs.frames⟩⟩

theorem tame_unref (hr : 0<(s.ele k).refc) : Tame s (unref s k) k := by
  have hset : Tame s (s.setEle k {s.ele k with refc := (s.ele k).refc-1}) k :=
    tame_setEle rfl rfl (fun h0 => by omega) rfl
  unfold unref
  simp only
  split
  · exact hset.trans apart_dpeleDel.tame
  · exact hset

theorem unsettled_stack {fr : Frame κ} {stack : List (Frame κ)} (h : s.stack=fr::stack) (hk : fr.key=k) : ¬Settled s k := by
  intro hs
  have hnil := hs.frames
  rw [frames,h,List.filter_cons_of_pos (by simpa using hk)] at hnil
  cases hnil

theorem tame_reapEfd (h : step s .reapEfd=some t) (hk : subject s .reapEfd=some k) : Tame s t k := by
  simp only [step] at h
  split at h
  · rename_i en evs hevs
    have hkey : en.key=k := by simpa [subject,hevs] using hk
    split at h
    · have hset : ∀ (f : Efd) (fed : List (Entry κ)) (stray : Bool),
          Tame s {s.setEle en.key {s.ele en.key with efd := f} with evs := evs, fed := fed, stray := stray} k := by
        intro f fed stray
        subst hkey
        have htame : Tame s (s.setEle en.key {s.ele en.key with efd := f}) en.key := tame_setEle rfl rfl id rfl
        exact ⟨htame.toCalm.trans (calm_same rfl),fun hs => ⟨(htame.settled hs).asc,hs.timer,hs.ready,hs.frames⟩⟩
      split at h
      · cases h
        exact hset ..
      · rename_i hdoing
        cases h
        refine ⟨Calm.trans (hset ..).toCalm (by rw [hkey]; exact calm_wakeTurn),fun hs => ?_⟩
        -- only an element that is doing is fed
        refine (hdoing (.inr ?_)).elim
        rw [hkey]
        simp [dpeleIsDoing,hs.asc]
    · cases h
  · cases h

theorem tame_prepRet {ret : Dpret} {out : AscOut} {now : ℤ} (h : step s (.prepRet ret out now)=some t)
    (hk : subject s (.prepRet ret out now)=some k) : Tame s t k := by
  simp only [step] at h
  split at h
  · rename_i j stack hstack
    have hkey : j=k := by simpa [subject,hstack,Frame.key] using hk
    subst hkey
    refine ⟨?_,fun hs => (unsettled_stack hstack rfl hs).elim⟩
    have hpop : Calm s {s with stack := stack} j := calm_same rfl
    split at h
    · split at h
      · cases h
        exact hpop.trans calm_addFinish
      · split at h <;> cases h
        · exact hpop.trans calm_wakeTurn
        · exact hpop.trans calm_addFinish
    · cases h
  · cases h

theorem tame_postRet {p : PostRet} {now : ℤ} (h : step s (.postRet p now)=some t)
    (hk : subject s (.postRet p now)=some k) : Tame s t k := by
  simp only [step] at h
  split at h
  · rename_i j add stack hstack
    have hkey : j=k := by simpa [subject,hstack,Frame.key] using hk
    subst hkey
    refine ⟨?_,fun hs => (unsettled_stack hstack rfl hs).elim⟩
    have hpop : Calm s {s with stack := stack} j := calm_same rfl
    split at h <;> cases h
    exact hpop.trans calm_wakeTurn
  · rename_i j stack hstack
    have hkey : j=k := by simpa [subject,hstack,Frame.key] using hk
    subst hkey
    refine ⟨?_,fun hs => (unsettled_stack hstack rfl hs).elim⟩
    split at h <;> cases h
    have hpop : Calm s {s with stack := stack} j := calm_same rfl
    refine hpop.trans (Calm.trans ?_ apart_ascEnd.calm)
    exact calm_setEle rfl (.inl rfl) id rfl
  · cases h

theorem tame_step {a : Act κ} (h : step s a=some t) (hr : hasRef s a=true) (hb : ¬begins k a) : Tame s t k := by
  by_cases hk : subject s a=some k
  · cases a with
    | new | dup | setDetach | add => exact (hb (Option.some.inj hk)).elim
    | ref j =>
      cases hk
      simp only [step] at h
      split at h
      · rename_i howns
        cases h
        exact tame_setEle rfl rfl (fun h0 => by have := howns.2.2; omega) rfl
      · cases h
    | setTimeout j sec =>
      cases hk
      simp only [step] at h
      split at h <;> cases h
      exact tame_setEle rfl rfl id rfl
    | prepRet ret out now => exact tame_prepRet h hk
    | end_ j ret =>
      cases hk
      simp only [step] at h
      split at h
      · split at h <;> cases h
        · rename_i hdoing
          refine ⟨Calm.trans calm_remove ?_,fun hs => ?_⟩
          · constructor <;> simp [Dpevp.setEle,Dpevp.setPending]
          · simp [dpeleIsDoing,hs.asc] at hdoing
        · exact ⟨.refl s _,id⟩
      · cases h
    | del j =>
      cases hk
      simp only [step] at h
      split at h
      · rename_i howns
        cases h
        exact tame_unref howns.2.2
      · cases h
    | postRet p now => exact tame_postRet h hk
    | cont =>
      simp only [step] at h
      split at h
      · rename_i j dels hdels
        have hkey : j=k := by simpa [subject,hdels] using hk
        subst hkey
        cases h
        have hrefc : 0<(s.ele j).refc := by simpa [hasRef,hdels] using hr
        have hpop : Apart s {s with dels := dels} j := ⟨rfl,rfl,rfl,rfl⟩
        exact hpop.tame.trans (tame_unref hrefc)
      · rename_i hdels
        simp [subject,hdels] at hk
      · cases h
    | harvest => cases hk
    | reapEfd => exact tame_reapEfd h hk
    | reapUsd =>
      simp only [step] at h
      split at h
      · rename_i j ready hready
        have hkey : j=k := by simpa [subject,hready] using hk
        subst hkey
        split at h <;> cases h
        have hpop : Calm s {s with ready := ready} j := calm_same rfl
        exact ⟨hpop.trans calm_ascOver,fun hs => (hs.ready (by rw [hready]; exact List.mem_cons_self)).elim⟩
      · cases h
    | reapTmr now =>
      simp only [step] at h
      split at h
      · rename_i j timer htimer
        have hkey : j=k := by simpa [subject,htimer] using hk
        subst hkey
        split at h <;> cases h
        have hpop : Calm s {s with timer := timer} j := calm_same rfl
        refine ⟨hpop.trans (Calm.trans ?_ calm_ascOver),fun hs => (hs.timer (by rw [htimer]; exact List.mem_cons_self)).elim⟩
        exact calm_setEle rfl (.inl rfl) id rfl
      · cases h
  · exact (step_apart h hk).tame

/-- An element that dpevp_pop has just completed was not settled. -/
theorem overDone_unsettled {a : Act κ} (hk : overDone s t a=some k) : ¬Settled s k := by
  intro hs
  unfold overDone at hk
  split at hk
  · split at hk
    · exact hs.ready (List.mem_of_mem_head? hk)
    · cases hk
  · split at hk
    · exact hs.timer (List.mem_of_mem_head? hk)
    · cases hk
  · obtain ⟨en,-,hen⟩ := Option.bind_eq_some_iff.mp hk
    split at hen
    · rename_i hdoing
      cases hen
      simp [dpeleIsDoing,hs.asc] at hdoing
    · cases hen
  · split at hk
    · rename_i hstack
      cases hk
      exact unsettled_stack hstack rfl hs
    · rename_i hstack
      split at hk
      · cases hk
        exact unsettled_stack hstack rfl hs
      · cases hk
    · cases hk
  · cases hk

theorem overDone_begins {a : Act κ} (hk : overDone s t a=some k) : ¬begins k a := by
  cases a <;> simp_all [overDone,begins]

end Calls

end Dpapp.EngineFrame
