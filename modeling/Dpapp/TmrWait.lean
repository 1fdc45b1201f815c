import Dpapp.AscAdd
import Dpapp.Dpbuf
import Dpapp.TieOrder

/-! # The timer tree and how long dpevp_pop sleeps (os/linux/dpevp_epoll.c, dpasc.c) -/

namespace Dpapp.TmrWait
open Dpapp.Machine Dpapp.Ret
open Dpapp.AscAdd (EleType)
open Dpapp.Dpbuf (wrap)

/-- The type double, as far as the engine uses it: `neg` is `sec < 0`, and `deadline` the value of
`(int64_t)(now + after * 1000.0)`, which is undefined where it does not fit. -/
structure Double where
  carrier : Type
  neg : carrier → Bool
  deadline : ℕ → carrier → Option ℤ
  range : ∀ n a e,deadline n a=some e → 0≤e ∧ e<2^63

/-- dptmr_timeout and dptmr_callback with the pointer that gets into data[0], NULL where it is false; or another operation. -/
inductive Asc
  | timeout (v : Bool)
  | callback (cb : Bool)
  | other
  deriving DecidableEq

/-- `data` tells whether data[0] of the scratch data is set. -/
structure Ele (D : Type) where
  type : EleType := .tmr
  asc : Option Asc := none
  data : Bool := false
  after : Option D := none
  expire : ℤ := 0
  isTiming : Bool := false
  ret : Dpret := 0

/-- What happens to the elements of the tree: put there for a time, taken out because of it, or taken out otherwise. -/
inductive Ev (κ : Type*)
  | arm (k : κ) (expire : ℤ)
  | fire (k : κ) (expire : ℤ) (now : ℕ)
  | drop (k : κ)

/-- A call of epoll_wait: what dptmrset_expire has said, the caller's own limit, whether pop_limit or the ready queue forbid to
wait, and the timeout that is passed. -/
structure Wait where
  earliest : Option ℤ
  now : ℕ
  waitms : ℤ
  limit : ℤ
  busy : Bool
  passed : ℤ

/- History: `log`, `waits`, and `added` tells for each timer operation that has been accepted as pending whether it was in the
tree then. -/
structure Dpevp (D : Type) (κ : Type*) where
  ele : κ → Ele D := fun _ => {}
  timer : List κ := []
  ready : List κ := []
  timerWaitms : ℤ := 0
  now : ℕ := 0
  log : List (Ev κ) := []
  waits : List Wait := []
  added : List (κ × Bool) := []

variable {F : Double} {κ : Type*} [LinearOrder κ]

def Dpevp.setEle (s : Dpevp F.carrier κ) (k : κ) (e : Ele F.carrier) : Dpevp F.carrier κ :=
  {s with ele := Function.update s.ele k e}

/-! ### dptmrset_t -/

/-- `_dpele_tmrspec_compare`; the times are not negative, so that their difference is an int64_t. -/
def tmrLe {D : Type} (ele : κ → Ele D) (a b : κ) : Prop := toLex ((ele a).expire,a)≤toLex ((ele b).expire,b)

instance {D : Type} (ele : κ → Ele D) : DecidableRel (tmrLe ele) := fun _ _ => inferInstanceAs (Decidable (_≤_))

/-- `_dptmrset_upsert` -/
def dptmrsetUpsert (s : Dpevp F.carrier κ) (k : κ) : Option (Dpevp F.carrier κ) :=
  match (s.ele k).after with
  | none => some s
  | some after =>
      if F.neg after then some s
      else (F.deadline s.now after).map fun e =>
        let s := s.setEle k {s.ele k with expire := e, isTiming := true}
        {s with timer := (s.timer.filter (·≠k)).orderedInsert (tmrLe s.ele) k, log := s.log++[.arm k e]}

/-- `_dptmrset_remove` -/
def dptmrsetRemove (s : Dpevp F.carrier κ) (k : κ) : Dpevp F.carrier κ :=
  if (s.ele k).isTiming then
    {s.setEle k {s.ele k with isTiming := false} with timer := s.timer.filter (·≠k), log := s.log++[.drop k]}
  else s

/-- dptmrset_expire: the timer whose time has come, or the wait, which is narrowed to an int. -/
def dptmrsetExpire (s : Dpevp F.carrier κ) : Dpevp F.carrier κ × Option κ :=
  match s.timer with
  | [] => ({s with timerWaitms := -1},none)
  | k::timer =>
      let e := (s.ele k).expire
      if (s.now : ℤ)<e then
        let nextms := e-s.now-10
        ({s with timerWaitms := wrap (if 1<nextms then nextms else 1)},none)
      else
        ({s.setEle k {s.ele k with isTiming := false} with
          timer := timer, timerWaitms := 0, log := s.log++[.fire k e s.now]},some k)

/-! ### Operations -/

/-- dpele_set_timeout; `mem` tells whether calloc succeeds. -/
def dpeleSetTimeout (e : Ele F.carrier) (sec : F.carrier) (mem : Bool) : Ele F.carrier :=
  if e.type=.ctc then e
  else if e.after.isNone ∧ (F.neg sec ∨ mem=false) then e
  else {e with after := some sec}

/-- The prep functions `_dptmr_timeout_prep` and `_dptmr_callback_prep` -/
def prep (e : Ele F.carrier) (asc : Asc) (sec : F.carrier) (mem : Bool) : Ele F.carrier × Dpret :=
  match asc with
  | .timeout v => (dpeleSetTimeout {e with data := v} sec mem,dpeContinue)
  | .callback cb =>
      if cb=false ∧ e.data=false then (e,dpeInval) else (dpeleSetTimeout {e with data := true} sec mem,dpeContinue)
  | .other => (e,dpeContinue)

/-- dpevp_addv of an operation of a timer, which may be pending -/
def addvTmr (s : Dpevp F.carrier κ) (k : κ) (asc : Asc) (sec : F.carrier) (mem : Bool) : Option (Dpevp F.carrier κ) :=
  let (e,r) := prep {s.ele k with asc := some asc} asc sec mem
  if r≠dpeContinue then some (s.setEle k {e with ret := r, asc := none})
  else (dptmrsetUpsert (s.setEle k {e with ret := dpeInprogress}) k).map fun s =>
    {s with added := s.added++[(k,decide (k∈s.timer))]}

/-- dpevp_addv of another operation, for what its prep function (or `_dpefd_wake`) returns -/
def addvOther (s : Dpevp F.carrier κ) (k : κ) (r : Dpret) : Option (Dpevp F.carrier κ) :=
  let e := {s.ele k with asc := some .other}
  if dpretIsok r then some {s.setEle k {e with ret := r} with ready := s.ready++[k]}
  else if r=dpeWait then dptmrsetUpsert (s.setEle k {e with ret := dpeInprogress}) k
  else some (s.setEle k {e with ret := r, asc := none})

/-- dpevp_end -/
def dpevpEnd (s : Dpevp F.carrier κ) (k : κ) (ret : Dpret) : Dpevp F.carrier κ :=
  if (s.ele k).asc.isNone then s
  else
    let s := dptmrsetRemove s k
    match (s.ele k).type with
    | .efd | .usd | .tmr => {s.setEle k {s.ele k with ret := ret} with ready := s.ready++[k]}
    | .ctc | .weak => s

/-- An event or another thread ends the operation of an EFD or a CTC. -/
def eventOver (s : Dpevp F.carrier κ) (k : κ) (ret : Dpret) : Dpevp F.carrier κ :=
  let s := dptmrsetRemove s k
  s.setEle k {s.ele k with ret := ret, asc := none}

/-- `_dpevp_reap_usd`, and `_dpele_asc_over` up to the post function -/
def reapUsd (s : Dpevp F.carrier κ) : Dpevp F.carrier κ :=
  match s.ready with
  | [] => s
  | k::ready => {s.setEle k {s.ele k with asc := none} with ready := ready}

/-- A turn of `_dpevp_reap_tmr` with a timer whose time has come, and `_dpele_asc_over` up to the post function -/
def reapTmr (s : Dpevp F.carrier κ) : Option (Dpevp F.carrier κ) :=
  match dptmrsetExpire s with
  | (_,none) => none
  | (s,some k) =>
      if (s.ele k).type=.ctc then some s else some (s.setEle k {s.ele k with ret := dpeTime, asc := none})

/-- The end of dpevp_pop: `limited` when pop_limit has kept it from the timers. -/
def sleep (s : Dpevp F.carrier κ) (limited : Bool) (timeout : ℤ) : Option (Dpevp F.carrier κ) :=
  if limited then
    some {s with waits := s.waits++[⟨none,s.now,s.timerWaitms,timeout,true,0⟩]}
  else
    match dptmrsetExpire s with
    | (_,some _) => none
    | (s,none) =>
        let busy := !s.ready.isEmpty
        let passed := if busy then 0
          else if 0≤ s.timerWaitms ∧ (timeout<0 ∨ s.timerWaitms<timeout) then s.timerWaitms
          else timeout
        some {s with waits := s.waits++[⟨s.timer.head?.map fun k => (s.ele k).expire,s.now,s.timerWaitms,timeout,busy,passed⟩]}

inductive Act (D : Type) (κ : Type*)
  | new (k : κ) (type : EleType)
  | setTimeout (k : κ) (sec : D) (mem : Bool)
  | addv (k : κ) (asc : Asc) (sec : D) (mem : Bool)
  | addvOther (k : κ) (r : Dpret)
  | end_ (k : κ) (ret : Dpret)
  | eventOver (k : κ) (ret : Dpret)
  | reapUsd
  | reapTmr
  | sleep (limited : Bool) (timeout : ℤ)
  | clock (now : ℕ)

def step (s : Dpevp F.carrier κ) : Act F.carrier κ → Option (Dpevp F.carrier κ)
  | .new k type => if k∈s.timer ∨ k∈s.ready then none else some (s.setEle k {type := type})
  | .setTimeout k sec mem => some (s.setEle k (dpeleSetTimeout (s.ele k) sec mem))
  | .addv k asc sec mem => if (s.ele k).type=.tmr ∧ asc≠.other then addvTmr s k asc sec mem else none
  | .addvOther k r => if (s.ele k).type≠.tmr ∧ (s.ele k).asc.isNone then addvOther s k r else none
  | .end_ k ret => some (dpevpEnd s k ret)
  | .eventOver k ret => if (s.ele k).type=.efd ∨ (s.ele k).type=.ctc then some (eventOver s k ret) else none
  | .reapUsd => some (reapUsd s)
  | .reapTmr => reapTmr s
  | .sleep limited timeout => sleep s limited timeout
  | .clock now => some {s with now := now}

/-! ### What timers owe -/

/-- The times that are set after these events. -/
def hold (h : κ → Option ℤ) : Ev κ → κ → Option ℤ
  | .arm k e => Function.update h k (some e)
  | .fire k _ _ | .drop k => Function.update h k none

def held (log : List (Ev κ)) : κ → Option ℤ := log.foldl hold fun _ => none

/-- A timer that is taken out was there, for a time that has come and that is no later than any other. -/
def Fair (log : List (Ev κ)) : Prop :=
  ∀ p k e (t : ℕ),p++[.fire k e t] <+: log → held p k=some e ∧ e≤(t : ℤ) ∧ ∀ j e',held p j=some e' → e≤e'

/-- The wait until the earliest time: positive, and no longer than until then, or a millisecond. -/
structure Wait.Right (w : Wait) : Prop where
  ahead : ∀ e∈w.earliest,w.now<e ∧ 0<w.waitms ∧ w.waitms≤ max 1 (e-w.now)
  passed : ∀ e∈w.earliest,0≤w.passed ∧ w.passed≤w.waitms ∧ (w.busy=false → w.limit≠0 → 0<w.passed)
  limit : 0≤w.limit → w.passed≤w.limit

/-- A timer in the tree is delivered once and in time, and a pending timer operation is there, or has been ended. -/
structure Sound (s : Dpevp F.carrier κ) : Prop where
  tree : ∀ k,held s.log k=if k∈s.timer then some (s.ele k).expire else none
  fair : Fair s.log
  waits : ∀ w∈s.waits,w.Right
  added : ∀ x∈s.added,x.2=true
  pending : ∀ k,(s.ele k).type=.tmr → (s.ele k).asc.isSome → k∈s.timer ∨ k∈s.ready

/-- There is no callback and never was one. -/
def refused (s : Dpevp F.carrier κ) (k : κ) (asc : Asc) : Prop := asc=.callback false ∧ (s.ele k).data=false

/-- The seconds are not negative and their deadline fits, or there is an old one; tmr_spec is there or calloc succeeds; and the
int that the wait is narrowed to is positive. -/
def fits (s : Dpevp F.carrier κ) : Act F.carrier κ → Prop
  | .addv k asc sec mem => refused s k asc ∨
      ((s.ele k).isTiming ∨ F.neg sec=false ∧ ((s.ele k).after.isSome ∨ mem=true)) ∧
        (F.neg sec=true ∨ (F.deadline s.now sec).isSome)
  | .addvOther k _ => ∀ a∈(s.ele k).after,F.neg a=false → (F.deadline s.now a).isSome
  | .sleep limited _ => limited ∨ ∀ k∈s.timer.head?,0<wrap (max 1 ((s.ele k).expire-s.now-10))
  | _ => True

/-! ### The tree -/

/-- What the operations on the tree rely on. -/
structure Tree (s : Dpevp F.carrier κ) : Prop where
  nodup : s.timer.Nodup
  sorted : s.timer.Pairwise (tmrLe s.ele)
  timing : ∀ k,(s.ele k).isTiming=true ↔ k∈s.timer
  held : ∀ k,held s.log k=if k∈s.timer then some (s.ele k).expire else none
  fair : Fair s.log

section Tree
variable {s t : Dpevp F.carrier κ} {k j : κ} {e : Ele F.carrier} {log : List (Ev κ)} {ev : Ev κ}

theorem expire_setEle_ne (h : j≠k) : ((s.setEle k e).ele j).expire=(s.ele j).expire := by
  simp [Dpevp.setEle,h]

theorem held_snoc : held (log++[ev])=hold (held log) ev := by
  rw [held,List.foldl_append]
  rfl

/-- Only what is taken out because of its time has to be fair. -/
theorem fair_snoc (h : Fair log) (hev : ∀ k e (t : ℕ),ev=.fire k e t →
    held log k=some e ∧ e≤(t : ℤ) ∧ ∀ j e',held log j=some e' → e≤e') : Fair (log++[ev]) := by
  intro p k e t hp
  rcases List.prefix_concat_iff.1 hp with heq | hp
  · obtain ⟨rfl,hlast⟩ := List.append_inj' heq rfl
    exact hev k e t (List.cons.inj hlast).1.symm
  · exact h p k e t hp

theorem Tree.congr (h : Tree s) (hele : t.ele=s.ele) (htimer : t.timer=s.timer) (hlog : t.log=s.log) : Tree t where
  nodup := by rw [htimer]; exact h.nodup
  sorted := by rw [htimer,hele]; exact h.sorted
  timing := by rw [htimer,hele]; exact h.timing
  held := by rw [htimer,hele,hlog]; exact h.held
  fair := by rw [hlog]; exact h.fair

/-- An element that stays as it is for the tree. -/
theorem tree_setEle (h : Tree s) (ht : e.isTiming=(s.ele k).isTiming) (he : e.expire=(s.ele k).expire ∨ k∉s.timer) :
    Tree (s.setEle k e) := by
  have hexpire : ∀ j∈s.timer,((s.setEle k e).ele j).expire=(s.ele j).expire := fun j hj => by
    by_cases hjk : j=k
    · subst hjk
      have := he.resolve_right (not_not.2 hj)
      simpa [Dpevp.setEle] using this
    · exact expire_setEle_ne hjk
  refine ⟨h.nodup,TieOrder.pairwise_congr hexpire h.sorted,fun j => ?_,fun j => ?_,h.fair⟩
  · rw [show (s.setEle k e).timer=s.timer from rfl,← h.timing j]
    by_cases hjk : j=k
    · subst hjk
      simp [Dpevp.setEle,ht]
    · simp [Dpevp.setEle,hjk]
  · rw [show (s.setEle k e).log=s.log from rfl,show (s.setEle k e).timer=s.timer from rfl,h.held j]
    split
    · rename_i hj
      rw [hexpire j hj]
    · rfl

/-- The element goes to the place of its new time. -/
theorem tree_arm (h : Tree s) (x : ℤ) :
    Tree {s.setEle k {s.ele k with expire := x, isTiming := true} with
      timer := (s.timer.filter (·≠k)).orderedInsert (tmrLe (s.setEle k {s.ele k with expire := x, isTiming := true}).ele) k
      log := s.log++[.arm k x]} := by
  have hmem : ∀ j,j∈(s.timer.filter (·≠k)).orderedInsert
      (tmrLe (s.setEle k {s.ele k with expire := x, isTiming := true}).ele) k ↔ j=k ∨ j∈s.timer :=
    fun j => TieOrder.mem_move
  refine ⟨TieOrder.nodup_move h.nodup,TieOrder.pairwise_move (fun j hjk => expire_setEle_ne hjk) h.sorted,
    fun j => ?_,fun j => ?_,?_⟩
  · simp only [hmem]
    by_cases hjk : j=k
    · simp [Dpevp.setEle,hjk]
    · simp [Dpevp.setEle,hjk,h.timing j]
  · simp only [hmem,held_snoc,hold]
    by_cases hjk : j=k
    · simp [Dpevp.setEle,hjk]
    · simp [Dpevp.setEle,hjk,h.held j]
  · exact fair_snoc h.fair (by simp)

/-- An element leaves the tree. -/
theorem tree_leave (h : Tree s) (hlog : ∀ x,held (s.log++[ev]) x=Function.update (held s.log) k none x)
    (hfair : Fair (s.log++[ev])) :
    Tree {s.setEle k {s.ele k with isTiming := false} with timer := s.timer.filter (·≠k), log := s.log++[ev]} := by
  have hmem : ∀ j,j∈s.timer.filter (·≠k) ↔ j≠k ∧ j∈s.timer := fun j => by
    rw [List.mem_filter]
    simp [and_comm]
  refine ⟨h.nodup.filter _,TieOrder.pairwise_leave (fun j hjk => expire_setEle_ne hjk) h.sorted,fun j => ?_,fun j => ?_,
    hfair⟩
  · simp only [hmem]
    by_cases hjk : j=k
    · simp [Dpevp.setEle,hjk]
    · simp [Dpevp.setEle,hjk,h.timing j]
  · simp only [hmem,hlog]
    by_cases hjk : j=k
    · simp [hjk]
    · simp [Dpevp.setEle,hjk,h.held j]

theorem tree_remove (h : Tree s) (k : κ) : Tree (dptmrsetRemove s k) := by
  unfold dptmrsetRemove
  split
  · exact tree_leave h (fun x => by rw [held_snoc]; rfl) (fair_snoc h.fair (by simp))
  · exact h

/-- What upsert does: nothing without a time, else the element is put where its time is. -/
theorem upsert_cases (hu : dptmrsetUpsert s k=some t) :
    (t=s ∧ ∀ a∈(s.ele k).after,F.neg a=true) ∨
      ∃ x,t={s.setEle k {s.ele k with expire := x, isTiming := true} with
        timer := (s.timer.filter (·≠k)).orderedInsert (tmrLe (s.setEle k {s.ele k with expire := x, isTiming := true}).ele) k
        log := s.log++[.arm k x]} := by
  unfold dptmrsetUpsert at hu
  split at hu
  · rename_i hnone
    cases hu
    exact .inl ⟨rfl,by simp [hnone]⟩
  · rename_i a ha
    split at hu
    · rename_i hneg
      cases hu
      exact .inl ⟨rfl,fun b hb => by rw [ha] at hb; cases hb; exact hneg⟩
    · obtain ⟨x,-,rfl⟩ := Option.map_eq_some_iff.1 hu
      exact .inr ⟨x,rfl⟩

theorem tree_upsert (h : Tree s) (hu : dptmrsetUpsert s k=some t) : Tree t := by
  obtain ⟨rfl,-⟩ | ⟨x,rfl⟩ := upsert_cases hu
  · exact h
  · exact tree_arm h x

/-- The earliest timer is the head of the list. -/
theorem head_le {l : List κ} (h : Tree s) (hl : s.timer=k::l) (hj : j∈s.timer) : (s.ele k).expire≤(s.ele j).expire := by
  have hs := h.sorted
  rw [hl] at hs hj
  rcases List.mem_cons.1 hj with rfl | hj
  · exact le_rfl
  · exact TieOrder.key_le (fun i => (s.ele i).expire) ((List.pairwise_cons.1 hs).1 j hj)

theorem expire_some (he : dptmrsetExpire s=(t,some k)) : ∃ l,s.timer=k::l ∧ (s.ele k).expire≤ s.now ∧
    t={s.setEle k {s.ele k with isTiming := false} with
      timer := l, timerWaitms := 0, log := s.log++[.fire k (s.ele k).expire s.now]} := by
  unfold dptmrsetExpire at he
  split at he
  · cases he
  · rename_i j l hl
    dsimp only at he
    split at he
    · cases he
    · rename_i hdue
      cases he
      exact ⟨l,hl,Int.not_lt.1 hdue,rfl⟩

theorem expire_none (he : dptmrsetExpire s=(t,none)) : ∃ w,t={s with timerWaitms := w} ∧
    ∀ k∈s.timer.head?,(s.now : ℤ)<(s.ele k).expire ∧ w=wrap (max 1 ((s.ele k).expire-s.now-10)) := by
  unfold dptmrsetExpire at he
  split at he
  · rename_i hnil
    cases he
    exact ⟨-1,rfl,by simp [hnil]⟩
  · rename_i k l hl
    dsimp only at he
    split at he
    · rename_i hlater
      cases he
      refine ⟨_,rfl,fun j hj => ?_⟩
      rw [hl] at hj
      cases hj
      refine ⟨hlater,congrArg wrap ?_⟩
      split <;> omega
    · cases he

theorem tree_fire (h : Tree s) (he : dptmrsetExpire s=(t,some k)) : Tree t := by
  obtain ⟨l,hl,hdue,rfl⟩ := expire_some he
  have hnot : k∉l := by
    have := h.nodup
    rw [hl] at this
    exact (List.nodup_cons.1 this).1
  have hrest : s.timer.filter (·≠k)=l := by
    rw [hl,List.filter_cons_of_neg (by simp)]
    exact List.filter_eq_self.2 fun j hj => by simpa using fun he : j=k => hnot (he ▸ hj)
  have hk : k∈s.timer := by rw [hl]; exact List.mem_cons_self
  have hfair : Fair (s.log++[.fire k (s.ele k).expire s.now]) := fair_snoc h.fair fun k' e' t' heq => by
    cases heq
    refine ⟨by rw [h.held k,if_pos hk],hdue,fun j e' hj => ?_⟩
    rw [h.held j] at hj
    split at hj
    · rename_i hmem
      cases hj
      exact head_le h hl hmem
    · exact absurd hj (by simp)
  have hleave := tree_leave (k := k) h (fun x => by rw [held_snoc]; rfl) hfair
  rw [hrest] at hleave
  exact hleave.congr rfl rfl rfl

end Tree

/-! ### Every step -/

/-- Sound, with what the tree relies on. -/
structure Inv (s : Dpevp F.carrier κ) : Prop where
  tree : Tree s
  waits : ∀ w∈s.waits,w.Right
  added : ∀ x∈s.added,x.2=true
  pending : ∀ k,(s.ele k).type=.tmr → (s.ele k).asc.isSome → k∈s.timer ∨ k∈s.ready

section Steps
variable {s t : Dpevp F.carrier κ} {k j : κ} {e : Ele F.carrier}

theorem Inv.sound (h : Inv s) : Sound s := ⟨h.tree.held,h.tree.fair,h.waits,h.added,h.pending⟩

/-- An element that stays as it is for the tree, and is not a timer with an operation. -/
theorem inv_setEle (h : Inv s) (ht : e.isTiming=(s.ele k).isTiming) (he : e.expire=(s.ele k).expire ∨ k∉s.timer)
    (hp : e.type=.tmr → e.asc.isSome → k∈s.timer ∨ k∈s.ready) : Inv (s.setEle k e) where
  tree := tree_setEle h.tree ht he
  waits := h.waits
  added := h.added
  pending j hj hasc := by
    by_cases hjk : j=k
    · subst hjk
      simp only [Dpevp.setEle,Function.update_self] at hj hasc
      exact hp hj hasc
    · simp only [Dpevp.setEle,Function.update_of_ne hjk] at hj hasc
      exact h.pending j hj hasc

theorem inv_push (h : Inv s) (k : κ) : Inv {s with ready := s.ready++[k]} where
  tree := h.tree.congr rfl rfl rfl
  waits := h.waits
  added := h.added
  pending j hj hasc := (h.pending j hj hasc).imp_right (List.mem_append_left _)

theorem mem_upsert (hu : dptmrsetUpsert s k=some t) (hj : j∈s.timer) : j∈t.timer := by
  obtain ⟨rfl,-⟩ | ⟨x,rfl⟩ := upsert_cases hu
  · exact hj
  · by_cases hjk : j=k
    · subst hjk
      simp
    · simp [hj,hjk]

/-- upsert of an element whose operation waits. -/
theorem inv_upsert (h : Tree s) (hw : ∀ w∈s.waits,w.Right) (ha : ∀ x∈s.added,x.2=true)
    (hp : ∀ j≠k,(s.ele j).type=.tmr → (s.ele j).asc.isSome → j∈s.timer ∨ j∈s.ready)
    (hu : dptmrsetUpsert s k=some t) (hk : (s.ele k).type=.tmr → k∈t.timer) : Inv t := by
  have htree := tree_upsert h hu
  refine ⟨htree,?_,?_,fun j hj hasc => ?_⟩
  · obtain ⟨rfl,-⟩ | ⟨x,rfl⟩ := upsert_cases hu <;> exact hw
  · obtain ⟨rfl,-⟩ | ⟨x,rfl⟩ := upsert_cases hu <;> exact ha
  · have hready : t.ready=s.ready := by obtain ⟨rfl,-⟩ | ⟨x,rfl⟩ := upsert_cases hu <;> rfl
    by_cases hjk : j=k
    · subst hjk
      refine .inl (hk ?_)
      obtain ⟨rfl,-⟩ | ⟨x,rfl⟩ := upsert_cases hu
      · exact hj
      · simpa [Dpevp.setEle] using hj
    · have hele : t.ele j=s.ele j := by
        obtain ⟨rfl,-⟩ | ⟨x,rfl⟩ := upsert_cases hu
        · rfl
        · simp [Dpevp.setEle,hjk]
      rw [hele] at hj hasc
      rw [hready]
      exact (hp j hjk hj hasc).imp_left (mem_upsert hu)

theorem prep_frame (e : Ele F.carrier) (asc : Asc) (sec : F.carrier) (mem : Bool) :
    (prep e asc sec mem).1.expire=e.expire ∧ (prep e asc sec mem).1.isTiming=e.isTiming ∧
      (prep e asc sec mem).1.type=e.type := by
  have hset : ∀ e : Ele F.carrier,(dpeleSetTimeout e sec mem).expire=e.expire ∧
      (dpeleSetTimeout e sec mem).isTiming=e.isTiming ∧ (dpeleSetTimeout e sec mem).type=e.type := fun e => by
    unfold dpeleSetTimeout
    split
    · exact ⟨rfl,rfl,rfl⟩
    · split <;> exact ⟨rfl,rfl,rfl⟩
  cases asc with
  | timeout v => exact hset _
  | callback cb =>
      unfold prep
      dsimp only
      split
      · exact ⟨rfl,rfl,rfl⟩
      · exact hset _
  | other => exact ⟨rfl,rfl,rfl⟩

/-- The seconds of an operation that is accepted get into tmr_spec. -/
theorem prep_after (sec : F.carrier) (mem : Bool) {e : Ele F.carrier} {asc : Asc} (htype : e.type=.tmr) (hasc : asc≠.other)
    (hr : (prep e asc sec mem).2=dpeContinue) (hneg : F.neg sec=false) (hmem : e.after.isSome ∨ mem=true) :
    (prep e asc sec mem).1.after=some sec := by
  have hset : ∀ e : Ele F.carrier,e.type=.tmr → (e.after.isSome ∨ mem=true) →
      (dpeleSetTimeout e sec mem).after=some sec := fun e ht hm => by
    have hnot : ¬(e.after.isNone=true ∧ (F.neg sec=true ∨ mem=false)) := by
      rintro ⟨hnone,hor⟩
      rcases hm with hsome | rfl
      · simp [Option.isNone_iff_eq_none.1 hnone] at hsome
      · simp [hneg] at hor
    rw [dpeleSetTimeout,if_neg (by rw [ht]; decide),if_neg hnot]
  cases asc with
  | timeout v => exact hset _ htype hmem
  | callback cb =>
      unfold prep at hr ⊢
      dsimp only at hr ⊢
      split at hr
      · exact absurd (show dpeInval=dpeContinue from hr) (by decide)
      · rename_i hvalid
        rw [if_neg hvalid]
        exact hset _ htype hmem
  | other => exact absurd rfl hasc

theorem inv_addvTmr {asc : Asc} {sec : F.carrier} {mem : Bool} (h : Inv s) (htype : (s.ele k).type=.tmr) (hasc : asc≠.other)
    (hf : fits s (.addv k asc sec mem)) (hs : addvTmr s k asc sec mem=some t) : Inv t := by
  obtain ⟨hexpire,htiming,-⟩ := prep_frame {s.ele k with asc := some asc} asc sec mem
  have hafter := prep_after sec mem (e := {s.ele k with asc := some asc}) htype hasc
  unfold addvTmr at hs
  rcases hprep : prep {s.ele k with asc := some asc} asc sec mem with ⟨e,r⟩
  rw [hprep] at hs hexpire htiming hafter
  dsimp only at hs hexpire htiming hafter
  split at hs
  · -- DPE_INVAL
    cases hs
    exact inv_setEle h htiming (.inl hexpire) (fun _ hsome => absurd hsome (by simp))
  · rename_i hr
    obtain ⟨u,hu,rfl⟩ := Option.map_eq_some_iff.1 hs
    have hin : k∈u.timer := by
      have hnot : ¬refused s k asc := by
        rintro ⟨rfl,hdata⟩
        simp only [prep,hdata,and_self,if_true] at hprep
        cases hprep
        exact hr (by decide)
      rcases (hf.resolve_left hnot).1 with hold | ⟨hneg,hmem⟩
      · exact mem_upsert hu ((h.tree.timing k).1 hold)
      · obtain ⟨-,hall⟩ | ⟨x,rfl⟩ := upsert_cases hu
        · have := hall sec (by simp [Dpevp.setEle,hafter (not_not.1 hr) hneg hmem])
          rw [hneg] at this
          exact absurd this (by decide)
        · simp
    have htree : Tree (s.setEle k {e with ret := dpeInprogress}) := tree_setEle h.tree htiming (.inl hexpire)
    have hinv : Inv u := inv_upsert htree h.waits h.added
      (fun j hjk hj hasc => by
        simp only [Dpevp.setEle,Function.update_of_ne hjk] at hj hasc
        exact h.pending j hj hasc) hu (fun _ => hin)
    refine ⟨hinv.tree.congr rfl rfl rfl,hinv.waits,fun x hx => ?_,hinv.pending⟩
    rcases List.mem_append.1 hx with hx | hx
    · exact hinv.added x hx
    · rw [List.mem_singleton.1 hx]
      exact decide_eq_true hin

theorem inv_addvOther {r : Dpret} (h : Inv s) (htype : (s.ele k).type≠.tmr) (hs : addvOther s k r=some t) : Inv t := by
  have hset : ∀ (asc : Option Asc) (ret : Dpret),Inv (s.setEle k {s.ele k with asc := asc, ret := ret}) := fun asc ret =>
    inv_setEle h rfl (.inl rfl) (fun ht => absurd ht htype)
  unfold addvOther at hs
  dsimp only at hs
  split at hs
  · cases hs
    exact inv_push (hset (some .other) r) k
  · split at hs
    · have hinv := hset (some .other) dpeInprogress
      refine inv_upsert hinv.tree hinv.waits hinv.added (fun j _ => hinv.pending j) hs (fun ht => absurd ht ?_)
      simpa [Dpevp.setEle] using htype
    · cases hs
      exact hset none r

theorem remove_frame (s : Dpevp F.carrier κ) (k : κ) : (dptmrsetRemove s k).ready=s.ready ∧
    (dptmrsetRemove s k).waits=s.waits ∧ (dptmrsetRemove s k).added=s.added ∧
    (∀ j,((dptmrsetRemove s k).ele j).type=(s.ele j).type ∧ ((dptmrsetRemove s k).ele j).asc=(s.ele j).asc) ∧
    ∀ j≠k,j∈s.timer → j∈(dptmrsetRemove s k).timer := by
  unfold dptmrsetRemove
  split
  · refine ⟨rfl,rfl,rfl,fun j => ?_,fun j hjk hj => ?_⟩
    · by_cases hjk : j=k
      · subst hjk
        simp [Dpevp.setEle]
      · simp [Dpevp.setEle,hjk]
    · simp [hjk,hj]
  · exact ⟨rfl,rfl,rfl,fun j => ⟨rfl,rfl⟩,fun _ _ hj => hj⟩

/-- An element that is taken out, and whose operation ends with that or is queued. -/
theorem inv_remove (h : Inv s) {ready : List κ} (hready : ∀ j∈s.ready,j∈ready)
    (htype : e.type=(s.ele k).type) (ht : e.isTiming=((dptmrsetRemove s k).ele k).isTiming)
    (he : e.expire=((dptmrsetRemove s k).ele k).expire) (hp : e.type=.tmr → e.asc.isSome → k∈ready) :
    Inv {(dptmrsetRemove s k).setEle k e with ready := ready} := by
  obtain ⟨hr,hw,ha,hele,hmem⟩ := remove_frame s k
  refine ⟨(tree_setEle (tree_remove h.tree k) ht (.inl he)).congr rfl rfl rfl,?_,?_,fun j hj hasc => ?_⟩
  · exact fun w hx => h.waits w (hw ▸ hx)
  · exact fun x hx => h.added x (ha ▸ hx)
  · by_cases hjk : j=k
    · subst hjk
      simp only [Dpevp.setEle,Function.update_self] at hj hasc
      exact .inr (hp hj hasc)
    · simp only [Dpevp.setEle,Function.update_of_ne hjk] at hj hasc
      rw [(hele j).1] at hj
      rw [(hele j).2] at hasc
      exact (h.pending j hj hasc).imp (hmem j hjk) (hready j)

theorem inv_end (h : Inv s) (k : κ) (ret : Dpret) : Inv (dpevpEnd s k ret) := by
  obtain ⟨hr,-,-,hele,-⟩ := remove_frame s k
  have hqueue : Inv {(dptmrsetRemove s k).setEle k {(dptmrsetRemove s k).ele k with ret := ret} with
      ready := (dptmrsetRemove s k).ready++[k]} :=
    inv_remove h (fun j hj => List.mem_append_left _ (hr ▸ hj)) (hele k).1 rfl rfl (fun _ _ => by simp)
  unfold dpevpEnd
  split
  · exact h
  · dsimp only
    split
    · exact hqueue
    · exact hqueue
    · exact hqueue
    all_goals
      rename_i htype
      have hkeep := inv_remove (e := (dptmrsetRemove s k).ele k) h (fun j hj => hj) (hele k).1 rfl rfl
        (fun ht => by rw [htype] at ht; cases ht)
      have hsame : {(dptmrsetRemove s k).setEle k ((dptmrsetRemove s k).ele k) with ready := s.ready}=dptmrsetRemove s k := by
        simp [Dpevp.setEle,← hr]
      rw [hsame] at hkeep
      exact hkeep

theorem inv_eventOver (h : Inv s) (k : κ) (ret : Dpret) : Inv (eventOver s k ret) := by
  obtain ⟨hr,-,-,hele,-⟩ := remove_frame s k
  have hover := inv_remove (e := {(dptmrsetRemove s k).ele k with ret := ret, asc := none}) h (fun j hj => hj) (hele k).1 rfl rfl
    (fun _ hsome => absurd hsome (by simp))
  unfold eventOver
  dsimp only
  have hsame : {(dptmrsetRemove s k).setEle k {(dptmrsetRemove s k).ele k with ret := ret, asc := none} with ready := s.ready}=
      (dptmrsetRemove s k).setEle k {(dptmrsetRemove s k).ele k with ret := ret, asc := none} := by
    simp [Dpevp.setEle,← hr]
  rw [hsame] at hover
  exact hover

theorem inv_reapUsd (h : Inv s) : Inv (reapUsd s) := by
  unfold reapUsd
  split
  · exact h
  · rename_i k ready hready
    have htree : Tree (s.setEle k {s.ele k with asc := none}) := tree_setEle h.tree rfl (.inl rfl)
    refine ⟨htree.congr rfl rfl rfl,h.waits,h.added,fun j hj hasc => ?_⟩
    by_cases hjk : j=k
    · subst hjk
      simp [Dpevp.setEle] at hasc
    · simp only [Dpevp.setEle,Function.update_of_ne hjk] at hj hasc
      have hmem := h.pending j hj hasc
      rw [hready] at hmem
      exact hmem.imp_right fun hin => (List.mem_cons.1 hin).resolve_left hjk

theorem inv_reapTmr (h : Inv s) (hs : reapTmr s=some t) : Inv t := by
  unfold reapTmr at hs
  split at hs
  · cases hs
  · rename_i u k hfire
    have htree := tree_fire h.tree hfire
    obtain ⟨l,hl,-,rfl⟩ := expire_some hfire
    have hpending : ∀ j≠k,(s.ele j).type=.tmr → (s.ele j).asc.isSome → j∈l ∨ j∈s.ready := fun j hjk hj hasc => by
      have := h.pending j hj hasc
      rw [hl] at this
      exact this.imp_left fun hin => (List.mem_cons.1 hin).resolve_left hjk
    split at hs
    · rename_i htype
      cases hs
      refine ⟨htree,h.waits,h.added,fun j hj hasc => ?_⟩
      by_cases hjk : j=k
      · subst hjk
        rw [htype] at hj
        cases hj
      · simp only [Dpevp.setEle,Function.update_of_ne hjk] at hj hasc
        exact hpending j hjk hj hasc
    · cases hs
      refine ⟨tree_setEle htree rfl (.inl rfl),h.waits,h.added,fun j hj hasc => ?_⟩
      by_cases hjk : j=k
      · subst hjk
        simp [Dpevp.setEle] at hasc
      · simp only [Dpevp.setEle,Function.update_of_ne hjk] at hj hasc
        exact hpending j hjk hj hasc

theorem wrap_le {x : ℤ} (h : 1≤x) : wrap x≤x := by
  unfold wrap Int.bmod
  simp only [Nat.cast_pow,Nat.cast_ofNat]
  norm_num
  split <;> omega

theorem inv_wait (h : Inv s) {w : Wait} (hw : w.Right) : Inv {s with waits := s.waits++[w]} where
  tree := h.tree.congr rfl rfl rfl
  waits v hv := by
    rcases List.mem_append.1 hv with hv | hv
    · exact h.waits v hv
    · rw [List.mem_singleton.1 hv]
      exact hw
  added := h.added
  pending := h.pending

theorem inv_sleep {limited : Bool} {timeout : ℤ} (h : Inv s) (hf : fits s (.sleep limited timeout))
    (hs : sleep s limited timeout=some t) : Inv t := by
  unfold sleep at hs
  split at hs
  · cases hs
    exact inv_wait h ⟨by simp,by simp,fun h0 => h0⟩
  · rename_i hlimited
    have hhead := hf.resolve_left hlimited
    split at hs
    · cases hs
    · rename_i u hnone
      obtain ⟨w,rfl,hw⟩ := expire_none hnone
      cases hs
      have hinv : Inv {s with timerWaitms := w} := ⟨h.tree.congr rfl rfl rfl,h.waits,h.added,h.pending⟩
      refine inv_wait hinv ⟨fun e he => ?_,fun e he => ?_,fun h0 => ?_⟩
      all_goals dsimp only at *
      · obtain ⟨k,hk,rfl⟩ := Option.map_eq_some_iff.1 he
        obtain ⟨hlater,rfl⟩ := hw k hk
        refine ⟨hlater,hhead k hk,le_trans (wrap_le (le_max_left _ _)) ?_⟩
        exact max_le_max_left 1 (by omega)
      · obtain ⟨k,hk,rfl⟩ := Option.map_eq_some_iff.1 he
        obtain ⟨hlater,rfl⟩ := hw k hk
        have hpos := hhead k hk
        split
        · rename_i hbusy
          exact ⟨le_rfl,hpos.le,fun hb => by rw [hbusy] at hb; cases hb⟩
        · split
          · exact ⟨hpos.le,le_rfl,fun _ _ => hpos⟩
          · rename_i hlim
            have hlim' : ¬(timeout<0 ∨ _<timeout) := fun hor => hlim ⟨hpos.le,hor⟩
            rw [not_or,not_lt,not_lt] at hlim'
            exact ⟨hlim'.1,hlim'.2,fun _ hne => lt_of_le_of_ne hlim'.1 (Ne.symm hne)⟩
      · split
        · exact h0
        · split
          · rename_i hlim
            rcases hlim.2 with hneg | hlt
            · omega
            · exact hlt.le
          · exact le_rfl

theorem inv_step {a : Act F.carrier κ} (h : Inv s) (hf : fits s a) (hs : step s a=some t) : Inv t := by
  cases a with
  | new k type =>
      simp only [step] at hs
      split at hs
      · cases hs
      · rename_i hnot
        cases hs
        rw [not_or] at hnot
        have htiming : (s.ele k).isTiming=false := by
          rw [← Bool.not_eq_true,h.tree.timing k]
          exact hnot.1
        exact inv_setEle h htiming.symm (.inr hnot.1) (fun _ hsome => absurd hsome (by simp))
  | setTimeout k sec mem =>
      simp only [step] at hs
      cases hs
      obtain ⟨hexpire,htiming,-⟩ := prep_frame (s.ele k) (.timeout (s.ele k).data) sec mem
      have hasc : (dpeleSetTimeout (s.ele k) sec mem).asc=(s.ele k).asc ∧
          (dpeleSetTimeout (s.ele k) sec mem).type=(s.ele k).type := by
        unfold dpeleSetTimeout
        split
        · exact ⟨rfl,rfl⟩
        · split <;> exact ⟨rfl,rfl⟩
      refine inv_setEle h htiming (.inl hexpire) (fun ht hsome => ?_)
      rw [hasc.2] at ht
      rw [hasc.1] at hsome
      exact h.pending k ht hsome
  | addv k asc sec mem =>
      simp only [step] at hs
      split at hs
      · rename_i hok
        exact inv_addvTmr h hok.1 hok.2 hf hs
      · cases hs
  | addvOther k r =>
      simp only [step] at hs
      split at hs
      · rename_i hok
        exact inv_addvOther h hok.1 hs
      · cases hs
  | end_ k ret =>
      simp only [step] at hs
      cases hs
      exact inv_end h k ret
  | eventOver k ret =>
      simp only [step] at hs
      split at hs
      · cases hs
        exact inv_eventOver h k ret
      · cases hs
  | reapUsd =>
      simp only [step] at hs
      cases hs
      exact inv_reapUsd h
  | reapTmr => exact inv_reapTmr h hs
  | sleep limited timeout => exact inv_sleep h hf hs
  | clock now =>
      simp only [step] at hs
      cases hs
      exact ⟨h.tree.congr rfl rfl rfl,h.waits,h.added,h.pending⟩

end Steps

theorem inv_start : Inv ({} : Dpevp F.carrier κ) where
  tree := ⟨List.nodup_nil,List.Pairwise.nil,fun k => by simp,fun k => rfl,fun p k e t hp => by simp at hp⟩
  waits w hw := by simp at hw
  added x hx := by simp at hx
  pending k _ hasc := by simp at hasc

/-- In every run in which the seconds are not negative and the waits fit an int, timers are delivered once, in time and in
order, every pending one is in the tree, and no wait is longer than until the earliest of them. -/
theorem tmr_sound (F : Double) (κ : Type*) [LinearOrder κ] (s : Dpevp F.carrier κ)
    (h : Reach (step (F := F)) fits {} s) : Sound s :=
  Inv.sound (h.invariant inv_start fun _ _ _ hi hf hs => inv_step hi hf hs)

/-! Whole seconds, and three runs: a timer of a second, one of minus a second, and one of 2147500 seconds. -/

def wholeSeconds : Double where
  carrier := ℤ
  neg a := decide (a<0)
  deadline n a := if 0≤(n : ℤ)+a*1000 ∧ (n : ℤ)+a*1000<2^63 then some (n+a*1000) else none
  range n a e he := by
    split at he
    · rename_i h
      cases he
      exact h
    · cases he

def start : Dpevp wholeSeconds.carrier ℕ := {}
def second : List (Act wholeSeconds.carrier ℕ) := [.addv 0 (.timeout true) (1 : ℤ) true,.sleep false (-1)]
def minus : List (Act wholeSeconds.carrier ℕ) := [.addv 0 (.timeout true) (-1 : ℤ) true]
def long : List (Act wholeSeconds.carrier ℕ) := [.addv 0 (.timeout true) (2147500 : ℤ) true,.sleep false (-1)]

def after (l : List (Act wholeSeconds.carrier ℕ)) : Dpevp wholeSeconds.carrier ℕ := (exec step start l).getD start

theorem tmr_sound_second : (after second).waits.map (·.passed)=[990] ∧ Sound (after second) := by
  have hadd : step start (.addv 0 (.timeout true) (1 : ℤ) true)=some (after (second.take 1)) := rfl
  have hsleep : step (after (second.take 1)) (.sleep false (-1))=some (after second) := rfl
  refine ⟨rfl,tmr_sound wholeSeconds ℕ _ (.tail (.tail .refl ?_ hadd) ?_ hsleep)⟩
  · exact .inr ⟨.inr ⟨rfl,.inr rfl⟩,.inr rfl⟩
  · refine .inr fun k hk => ?_
    cases hk
    decide

/-- The first is pending for ever, and the wait for the other has no end. -/
theorem minus_long_unsound : (∃ s,exec step start minus=some s ∧ ¬Sound s) ∧
    ∃ s,exec step start long=some s ∧ s.waits.map (·.passed)=[-1] ∧ ¬Sound s := by
  refine ⟨⟨_,rfl,fun h => ?_⟩,_,rfl,rfl,fun h => ?_⟩
  · exact absurd (h.added (0,false) List.mem_cons_self) (by decide)
  · have hpassed := ((h.waits _ List.mem_cons_self).passed 2147500000 rfl).1
    exact absurd hpassed (by decide)

end Dpapp.TmrWait
