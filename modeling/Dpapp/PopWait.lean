import Dpapp.AscAdd
import Dpapp.CtcLife
import Dpapp.TieOrder

/-! # dpevp_pop and its last look before it sleeps (os/linux/dpevp_epoll.c)

One engine, with the loop of dpevp_pop over its four reap functions. Whatever
runs inside a prep or post function, or between two calls of dpevp_pop, is any
sequence of API calls; a wake eventfd brings the CTCs of other threads. -/

set_option linter.unusedSectionVars false

namespace Dpapp.PopWait
open Dpapp.Machine Dpapp.Ret
open Dpapp.AscAdd (EleType)
open Dpapp.CtcChannel (Thread deqPushBack)
open Dpapp.CtcLife (Stat Loc)

/-- `asc` tells whether the pending operation has a post function, `want` whether want_events has a bit;
`after` is the time of tmr_spec. -/
structure Ele (ι : Type*) where
  type : EleType := .usd
  aio : Bool := false
  asc : Option Bool := none
  isDetach : Bool := false
  want : Bool := false
  isTiming : Bool := false
  after : Option ℤ := none
  expire : ℤ := 0
  refc : ℤ := 1
  ret : Dpret := 0
  stat : Stat := .initial
  toid : Thread ι := none
  fromid : Thread ι := none
  isReto : Bool := false

def dpeleIsDoing {ι : Type*} (e : Ele ι) : Bool := e.asc.isSome

/-- What epoll_wait has reported: a wake eventfd with the CTCs it stands for, or an EFD. -/
inductive Event (κ : Type*)
  | wake (ctcs : List κ)
  | efd (k : κ)

/-- Where the thread is: outside of dpevp_pop, about to call reap function 0 to 3, inside a post function that
`_dpefd_feed`, `_worker_reap_ctc` or `_dpele_asc_over` runs, or about to call epoll_wait. -/
inductive Pc (κ : Type*)
  | out
  | phase (i : ℕ)
  | feed (k : κ)
  | ctcPost (k : κ)
  | over (i : ℕ) (k : κ)
  | wait (timeout : ℤ)
  deriving DecidableEq

structure Dpevp (ι κ : Type*) where
  ele : κ → Ele ι := fun _ => {}
  timer : List κ := []
  timerWaitms : ℤ := 0
  ready : List κ := []
  enterCtcs : List κ := []
  evs : List (Event κ) := []
  popLimit : ℕ := 0
  timeout : ℤ := 0
  pc : Pc κ := .out
  now : ℤ := 0

variable {ι κ : Type*} [DecidableEq ι] [LinearOrder κ]

def Dpevp.setEle (s : Dpevp ι κ) (k : κ) (e : Ele ι) : Dpevp ι κ := {s with ele := Function.update s.ele k e}

/-! ### Timers -/

/-- `_dpele_tmrspec_compare` -/
def tmrLe (ele : κ → Ele ι) (a b : κ) : Prop := toLex ((ele a).expire,a)≤toLex ((ele b).expire,b)

instance (ele : κ → Ele ι) : DecidableRel (tmrLe ele) := fun _ _ => inferInstanceAs (Decidable (_≤_))

/-- `_dptmrset_upsert` -/
def dptmrsetUpsert (s : Dpevp ι κ) (k : κ) : Dpevp ι κ :=
  match (s.ele k).after with
  | none => s
  | some after =>
      if after<0 then s
      else
        let s := s.setEle k {s.ele k with expire := s.now+after, isTiming := true}
        {s with timer := (s.timer.filter (·≠k)).orderedInsert (tmrLe s.ele) k}

def dptmrsetRemove (s : Dpevp ι κ) (k : κ) : Dpevp ι κ :=
  if (s.ele k).isTiming then
    {s.setEle k {s.ele k with isTiming := false} with timer := s.timer.filter (·≠k)}
  else s

/-! ### The engine's own queues -/

def pushReady (s : Dpevp ι κ) (k : κ) : Dpevp ι κ := {s with ready := deqPushBack s.ready k}

/-- commit_ctc_f and finish_ctc_f: what goes to another thread leaves this engine. -/
def sendCtc (self : Thread ι) (s : Dpevp ι κ) (k : κ) (loc : Loc ι) : Dpevp ι κ :=
  if loc=.enter self then {s with enterCtcs := deqPushBack s.enterCtcs k} else s

def ctcOf (e : Ele ι) : CtcLife.Ele ι := {toid := e.toid, fromid := e.fromid}

def commitCtcF (self : Thread ι) (s : Dpevp ι κ) (k : κ) : Dpevp ι κ :=
  sendCtc self s k (CtcLife.commitCtcF self (ctcOf (s.ele k)))

def finishCtcF (self : Thread ι) (s : Dpevp ι κ) (k : κ) : Dpevp ι κ :=
  sendCtc self s k (CtcLife.finishCtcF self (ctcOf (s.ele k)))

/-! ### dpevp_pop -/

def dpevpReapLimit : ℕ := 32

/-- The element is returned to the caller. -/
def handOut (s : Dpevp ι κ) (i : ℕ) : Dpevp ι κ :=
  {s with pc := .out, popLimit := if i=0 then s.popLimit else s.popLimit+1}

/-- `_dpele_asc_over` returns false: the element is deleted, or detached. -/
def dropped (e : Ele ι) : Prop := e.refc≤0 ∨ e.isDetach=true

instance (e : Ele ι) : Decidable (dropped e) := inferInstanceAs (Decidable (_ ∨ _))

/-- The end of `_dpele_asc_over`. -/
def overEnd (s : Dpevp ι κ) (i : ℕ) (k : κ) : Dpevp ι κ :=
  if dropped (s.ele k) then {s with pc := .phase i} else handOut s i

/-- `_dpele_asc_over`, up to the post function if it runs one. -/
def dpeleAscOver (s : Dpevp ι κ) (i : ℕ) (k : κ) : Dpevp ι κ :=
  let e := s.ele k
  if e.type=.efd ∨ e.aio then overEnd (s.setEle k {e with want := false, asc := none}) i k
  else if e.type=.ctc ∧ e.stat=.running ∧ e.asc=some false then handOut s i
  else
    let s := s.setEle k {e with want := false, asc := none}
    if e.asc=some true then {s with pc := .over i k} else overEnd s i k

/-- After the loops. -/
def sleep (s : Dpevp ι κ) : Dpevp ι κ :=
  let timeout := if dpevpReapLimit≤ s.popLimit ∨ s.ready≠[] then 0
    else if 0≤ s.timerWaitms ∧ (s.timeout<0 ∨ s.timerWaitms<s.timeout) then s.timerWaitms
    else s.timeout
  {s with popLimit := 0, pc := .wait timeout}

/-- The loop goes on with reap function `i`. -/
def turn (s : Dpevp ι κ) (i : ℕ) : Dpevp ι κ :=
  if i<4 ∧ s.popLimit<dpevpReapLimit then {s with pc := .phase i} else sleep s

/-- `_worker_reap_efd`, `_master_reap_efd` -/
def reapEfd (s : Dpevp ι κ) : Dpevp ι κ :=
  match s.evs with
  | [] => turn s 1
  | .wake ctcs::evs => {s with evs := evs, enterCtcs := s.enterCtcs++ctcs}
  | .efd k::evs =>
      if (s.ele k).want=true ∧ dpeleIsDoing (s.ele k) then {s with evs := evs, pc := .feed k} else {s with evs := evs}

/-- `_dpevp_reap_usd` -/
def reapUsd (s : Dpevp ι κ) : Dpevp ι κ :=
  match s.ready with
  | [] => turn s 2
  | k::ready => dpeleAscOver {s with ready := ready} 1 k

/-- `_dpctc_del` -/
def dpctcDel (e : Ele ι) : Prop := dropped e

instance (e : Ele ι) : Decidable (dpctcDel e) := inferInstanceAs (Decidable (dropped e))

/-- The default case of the reap functions for CTCs. -/
def reapDone (self : Thread ι) (s : Dpevp ι κ) (k : κ) : Dpevp ι κ :=
  if self=none ∧ (s.ele k).fromid≠none then s
  else
    let s := dptmrsetRemove s k
    if dpctcDel (s.ele k) then s else dpeleAscOver s 2 k

/-- `_worker_reap_ctc`, and `_master_reap_ctc` for `none`. -/
def reapCtc (self : Thread ι) (s : Dpevp ι κ) : Dpevp ι κ :=
  match s.enterCtcs with
  | [] => turn s 3
  | k::ctcs =>
      let s := {s with enterCtcs := ctcs}
      let e := s.ele k
      match e.stat with
      | .commit =>
          let s := s.setEle k {e with stat := .running}
          if self=none ∧ e.toid≠none then s else dpeleAscOver s 2 k
      | .cancel =>
          let s := s.setEle k {e with stat := .finish}
          if dpctcDel e then s else finishCtcF self s k
      | .running =>
          if self=none then reapDone self s k
          else if e.asc=some true then {s with pc := .ctcPost k}
          else dpeleAscOver s 2 k
      | .initial | .finish => reapDone self s k

/-- `_dpevp_reap_tmr` -/
def reapTmr (s : Dpevp ι κ) : Dpevp ι κ :=
  match s.timer with
  | [] => turn {s with timerWaitms := -1} 4
  | k::timer =>
      let e := s.ele k
      if s.now<e.expire then turn {s with timerWaitms := max 1 (e.expire-s.now-10)} 4
      else
        let e := {e with isTiming := false}
        let s : Dpevp ι κ := {s with timer := timer, timerWaitms := 0}
        match e.type with
        | .efd | .usd | .tmr => dpeleAscOver (s.setEle k {e with ret := dpeTime}) 3 k
        | .ctc => s.setEle k (if e.stat=.commit then {e with stat := .cancel, ret := dpeTime} else e)
        | .weak => s.setEle k e

def reap (self : Thread ι) (s : Dpevp ι κ) : ℕ → Dpevp ι κ
  | 0 => reapEfd s
  | 1 => reapUsd s
  | 2 => reapCtc self s
  | 3 => reapTmr s
  | _ => s

/-! ### API calls -/

/-- dpevp_addv from FINISH on. -/
def addFinish (s : Dpevp ι κ) (k : κ) (r : Dpret) : Dpevp ι κ :=
  if dpretIsok r then pushReady (s.setEle k {s.ele k with ret := r}) k
  else if r=dpeWait then dptmrsetUpsert (s.setEle k {s.ele k with ret := dpeInprogress}) k
  else s.setEle k {s.ele k with ret := r, asc := none}

/-- dpevp_addv, for what the prep function (and `_dpefd_wake`) returns; `want` is what is left of want_events
when an EFD waits. -/
def dpevpAddv (self : Thread ι) (s : Dpevp ι κ) (k : κ) (post allowDoing want : Bool) (r : Dpret) (toid : Thread ι) :
    Dpevp ι κ :=
  let e := s.ele k
  if dpeleIsDoing e ∧ allowDoing=false then s
  else
    let e := {e with asc := some post, want := if e.type=.efd ∧ r=dpeWait then want else e.want}
    if r≠dpeContinue then addFinish (s.setEle k e) k r
    else if e.type=.ctc then
      addFinish (commitCtcF self (s.setEle k {e with stat := .commit, toid := toid, fromid := self, isReto := false}) k) k dpeWait
    else addFinish (s.setEle k e) k dpeWait

def dpevpEnd (self : Thread ι) (s : Dpevp ι κ) (k : κ) (ret : Dpret) : Dpevp ι κ :=
  if dpeleIsDoing (s.ele k)=false ∨ (s.ele k).type=.ctc ∧ (s.ele k).fromid≠self then s
  else
    let s := dptmrsetRemove s k
    let e := s.ele k
    match e.type with
    | .efd => pushReady (s.setEle k {e with want := false, ret := ret}) k
    | .usd | .tmr => pushReady (s.setEle k {e with ret := ret}) k
    | .ctc => if e.stat=.commit then s.setEle k {e with stat := .cancel, ret := ret} else s
    | .weak => s

/-- dpevp_end_ctc_ -/
def dpevpEndCtc (self : Thread ι) (s : Dpevp ι κ) (k : κ) (err : Dpret) : Dpevp ι κ :=
  let e := s.ele k
  if e.type≠.ctc ∨ dpeleIsDoing e=false then s
  else if e.isReto then commitCtcF self (s.setEle k {e with ret := err, isReto := false, stat := .commit}) k
  else
    let s := s.setEle k {e with ret := err, stat := .finish}
    if e.isDetach then s else finishCtcF self s k

inductive Act (ι κ : Type*)
  | new (k : κ) (type : EleType) (aio : Bool)
  | ref (k : κ)
  | del (k : κ)
  | setDetach (k : κ) (b : Bool)
  | setTimeout (k : κ) (sec : ℤ)
  | reto (k : κ) (toid : Thread ι)
  | addv (k : κ) (post allowDoing want : Bool) (r : Dpret) (toid : Thread ι)
  | end_ (k : κ) (ret : Dpret)
  | endCtc (k : κ) (err : Dpret)
  | pop (timeout : ℤ)
  | reap
  | fed (r : Dpret)
  | back (r : Dpret)
  | epoll (evs : List (Event κ))
  | peer (k : κ) (e : Ele ι)
  | tick (d : ℕ)

/-- The thread runs the user's code. -/
def Pc.user : Pc κ → Bool
  | .out | .feed _ | .ctcPost _ | .over _ _ => true
  | .phase _ | .wait _ => false

/-- An API call, wherever the user's code runs. -/
def api (s : Dpevp ι κ) (t : Dpevp ι κ) : Option (Dpevp ι κ) := if s.pc.user then some t else none

def step (self : Thread ι) (s : Dpevp ι κ) : Act ι κ → Option (Dpevp ι κ)
  | .new k type aio =>
      if k∈s.timer ∨ k∈s.ready ∨ k∈s.enterCtcs then none else api s (s.setEle k {type := type, aio := aio})
  | .ref k => api s (s.setEle k {s.ele k with refc := (s.ele k).refc+1})
  | .del k => api s (s.setEle k {s.ele k with refc := (s.ele k).refc-1})
  | .setDetach k b => api s (if dpeleIsDoing (s.ele k) then s else s.setEle k {s.ele k with isDetach := b})
  | .setTimeout k sec =>
      api s (if (s.ele k).after=none ∧ sec<0 then s else s.setEle k {s.ele k with after := some sec})
  | .reto k toid => api s (if (s.ele k).stat=.running then s.setEle k {s.ele k with toid := toid, isReto := true} else s)
  | .addv k post allowDoing want r toid => api s (dpevpAddv self s k post allowDoing want r toid)
  | .end_ k ret => api s (dpevpEnd self s k ret)
  | .endCtc k err => api s (dpevpEndCtc self s k err)
  | .pop timeout => if s.pc=.out then some {s with timeout := timeout, pc := .phase 0} else none
  | .reap =>
      match s.pc with
      | .phase i => some (reap self s i)
      | _ => none
  -- `_dpefd_wake` on behalf of `_dpefd_feed` is done
  | .fed r =>
      match s.pc with
      | .feed k =>
          if r=dpeWait then some {s.setEle k {s.ele k with ret := dpeInprogress} with pc := .phase 0}
          else some (dpeleAscOver (dptmrsetRemove (s.setEle k {s.ele k with want := false, ret := r}) k) 0 k)
      | _ => none
  -- a post function returns
  | .back r =>
      match s.pc with
      | .ctcPost k =>
          some (finishCtcF self {s.setEle k {s.ele k with ret := r, asc := none, stat := .finish} with pc := .phase 2} k)
      | .over i k => some (overEnd (s.setEle k {s.ele k with ret := r}) i k)
      | _ => none
  | .epoll evs =>
      match s.pc with
      | .wait _ => some {s with evs := evs, pc := .out}
      | _ => none
  -- another thread, with a CTC it has
  | .peer k e =>
      if (s.ele k).type=.ctc ∧ e.type=.ctc ∧ e.expire=(s.ele k).expire ∧ e.isTiming=(s.ele k).isTiming then
        some (s.setEle k e)
      else none
  | .tick d =>
      match s.pc with
      | .wait _ => none
      | _ => some {s with now := s.now+d}

/-! ### The timer tree stays in order -/

section Timers
variable {s : Dpevp ι κ} {k : κ} {e : Ele ι}

def Sorted (s : Dpevp ι κ) : Prop := s.timer.Pairwise (tmrLe s.ele)

theorem expire_setEle_ne {j : κ} (h : j≠k) : ((s.setEle k e).ele j).expire=(s.ele j).expire := by
  simp [Dpevp.setEle,h]

theorem sorted_setEle (k : κ) (e : Ele ι) (hs : Sorted s) (he : e.expire=(s.ele k).expire ∨ k∉s.timer) :
    Sorted (s.setEle k e) := by
  refine TieOrder.pairwise_congr (fun j hj => ?_) hs
  by_cases hjk : j=k
  · subst hjk
    have hexpire : e.expire=(s.ele j).expire := he.resolve_right (not_not.mpr hj)
    simpa [Dpevp.setEle] using hexpire
  · exact expire_setEle_ne hjk

theorem sorted_upsert (hs : Sorted s) (k : κ) : Sorted (dptmrsetUpsert s k) := by
  unfold dptmrsetUpsert
  split
  · exact hs
  · split
    · exact hs
    · -- the element moves to the place of its new time
      exact TieOrder.pairwise_move (fun j hjk => expire_setEle_ne hjk) hs

theorem sorted_remove (hs : Sorted s) (k : κ) : Sorted (dptmrsetRemove s k) := by
  unfold dptmrsetRemove
  split
  · exact TieOrder.pairwise_leave (fun j hjk => expire_setEle_ne hjk) hs
  · exact hs

theorem sorted_send {self : Thread ι} (hs : Sorted s) (k : κ) (loc : Loc ι) : Sorted (sendCtc self s k loc) := by
  unfold sendCtc
  split <;> exact hs

theorem sorted_addFinish (hs : Sorted s) (k : κ) (r : Dpret) : Sorted (addFinish s k r) := by
  unfold addFinish
  split
  · exact sorted_setEle k _ hs (.inl rfl)
  · split
    · refine sorted_upsert ?_ k
      exact sorted_setEle k _ hs (.inl rfl)
    · exact sorted_setEle k _ hs (.inl rfl)

theorem sorted_addv {self : Thread ι} {post allowDoing want : Bool} {r : Dpret} {toid : Thread ι} (hs : Sorted s) :
    Sorted (dpevpAddv self s k post allowDoing want r toid) := by
  unfold dpevpAddv
  simp only
  split
  · exact hs
  · split
    · refine sorted_addFinish ?_ k r
      exact sorted_setEle k _ hs (.inl rfl)
    · split
      · refine sorted_addFinish (sorted_send ?_ k _) k dpeWait
        exact sorted_setEle k _ hs (.inl rfl)
      · refine sorted_addFinish ?_ k dpeWait
        exact sorted_setEle k _ hs (.inl rfl)

theorem sorted_end {self : Thread ι} {ret : Dpret} (hs : Sorted s) : Sorted (dpevpEnd self s k ret) := by
  have hr := sorted_remove hs k
  unfold dpevpEnd
  simp only
  split
  · exact hs
  · split
    · exact sorted_setEle k _ hr (.inl rfl)
    · exact sorted_setEle k _ hr (.inl rfl)
    · exact sorted_setEle k _ hr (.inl rfl)
    · split
      · exact sorted_setEle k _ hr (.inl rfl)
      · exact hr
    · exact hr

theorem sorted_endCtc {self : Thread ι} {err : Dpret} (hs : Sorted s) : Sorted (dpevpEndCtc self s k err) := by
  unfold dpevpEndCtc
  simp only
  split
  · exact hs
  · split
    · refine sorted_send ?_ k _
      exact sorted_setEle k _ hs (.inl rfl)
    · split
      · exact sorted_setEle k _ hs (.inl rfl)
      · refine sorted_send ?_ k _
        exact sorted_setEle k _ hs (.inl rfl)

end Timers

/-! ### What the last look finds -/

section Wait
variable {self : Thread ι} {s t : Dpevp ι κ} {k : κ}

/-- No timer of the tree has expired. -/
def NoneExpired (s : Dpevp ι κ) : Prop := ∀ k∈s.timer,s.now<(s.ele k).expire

/-- Nothing to do is left. -/
structure Idle (s : Dpevp ι κ) : Prop where
  ready : s.ready=[]
  enterCtcs : s.enterCtcs=[]
  timer : NoneExpired s

structure Inv (s : Dpevp ι κ) : Prop where
  sorted : Sorted s
  late : s.pc=.phase 3 → s.enterCtcs=[]
  asleep : ∀ timeout,s.pc=.wait timeout → timeout≠0 → Idle s

theorem inv_of_user (hs : Sorted s) (hu : s.pc.user=true) : Inv s where
  sorted := hs
  late h := by rw [h] at hu; cases hu
  asleep _ h := by rw [h] at hu; cases hu

theorem inv_of_phase {i : ℕ} (hs : Sorted s) (hp : s.pc=.phase i) (hlate : i=3 → s.enterCtcs=[]) : Inv s where
  sorted := hs
  late h := hlate (by rw [hp] at h; injection h)
  asleep _ h := by rw [hp] at h; cases h

theorem inv_sleep (hs : Sorted s) (h : s.popLimit<dpevpReapLimit → s.enterCtcs=[] ∧ NoneExpired s) : Inv (sleep s) where
  sorted := hs
  late hp := by cases hp
  asleep timeout hp hne := by
    injection hp with hp
    by_cases hbusy : dpevpReapLimit≤ s.popLimit ∨ s.ready≠[]
    · rw [if_pos hbusy] at hp
      exact (hne hp.symm).elim
    · obtain ⟨hlimit,hready⟩ := not_or.mp hbusy
      have hrest := h (not_le.mp hlimit)
      exact ⟨not_not.mp hready,hrest.1,hrest.2⟩

theorem inv_turn {i : ℕ} (hs : Sorted s) (h3 : i=3 → s.enterCtcs=[]) (h4 : 4≤ i → s.enterCtcs=[] ∧ NoneExpired s) :
    Inv (turn s i) := by
  unfold turn
  split
  · exact inv_of_phase hs rfl h3
  · rename_i hend
    refine inv_sleep hs fun hlimit => h4 ?_
    exact not_lt.mp fun hi => hend ⟨hi,hlimit⟩

theorem inv_handOut {i : ℕ} (hs : Sorted s) : Inv (handOut s i) := inv_of_user hs rfl

theorem inv_overEnd {i : ℕ} (hs : Sorted s) (hlate : i=3 → dropped (s.ele k) → s.enterCtcs=[]) : Inv (overEnd s i k) := by
  unfold overEnd
  split
  · rename_i hdrop
    exact inv_of_phase hs rfl fun hi => hlate hi hdrop
  · exact inv_handOut hs

theorem inv_ascOver {i : ℕ} (hs : Sorted s) (hlate : i=3 → s.enterCtcs=[]) (k : κ) : Inv (dpeleAscOver s i k) := by
  have hset : Sorted (s.setEle k {s.ele k with want := false, asc := none}) := sorted_setEle k _ hs (.inl rfl)
  unfold dpeleAscOver
  simp only
  split
  · exact inv_overEnd hset fun hi _ => hlate hi
  · split
    · exact inv_handOut hs
    · split
      · exact inv_of_user hset rfl
      · exact inv_overEnd hset fun hi _ => hlate hi

/-! ### One step -/

theorem inv_reapEfd (h : Inv s) (hp : s.pc=.phase 0) : Inv (reapEfd s) := by
  unfold reapEfd
  split
  · exact inv_turn h.sorted (fun h1 => by cases h1) fun h4 => by omega
  · exact inv_of_phase h.sorted hp fun h0 => by cases h0
  · split
    · exact inv_of_user h.sorted rfl
    · exact inv_of_phase h.sorted hp fun h0 => by cases h0

theorem inv_reapUsd (h : Inv s) : Inv (reapUsd s) := by
  unfold reapUsd
  split
  · exact inv_turn h.sorted (fun h2 => by cases h2) fun h4 => by omega
  · rename_i k ready _
    have hs : Sorted ({s with ready := ready} : Dpevp ι κ) := h.sorted
    exact inv_ascOver hs (fun h1 => by cases h1) k

theorem inv_reapDone (h : Sorted s) (hp : s.pc=.phase 2) : Inv (reapDone self s k) := by
  unfold reapDone
  split
  · exact inv_of_phase h hp fun h2 => by cases h2
  · have hr := sorted_remove h k
    have hpr : (dptmrsetRemove s k).pc=.phase 2 := by
      unfold dptmrsetRemove
      split <;> exact hp
    simp only
    split
    · exact inv_of_phase hr hpr fun h2 => by cases h2
    · exact inv_ascOver hr (fun h2 => by cases h2) k

@[simp] theorem pc_sendCtc (loc : Loc ι) : (sendCtc self s k loc).pc=s.pc := by
  unfold sendCtc
  split <;> rfl

theorem inv_reapCtc (h : Inv s) (hp : s.pc=.phase 2) : Inv (reapCtc self s) := by
  unfold reapCtc
  split
  · rename_i hnone
    exact inv_turn h.sorted (fun _ => hnone) fun h4 => by omega
  · rename_i k ctcs hcons
    have hs : Sorted ({s with enterCtcs := ctcs} : Dpevp ι κ) := h.sorted
    simp only
    split
    · have hrun := sorted_setEle k {s.ele k with stat := .running} hs (.inl rfl)
      split
      · exact inv_of_phase hrun hp fun h2 => by cases h2
      · exact inv_ascOver hrun (fun h2 => by cases h2) k
    · have hfin := sorted_setEle k {s.ele k with stat := .finish} hs (.inl rfl)
      split
      · exact inv_of_phase hfin hp fun h2 => by cases h2
      · exact inv_of_phase (sorted_send hfin k _) ((pc_sendCtc _).trans hp) fun h2 => by cases h2
    · split
      · exact inv_reapDone hs hp
      · split
        · exact inv_of_user hs rfl
        · exact inv_ascOver hs (fun h2 => by cases h2) k
    · exact inv_reapDone hs hp
    · exact inv_reapDone hs hp

theorem inv_reapTmr (h : Inv s) (hp : s.pc=.phase 3) : Inv (reapTmr s) := by
  have hlate := h.late hp
  unfold reapTmr
  split
  · rename_i hnone
    refine inv_turn h.sorted (fun h4 => by cases h4) fun _ => ⟨hlate,fun j hj => ?_⟩
    rw [show s.timer=[] from hnone] at hj
    cases hj
  · rename_i k timer hcons
    simp only
    split
    · -- the head is the first to expire
      rename_i hwait
      refine inv_turn h.sorted (fun h4 => by cases h4) fun _ => ⟨hlate,fun j hj => ?_⟩
      have hsorted := h.sorted
      rw [Sorted,hcons] at hsorted
      rw [show s.timer=k::timer from hcons] at hj
      obtain rfl | hj := List.mem_cons.mp hj
      · exact hwait
      · exact lt_of_lt_of_le hwait (TieOrder.key_le (fun i => (s.ele i).expire) (List.rel_of_pairwise_cons hsorted hj))
    · have hs : Sorted ({s with timer := timer, timerWaitms := 0} : Dpevp ι κ) := by
        have hsorted := h.sorted
        rw [Sorted,hcons] at hsorted
        exact hsorted.of_cons
      have hend : ∀ e : Ele ι,e.expire=(s.ele k).expire →
          Sorted (Dpevp.setEle {s with timer := timer, timerWaitms := 0} k e) :=
        fun e he => sorted_setEle k e hs (.inl he)
      have htime := inv_ascOver (i := 3) (hend {s.ele k with isTiming := false, ret := dpeTime} rfl) (fun _ => hlate) k
      split
      · exact htime
      · exact htime
      · exact htime
      · refine inv_of_phase (hend _ ?_) hp fun _ => hlate
        split <;> rfl
      · exact inv_of_phase (hend _ rfl) hp fun _ => hlate

theorem inv_reap (h : Inv s) : ∀ {i : ℕ},s.pc=.phase i → Inv (reap self s i)
  | 0,hp => inv_reapEfd h hp
  | 1,_ => inv_reapUsd h
  | 2,hp => inv_reapCtc h hp
  | 3,hp => inv_reapTmr h hp
  | _+4,_ => h

/-! ### API calls leave the thread where it is -/

@[simp] theorem pc_setEle (e : Ele ι) : (s.setEle k e).pc=s.pc := rfl

@[simp] theorem pc_upsert : (dptmrsetUpsert s k).pc=s.pc := by
  unfold dptmrsetUpsert
  split
  · rfl
  · split <;> rfl

@[simp] theorem pc_remove : (dptmrsetRemove s k).pc=s.pc := by
  unfold dptmrsetRemove
  split <;> rfl

@[simp] theorem pc_addFinish (r : Dpret) : (addFinish s k r).pc=s.pc := by
  unfold addFinish
  split
  · rfl
  · split
    · exact pc_upsert
    · rfl

@[simp] theorem pc_addv (post allowDoing want : Bool) (r : Dpret) (toid : Thread ι) :
    (dpevpAddv self s k post allowDoing want r toid).pc=s.pc := by
  unfold dpevpAddv
  simp only
  split
  · rfl
  · split
    · exact pc_addFinish r
    · split <;> simp [commitCtcF]

@[simp] theorem pc_end (ret : Dpret) : (dpevpEnd self s k ret).pc=s.pc := by
  unfold dpevpEnd
  simp only
  split
  · rfl
  · split
    · exact pc_remove
    · exact pc_remove
    · exact pc_remove
    · split <;> exact pc_remove
    · exact pc_remove

@[simp] theorem pc_endCtc (err : Dpret) : (dpevpEndCtc self s k err).pc=s.pc := by
  unfold dpevpEndCtc
  simp only
  split
  · rfl
  · split
    · exact pc_sendCtc _
    · split
      · rfl
      · exact pc_sendCtc _

theorem api_user {u : Dpevp ι κ} (h : api s t=some u) : s.pc.user=true ∧ t=u := by
  unfold api at h
  split at h
  · exact ⟨by assumption,Option.some.inj h⟩
  · cases h

theorem inv_api {u : Dpevp ι κ} (h : api s t=some u) (hs : Sorted t) (hp : t.pc=s.pc) : Inv u := by
  obtain ⟨hu,rfl⟩ := api_user h
  exact inv_of_user hs (by rw [hp]; exact hu)

/-- Inside a post function that the timer phase runs. -/
def inTmrPost (s : Dpevp ι κ) : Option κ :=
  match s.pc with
  | .over 3 k => some k
  | _ => none

/-- A post function that the timer phase runs, of an element that is not handed out, leaves no CTC in enter_ctcs. -/
def quiet (s : Dpevp ι κ) : Act ι κ → Prop
  | .back _ => ∀ k∈inTmrPost s,dropped (s.ele k) → s.enterCtcs=[]
  | _ => True

instance [DecidableEq κ] (s : Dpevp ι κ) : (a : Act ι κ) → Decidable (quiet s a)
  | .back _ => inferInstanceAs (Decidable (∀ k∈inTmrPost s,dropped (s.ele k) → s.enterCtcs=[]))
  | .new .. | .ref _ | .del _ | .setDetach .. | .setTimeout .. | .reto .. | .addv .. | .end_ .. | .endCtc .. | .pop _
  | .reap | .fed _ | .epoll _ | .peer .. | .tick _ => inferInstanceAs (Decidable True)

theorem step_inv {u : Dpevp ι κ} (a : Act ι κ) (h : Inv s) (hok : quiet s a) (hu : step self s a=some u) : Inv u := by
  have hs := h.sorted
  cases a with
  | new k type aio =>
    simp only [step] at hu
    split at hu
    · cases hu
    · rename_i hfresh
      exact inv_api hu (sorted_setEle k _ hs (.inr (not_or.mp hfresh).1)) rfl
  | ref k => exact inv_api hu (sorted_setEle k _ hs (.inl rfl)) rfl
  | del k => exact inv_api hu (sorted_setEle k _ hs (.inl rfl)) rfl
  | setDetach k b =>
    refine inv_api hu ?_ ?_
    · split
      · exact hs
      · exact sorted_setEle k _ hs (.inl rfl)
    · split <;> rfl
  | setTimeout k sec =>
    refine inv_api hu ?_ ?_
    · split
      · exact hs
      · exact sorted_setEle k _ hs (.inl rfl)
    · split <;> rfl
  | reto k toid =>
    refine inv_api hu ?_ ?_
    · split
      · exact sorted_setEle k _ hs (.inl rfl)
      · exact hs
    · split <;> rfl
  | addv k post allowDoing want r toid => exact inv_api hu (sorted_addv hs) (pc_addv ..)
  | end_ k ret => exact inv_api hu (sorted_end hs) (pc_end _)
  | endCtc k err => exact inv_api hu (sorted_endCtc hs) (pc_endCtc _)
  | pop timeout =>
    simp only [step] at hu
    split at hu
    · cases hu
      exact inv_of_phase hs rfl fun h0 => by cases h0
    · cases hu
  | reap =>
    simp only [step] at hu
    split at hu
    · rename_i hp
      cases hu
      exact inv_reap h hp
    · cases hu
  | fed r =>
    simp only [step] at hu
    split at hu
    · rename_i k hp
      split at hu
      · cases hu
        exact inv_of_phase (sorted_setEle k _ hs (.inl rfl)) rfl fun h0 => by cases h0
      · cases hu
        have hret := sorted_setEle k {s.ele k with want := false, ret := r} hs (.inl rfl)
        exact inv_ascOver (sorted_remove hret k) (fun h0 => by cases h0) k
    · cases hu
  | back r =>
    simp only [step] at hu
    split at hu
    · rename_i k hp
      cases hu
      have hfin := sorted_setEle k {s.ele k with ret := r, asc := none, stat := .finish} hs (.inl rfl)
      have hpc : Sorted ({s.setEle k {s.ele k with ret := r, asc := none, stat := .finish} with pc := .phase 2} :
          Dpevp ι κ) := hfin
      exact inv_of_phase (sorted_send hpc k _) (pc_sendCtc _) fun h2 => by cases h2
    · rename_i i k hp
      cases hu
      have hret := sorted_setEle k {s.ele k with ret := r} hs (.inl rfl)
      refine inv_overEnd hret fun hi hdrop => hok k ?_ ?_
      · subst hi
        rw [inTmrPost,hp]
        rfl
      · simpa [dropped,Dpevp.setEle] using hdrop
    · cases hu
  | epoll evs =>
    simp only [step] at hu
    split at hu
    · cases hu
      exact inv_of_user hs rfl
    · cases hu
  | peer k e =>
    simp only [step] at hu
    split at hu
    · rename_i hpeer
      cases hu
      have hexpire : ∀ j,((s.setEle k e).ele j).expire=(s.ele j).expire := fun j => by
        by_cases hjk : j=k
        · subst hjk
          simpa [Dpevp.setEle] using hpeer.2.2.1
        · simp [Dpevp.setEle,hjk]
      refine ⟨sorted_setEle k e hs (.inl hpeer.2.2.1),h.late,fun timeout hp hne => ?_⟩
      have hidle := h.asleep timeout hp hne
      refine ⟨hidle.ready,hidle.enterCtcs,fun j hj => ?_⟩
      rw [hexpire j]
      exact hidle.timer j hj
    · cases hu
  | tick d =>
    simp only [step] at hu
    split at hu
    · cases hu
    · rename_i hawake
      cases hu
      exact ⟨hs,h.late,fun timeout hp => (hawake timeout hp).elim⟩

theorem reach_inv (h : Reach (step self) quiet {} s) : Inv s := by
  refine h.invariant ?_ fun _ a _ => step_inv a
  exact inv_of_user List.Pairwise.nil rfl

/-- dpevp_pop blocks in epoll_wait only when the engine has nothing left to do. -/
theorem pop_sleeps_idle {timeout : ℤ} (h : Reach (step self) quiet {} s) (hp : s.pc=.wait timeout) (hne : timeout≠0) :
    s.ready=[] ∧ s.enterCtcs=[] ∧ ∀ k∈s.timer,s.now<(s.ele k).expire :=
  have hidle := (reach_inv h).asleep timeout hp hne
  ⟨hidle.ready,hidle.enterCtcs,hidle.timer⟩

end Wait

/-- A timer of a thousand milliseconds. -/
def armed : List (Act (Fin 1) (Fin 2)) :=
  [.new 0 .tmr false,.setTimeout 0 1000,.addv 0 false true false dpeContinue none,.pop (-1),.reap,.reap,.reap,.reap]

theorem pop_sleeps_idle_armed : ∃ s : Dpevp (Fin 1) (Fin 2),s.pc=.wait 990 ∧ s.timer=[0] ∧
    s.ready=[] ∧ s.enterCtcs=[] ∧ ∀ k∈s.timer,s.now<(s.ele k).expire := by
  have hrun : ((execOk (step (some 0)) quiet {} armed).any fun s => decide (s.pc=.wait 990 ∧ s.timer=[0]))=true := by
    decide +kernel
  obtain ⟨s,hs,hf⟩ := (Option.any_eq_true _ _).mp hrun
  obtain ⟨hp,ht⟩ := of_decide_eq_true hf
  exact ⟨s,hp,ht,pop_sleeps_idle (execOk_reach hs) hp (by decide)⟩

/-- The callback of a detached timer hands a CTC to its own thread. -/
def lateCtc : List (Act (Fin 1) (Fin 2)) :=
  [.new 0 .tmr false,.setDetach 0 true,.setTimeout 0 0,.addv 0 true true false dpeContinue none,.pop (-1),.reap,.reap,.reap,.reap,
    .new 1 .ctc false,.addv 1 true false false dpeContinue (some 0),.back 0,.reap]

/-- epoll_wait then blocks for good with the CTC in enter_ctcs. -/
theorem pop_sleeps_on_ctc : ¬∀ (s : Dpevp (Fin 1) (Fin 2)) (timeout : ℤ),Reach (step (some 0)) anyStep {} s →
    s.pc=.wait timeout → timeout≠0 → s.ready=[] ∧ s.enterCtcs=[] ∧ ∀ k∈s.timer,s.now<(s.ele k).expire := by
  intro hall
  have hrun : ((exec (step (some 0)) {} lateCtc).any fun s => decide (s.pc=.wait (-1) ∧ s.enterCtcs=[1]))=true := by
    decide +kernel
  obtain ⟨s,hs,hf⟩ := (Option.any_eq_true _ _).mp hrun
  obtain ⟨hp,hctc⟩ := of_decide_eq_true hf
  have := (hall s _ (exec_reach hs) hp (by decide)).2.1
  rw [hctc] at this
  cases this

end Dpapp.PopWait
