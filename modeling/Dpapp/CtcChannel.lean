import Dpapp.Machine
import Mathlib.Data.Nat.Bitwise

/-! # The CTC channels between the master and its workers (os/linux/dpevp_epoll.c)

Every worker has one channel in each direction. A channel is a private deque, a
deque that both threads use, a flag of the sending side and the sending side's
wake eventfd. A C function is modelled as the list of its accesses to memory the
other side can see; the threads interleave between any two of them. -/

namespace Dpapp.CtcChannel
open Dpapp.Machine

/-- `commit` runs from a worker to the master, `accept` from the master to a worker. -/
inductive Dir | commit | accept
  deriving DecidableEq, Repr

def Dir.back : Dir → Dir
  | .commit => .accept
  | .accept => .commit

@[simp] theorem Dir.back_back (d : Dir) : d.back.back=d := by cases d <;> rfl
@[simp] theorem Dir.back_ne (d : Dir) : d.back≠d := by cases d <;> decide
@[simp] theorem Dir.ne_back (d : Dir) : d≠d.back := by cases d <;> decide

/-! ### Wake eventfds -/

def ctcIncrFlag : ℕ := 0x0000000000000001
def ctcTakeFlag : ℕ := 0x0000000100000000
def ctcTakeMask : ℕ := 0xffffffff00000000
def ctcPushMask : ℕ := 0x00000000ffffffff

inductive Flag | incr | take
  deriving DecidableEq, Repr

def Flag.val : Flag → ℕ
  | .incr => ctcIncrFlag
  | .take => ctcTakeFlag

def eventfdMax : ℕ := 0xfffffffffffffffe

/- EFD_NONBLOCK: a write that would pass the maximum fails with EAGAIN and adds nothing;
a read of zero fails with EAGAIN and leaves the caller's buffer as it was. -/
def eventfdWrite (count v : ℕ) : ℕ := if count+v≤eventfdMax then count+v else count
def eventfdRead (count buf : ℕ) : ℕ × ℕ := if count=0 then (0,buf) else (0,count)

/-! ### Channel state -/

/-- Which thread may use a channel's shared deque. -/
inductive Side | sender | receiver
  deriving DecidableEq, Repr

/- For `commit`: commiting_ctcs, commited_ctcs, is_request_ctc, commit_wake.
For `accept`: accepting_ctcs, accepted_ctcs, is_respond_ctc, accept_wake. -/
structure Chan (α : Type*) where
  sending : List α := []
  shared : List α := []
  isIdle : Bool := true
  wake : ℕ := 0

/- The guard of the source (linked to a neighbour, or the head of this very deque)
recognises an element that this deque holds. -/
def deqPushBack {α : Type*} [DecidableEq α] (dq : List α) (ele : α) : List α :=
  if ele∈dq then dq else dq++[ele]

/-- The accesses of the channel functions, one constructor each. -/
inductive Op (ι α : Type*)
  | push (i : ι) (d : Dir) (ctc : α)
  | pushShared (i : ι) (d : Dir) (ctc : α)
  | pushSending (i : ι) (d : Dir) (ctc : α)
  | move (i : ι) (d : Dir)
  | moved (i : ι) (d : Dir)
  | take (i : ι) (d : Dir)
  | notify (i : ι) (w : Dir) (f : Flag)

/-- The master is `none`, worker `i` is `some i`. -/
abbrev Thread (ι : Type*) := Option ι

def sender {ι : Type*} (i : ι) : Dir → Thread ι
  | .commit => some i
  | .accept => none
def receiver {ι : Type*} (i : ι) (d : Dir) : Thread ι := sender i d.back

/- `pushed`, `entered`, `popped` and `turn` are history: what was appended to a channel, what
entered an engine's enter_ctcs (with the channel it came from), what was popped from there, and
which side the last notification handed the shared deque to. -/
structure Transport (ι α : Type*) where
  chan : ι → Dir → Chan α := fun _ _ => {}
  enterCtcs : Thread ι → List α := fun _ => []
  code : Thread ι → List (Op ι α) := fun _ => []
  batch : Thread ι → List (ι × Dir) := fun _ => []
  ctcEv : Thread ι → ℕ := fun _ => 0
  pushed : ι → Dir → List α := fun _ _ => []
  entered : Thread ι → List (Option (ι × Dir) × α) := fun _ => []
  popped : Thread ι → List α := fun _ => []
  turn : ι → Dir → Side := fun _ _ => .sender

variable {ι α : Type*} [DecidableEq ι] [DecidableEq α]

def set2 {γ : Type*} (f : ι → Dir → γ) (i : ι) (d : Dir) (x : γ) : ι → Dir → γ :=
  fun j e => if j=i ∧ e=d then x else f j e

@[simp] theorem set2_self {γ : Type*} (f : ι → Dir → γ) (i : ι) (d : Dir) (x : γ) :
    set2 f i d x i d=x := by simp [set2]
theorem set2_ne {γ : Type*} (f : ι → Dir → γ) {i j : ι} {d e : Dir} (x : γ) (h : ¬(j=i ∧ e=d)) :
    set2 f i d x j e=f j e := by simp only [set2,h,ite_false]
@[simp] theorem set2_back {γ : Type*} (f : ι → Dir → γ) (i : ι) (d : Dir) (x : γ) :
    set2 f i d x i d.back=f i d.back := by simp [set2]
@[simp] theorem set2_back' {γ : Type*} (f : ι → Dir → γ) (i : ι) (d : Dir) (x : γ) :
    set2 f i d.back x i d=f i d := by simp [set2]

/-! ### The channel functions -/

def moveCtc (i : ι) (d : Dir) : List (Op ι α) := [.move i d,.moved i d]
def workerMoveAcceptCtc (i : ι) : List (Op ι α) := moveCtc i .accept
def workerMoveCommitCtc (i : ι) : List (Op ι α) := moveCtc i .commit

def pushCtc (i : ι) (d : Dir) (ctc : α) : List (Op ι α) := [.push i d ctc]
def workerPushCommitCtc (i : ι) (ctc : α) : List (Op ι α) := pushCtc i .commit ctc
def workerPushAcceptCtc (i : ι) (ctc : α) : List (Op ι α) := pushCtc i .accept ctc

def takeCtc (i : ι) (d : Dir) : List (Op ι α) := [.take i d,.notify i d.back .take]
def workerTakeCommitCtc (i : ι) : List (Op ι α) := takeCtc i .commit
def workerTakeAcceptCtc (i : ι) : List (Op ι α) := takeCtc i .accept

/-- What a reap does with the sum it read from wake `w` of worker `i`. -/
def reapWake (i : ι) (w : Dir) (ctcEv : ℕ) : List (Op ι α) :=
  (if ctcEv &&& ctcTakeMask≠0 then moveCtc i w.back else [])++
    (if ctcEv &&& ctcPushMask≠0 then takeCtc i w else [])
def workerReapWake (i : ι) (ctcEv : ℕ) : List (Op ι α) := reapWake i .accept ctcEv
def masterReapWake (i : ι) (ctcEv : ℕ) : List (Op ι α) := reapWake i .commit ctcEv

/-- One access, and the accesses of the same function that follow from what it saw. -/
def execOp (s : Transport ι α) : Op ι α → Transport ι α × List (Op ι α)
  | .push i d ctc =>
      let c := s.chan i d
      if c.isIdle then
        ({s with chan := set2 s.chan i d {c with isIdle := false}},[.pushShared i d ctc,.notify i d .incr])
      else (s,[.pushSending i d ctc])
  | .pushShared i d ctc =>
      let c := s.chan i d
      ({s with
        chan := set2 s.chan i d {c with shared := deqPushBack c.shared ctc}
        pushed := if ctc∈c.shared then s.pushed else set2 s.pushed i d (s.pushed i d++[ctc])},[])
  | .pushSending i d ctc =>
      let c := s.chan i d
      ({s with
        chan := set2 s.chan i d {c with sending := deqPushBack c.sending ctc}
        pushed := if ctc∈c.sending then s.pushed else set2 s.pushed i d (s.pushed i d++[ctc])},[])
  | .move i d =>
      let c := s.chan i d
      ({s with chan := set2 s.chan i d {c with shared := c.sending, sending := []}},[])
  | .moved i d =>
      let c := s.chan i d
      if c.shared≠[] then (s,[.notify i d .incr])
      else ({s with chan := set2 s.chan i d {c with isIdle := true}},[])
  | .take i d =>
      let c := s.chan i d
      let t := receiver i d
      ({s with
        chan := set2 s.chan i d {c with shared := []}
        enterCtcs := Function.update s.enterCtcs t (s.enterCtcs t++c.shared)
        entered := Function.update s.entered t (s.entered t++c.shared.map (some (i,d),·))},[])
  | .notify i w f =>
      let c := s.chan i w
      ({s with
        chan := set2 s.chan i w {c with wake := eventfdWrite c.wake f.val}
        turn := if c.wake+f.val≤eventfdMax then
            match f with
            | .incr => set2 s.turn i w .receiver
            | .take => set2 s.turn i w.back .sender
          else s.turn},[])

/- `wait` is epoll_wait: it harvests wakes whose counter is positive (the kernel checks the
counter again when it reports), any of them and in any order. `reap` handles the next one. -/
inductive Act (ι α : Type*)
  | push (i : ι) (d : Dir) (ctc : α)
  | enter (t : Thread ι) (ctc : α)
  | pop (t : Thread ι)
  | wait (t : Thread ι) (b : List (ι × Dir))
  | reap (t : Thread ι)
  | exec (t : Thread ι)

def reads (t : Thread ι) (s : Transport ι α) (p : ι × Dir) : Prop :=
  receiver p.1 p.2=t ∧ (s.chan p.1 p.2).wake≠0

instance (t : Thread ι) (s : Transport ι α) (p : ι × Dir) : Decidable (reads t s p) :=
  inferInstanceAs (Decidable (_ ∧ _))

def step (s : Transport ι α) : Act ι α → Option (Transport ι α)
  | .push i d ctc =>
      if s.code (sender i d)=[] then
        some {s with code := Function.update s.code (sender i d) (pushCtc i d ctc)}
      else none
  | .enter t ctc =>
      if s.code t=[] then
        if ctc∈s.enterCtcs t then some s
        else some {s with
          enterCtcs := Function.update s.enterCtcs t (deqPushBack (s.enterCtcs t) ctc)
          entered := Function.update s.entered t (s.entered t++[(none,ctc)])}
      else none
  | .pop t =>
      match s.code t,s.enterCtcs t with
      | [],ctc::rest => some {s with
          enterCtcs := Function.update s.enterCtcs t rest
          popped := Function.update s.popped t (s.popped t++[ctc])}
      | _,_ => none
  | .wait t b =>
      if s.code t=[] ∧ s.batch t=[] ∧ b≠[] ∧ b.Nodup ∧ ∀ p∈b,reads t s p then
        some {s with batch := Function.update s.batch t b}
      else none
  | .reap t =>
      match s.code t,s.batch t with
      | [],(i,w)::b =>
          let c := s.chan i w
          let r := eventfdRead c.wake (s.ctcEv t)
          some {s with
            chan := set2 s.chan i w {c with wake := r.1}
            ctcEv := Function.update s.ctcEv t r.2
            batch := Function.update s.batch t b
            code := Function.update s.code t (reapWake i w r.2)}
      | _,_ => none
  | .exec t =>
      match s.code t with
      | op::rest =>
          let r := execOp s op
          some {r.1 with code := Function.update r.1.code t (r.2++rest)}
      | [] => none

end Dpapp.CtcChannel
