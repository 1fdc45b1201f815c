import Dpapp.CtcChannel
import Mathlib

set_option linter.unusedSectionVars false

namespace Dpapp.CtcTransport
open Dpapp.Machine Dpapp.CtcChannel

variable {ι α : Type*} [DecidableEq ι] [DecidableEq α]

/-! ### One channel, seen on its own -/

/- `incr` and `take` count the notifications about this channel that are in the two wakes;
`scode` and `rcode` are what its two threads still have to do on it. -/
structure View (ι α : Type*) where
  sending : List α
  shared : List α
  isIdle : Bool
  incr : ℕ
  take : ℕ
  scode : List (Op ι α)
  rcode : List (Op ι α)
  pushed : List α
  entered : List α
  turn : Side

/-- The channel an access is about. A TAKE travels in the wake of the other direction. -/
def key : Op ι α → ι × Dir
  | .push i d _ | .pushShared i d _ | .pushSending i d _ | .move i d | .moved i d | .take i d => (i,d)
  | .notify i w .incr => (i,w)
  | .notify i w .take => (i,w.back)

def thread : Op ι α → Thread ι
  | .push i d _ | .pushShared i d _ | .pushSending i d _ | .move i d | .moved i d => sender i d
  | .take i d => receiver i d
  | .notify i w _ => sender i w

def codeOf (code : List (Op ι α)) (i : ι) (d : Dir) : List (Op ι α) :=
  code.filter fun op => decide (key op=(i,d))

def enteredFrom (i : ι) (d : Dir) (log : List (Option (ι × Dir) × α)) : List α :=
  log.filterMap fun p => if p.1=some (i,d) then some p.2 else none

def incrs (count : ℕ) : ℕ := count%2^32
def takes (count : ℕ) : ℕ := count/2^32

def view (s : Transport ι α) (i : ι) (d : Dir) : View ι α where
  sending := (s.chan i d).sending
  shared := (s.chan i d).shared
  isIdle := (s.chan i d).isIdle
  incr := incrs (s.chan i d).wake
  take := takes (s.chan i d.back).wake
  scode := codeOf (s.code (sender i d)) i d
  rcode := codeOf (s.code (receiver i d)) i d
  pushed := s.pushed i d
  entered := enteredFrom i d (s.entered (receiver i d))
  turn := s.turn i d

/-- What an access can do to a channel. -/
inductive OpStep (i : ι) (d : Dir) (v : View ι α) : View ι α → Prop
  | pushIdle (ctc : α) (k : List (Op ι α)) : v.scode=.push i d ctc::k → v.isIdle=true →
      OpStep i d v {v with isIdle := false, scode := .pushShared i d ctc::.notify i d .incr::k}
  | pushBusy (ctc : α) (k : List (Op ι α)) : v.scode=.push i d ctc::k → v.isIdle=false →
      OpStep i d v {v with scode := .pushSending i d ctc::k}
  | pushShared (ctc : α) (k : List (Op ι α)) : v.scode=.pushShared i d ctc::k →
      OpStep i d v {v with
        shared := deqPushBack v.shared ctc, scode := k
        pushed := if ctc∈v.shared then v.pushed else v.pushed++[ctc]}
  | pushSending (ctc : α) (k : List (Op ι α)) : v.scode=.pushSending i d ctc::k →
      OpStep i d v {v with
        sending := deqPushBack v.sending ctc, scode := k
        pushed := if ctc∈v.sending then v.pushed else v.pushed++[ctc]}
  | notifyIncr (k : List (Op ι α)) : v.scode=.notify i d .incr::k →
      OpStep i d v {v with incr := v.incr+1, turn := .receiver, scode := k}
  | move (k : List (Op ι α)) : v.scode=.move i d::k →
      OpStep i d v {v with shared := v.sending, sending := [], scode := k}
  | movedSome (k : List (Op ι α)) : v.scode=.moved i d::k → v.shared≠[] →
      OpStep i d v {v with scode := .notify i d .incr::k}
  | movedNone (k : List (Op ι α)) : v.scode=.moved i d::k → v.shared=[] →
      OpStep i d v {v with isIdle := true, scode := k}
  | take (k : List (Op ι α)) : v.rcode=.take i d::k →
      OpStep i d v {v with shared := [], entered := v.entered++v.shared, rcode := k}
  | notifyTake (k : List (Op ι α)) : v.rcode=.notify i d.back .take::k →
      OpStep i d v {v with take := v.take+1, turn := .sender, rcode := k}

def View.start (v : View ι α) (i : ι) (d : Dir) (ctc : α) : View ι α := {v with scode := [.push i d ctc]}
def View.readIncr (v : View ι α) (i : ι) (d : Dir) : View ι α :=
  {v with incr := 0, rcode := if v.incr≠0 then takeCtc i d else []}
def View.readTake (v : View ι α) (i : ι) (d : Dir) : View ι α :=
  {v with take := 0, scode := if v.take≠0 then moveCtc i d else []}

/-- What one step of a thread can do to a channel. -/
inductive ViewStep (i : ι) (d : Dir) (v : View ι α) : View ι α → Prop
  | start (ctc : α) : v.scode=[] → ViewStep i d v (v.start i d ctc)
  | op {w : View ι α} : OpStep i d v w → ViewStep i d v w
  | readIncr : v.rcode=[] → ViewStep i d v (v.readIncr i d)
  | readTake : v.scode=[] → ViewStep i d v (v.readTake i d)

/-- A push the sending thread may be in the middle of while the receiver holds the shared deque. -/
inductive Pending (i : ι) (d : Dir) : List (Op ι α) → Prop
  | none : Pending i d []
  | push (ctc : α) : Pending i d [.push i d ctc]
  | pushSending (ctc : α) : Pending i d [.pushSending i d ctc]

/-- Where the shared deque is while the receiver has it, or has given it back unnoticed. -/
inductive Stage | posted | seen | taken | acked

def Stage.incr : Stage → ℕ
  | .posted => 1
  | _ => 0
def Stage.take : Stage → ℕ
  | .acked => 1
  | _ => 0
def Stage.rcode (i : ι) (d : Dir) : Stage → List (Op ι α)
  | .seen => [.take i d,.notify i d.back .take]
  | .taken => [.notify i d.back .take]
  | _ => []
def Stage.turn : Stage → Side
  | .acked => .sender
  | _ => .receiver
def Stage.full : Stage → Prop
  | .posted | .seen => True
  | _ => False

/- The phases of a channel. The shared deque belongs to the sender from `busy acked` on until
`filled`, and to the receiver from `busy posted` to `busy taken`. -/
inductive Phase (i : ι) (d : Dir) : View ι α → Prop
  | idle (e : List α) : Phase i d ⟨[],[],true,0,0,[],[],e,e,.sender⟩
  | starting (e : List α) (ctc : α) : Phase i d ⟨[],[],true,0,0,[.push i d ctc],[],e,e,.sender⟩
  | filling (e : List α) (ctc : α) :
      Phase i d ⟨[],[],false,0,0,[.pushShared i d ctc,.notify i d .incr],[],e,e,.sender⟩
  | filled (se sh e : List α) (hsh : sh≠[]) :
      Phase i d ⟨se,sh,false,0,0,[.notify i d .incr],[],e++sh++se,e,.sender⟩
  | busy (st : Stage) (se sh e : List α) (c : List (Op ι α)) (hc : Pending i d c) (hsh : sh≠[] ↔ st.full) :
      Phase i d ⟨se,sh,false,st.incr,st.take,c,st.rcode i d,e++sh++se,e,st.turn⟩
  | moving (se e : List α) : Phase i d ⟨se,[],false,0,0,[.move i d,.moved i d],[],e++se,e,.sender⟩
  | moved (sh e : List α) : Phase i d ⟨[],sh,false,0,0,[.moved i d],[],e++sh,e,.sender⟩

theorem phase_op {i : ι} {d : Dir} {v w : View ι α} (h : Phase i d v) (hs : OpStep i d v w) :
    Phase i d w := by
  cases hs with
  | pushIdle ctc k hc hi =>
    cases h with
    | starting e => cases hc; exact .filling e ctc
    | idle => cases hc
    | _ => cases hi
  | pushBusy ctc k hc hi =>
    cases h with
    | busy st se sh e c hp hsh => cases hp <;> cases hc; exact .busy st se sh e _ (.pushSending ctc) hsh
    | starting => cases hi
    | _ => cases hc
  | pushShared ctc k hc =>
    cases h with
    | filling e => cases hc; simpa [deqPushBack] using Phase.filled (i := i) (d := d) [] [ctc] e (by simp)
    | busy st se sh e c hp hsh => cases hp <;> cases hc
    | _ => cases hc
  | pushSending ctc k hc =>
    cases h with
    | busy st se sh e c hp hsh =>
      cases hp <;> cases hc
      by_cases hm : ctc∈se
      · simpa [deqPushBack,hm] using Phase.busy (i := i) (d := d) st se sh e [] .none hsh
      · simpa [deqPushBack,hm] using Phase.busy (i := i) (d := d) st (se++[ctc]) sh e [] .none hsh
    | _ => cases hc
  | notifyIncr k hc =>
    cases h with
    | filled se sh e hsh => cases hc; exact .busy .posted se sh e [] .none (by simpa [Stage.full] using hsh)
    | busy st se sh e c hp hsh => cases hp <;> cases hc
    | _ => cases hc
  | move k hc =>
    cases h with
    | moving se e => cases hc; exact .moved se e
    | busy st se sh e c hp hsh => cases hp <;> cases hc
    | _ => cases hc
  | movedSome k hc hne =>
    cases h with
    | moved sh e => cases hc; simpa using Phase.filled (i := i) (d := d) [] sh e hne
    | busy st se sh e c hp hsh => cases hp <;> cases hc
    | _ => cases hc
  | movedNone k hc he =>
    cases h with
    | moved sh e => cases hc; simp only at he; subst he; simpa using Phase.idle (i := i) (d := d) e
    | busy st se sh e c hp hsh => cases hp <;> cases hc
    | _ => cases hc
  | take k hc =>
    cases h with
    | busy st se sh e c hp hsh =>
      cases st <;> cases hc
      have hn := Phase.busy (i := i) (d := d) .taken se [] (e++sh) c hp (by simp [Stage.full])
      rw [List.append_nil] at hn
      exact hn
    | _ => cases hc
  | notifyTake k hc =>
    cases h with
    | busy st se sh e c hp hsh =>
      cases st <;> cases hc
      exact .busy .acked se sh e c hp hsh
    | _ => cases hc

theorem phase_step {i : ι} {d : Dir} {v w : View ι α} (h : Phase i d v) (hs : ViewStep i d v w) :
    Phase i d w := by
  cases hs with
  | op hs => exact phase_op h hs
  | start ctc hc =>
    cases h with
    | idle e => exact .starting e ctc
    | busy st se sh e c _ hsh => exact .busy st se sh e _ (.push ctc) hsh
    | _ => cases hc
  | readIncr hc =>
    cases h with
    | busy st se sh e c hp hsh =>
      cases st with
      | posted => exact .busy .seen se sh e c hp hsh
      | acked => exact .busy .acked se sh e c hp hsh
      | _ => cases hc
    | idle e => exact .idle e
    | starting e ctc => exact .starting e ctc
    | filling e ctc => exact .filling e ctc
    | filled se sh e hsh => exact .filled se sh e hsh
    | moving se e => exact .moving se e
    | moved sh e => exact .moved sh e
  | readTake hc =>
    cases h with
    | busy st se sh e c hp hsh =>
      simp only at hc
      subst hc
      cases st with
      | acked =>
        have he : sh=[] := by simpa [Stage.full] using hsh
        subst he
        rw [List.append_nil]
        exact .moving se e
      | posted => exact .busy .posted se sh e [] .none hsh
      | seen => exact .busy .seen se sh e [] .none hsh
      | taken => exact .busy .taken se sh e [] .none hsh
    | idle e => exact .idle e
    | _ => cases hc

/-! ### From the threads' steps to the channels -/

/-- What holds of the threads between the channels. -/
structure Threads (s : Transport ι α) : Prop where
  code : ∀ t, ∀ op∈s.code t,thread op=t
  batch : ∀ t, (s.batch t).Nodup ∧ ∀ p∈s.batch t,reads t s p

theorem sender_ne_receiver (i : ι) (d : Dir) : sender i d≠receiver i d := by
  cases d <;> simp [sender,receiver,Dir.back]

@[simp] theorem sender_back (i : ι) (d : Dir) : sender i d.back=receiver i d := rfl
@[simp] theorem receiver_back (i : ι) (d : Dir) : receiver i d.back=sender i d := by
  simp [receiver]

@[simp] theorem codeOf_nil (i : ι) (d : Dir) : codeOf ([] : List (Op ι α)) i d=[] := rfl

theorem codeOf_cons_self (op : Op ι α) (c : List (Op ι α)) (i : ι) (d : Dir) (h : key op=(i,d)) :
    codeOf (op::c) i d=op::codeOf c i d := by simp [codeOf,h]

theorem codeOf_cons_ne (op : Op ι α) (c : List (Op ι α)) (i : ι) (d : Dir) (h : key op≠(i,d)) :
    codeOf (op::c) i d=codeOf c i d := by simp [codeOf,h]

theorem codeOf_eq_self {k : List (Op ι α)} {i : ι} {d : Dir} (hk : ∀ op∈k,key op=(i,d)) :
    codeOf k i d=k := by
  rw [codeOf,List.filter_eq_self]
  intro op hop
  exact decide_eq_true (hk op hop)

theorem codeOf_eq_nil {k : List (Op ι α)} {i : ι} {d : Dir} (hk : ∀ op∈k,key op≠(i,d)) :
    codeOf k i d=[] := by
  rw [codeOf,List.filter_eq_nil_iff]
  intro op hop
  simpa using hk op hop

theorem codeOf_append (k c : List (Op ι α)) (i : ι) (d : Dir) :
    codeOf (k++c) i d=codeOf k i d++codeOf c i d := by simp [codeOf]

/-- An access leaves what the threads have to do on every other channel as it was. -/
theorem codeOf_exec_ne {code : Thread ι → List (Op ι α)} {t : Thread ι} {op : Op ι α} {k rest : List (Op ι α)}
    {j : ι} {e : Dir} (hc : code t=op::rest) (hk : ∀ o∈k,key o=key op) (hne : key op≠(j,e)) (t' : Thread ι) :
    codeOf (Function.update code t (k++rest) t') j e=codeOf (code t') j e := by
  by_cases ht : t'=t
  · subst ht
    rw [Function.update_self,codeOf_append,hc,codeOf_cons_ne op rest j e hne,
      codeOf_eq_nil (fun o ho => by rw [hk o ho]; exact hne),List.nil_append]
  · rw [Function.update_of_ne ht]

theorem codeOf_exec_self {code : Thread ι → List (Op ι α)} {t : Thread ι} {k rest : List (Op ι α)}
    {i : ι} {d : Dir} (hk : ∀ o∈k,key o=(i,d)) :
    codeOf (Function.update code t (k++rest) t) i d=k++codeOf rest i d := by
  rw [Function.update_self,codeOf_append,codeOf_eq_self hk]

theorem wake_set2 (f : ι → Dir → Chan α) {i : ι} {d : Dir} {c : Chan α} (h : c.wake=(f i d).wake)
    (j : ι) (e : Dir) : (set2 f i d c j e).wake=(f j e).wake := by
  by_cases hk : j=i ∧ e=d
  · obtain ⟨rfl,rfl⟩ := hk; rw [set2_self,h]
  · rw [set2_ne f c hk]

theorem enteredFrom_append (i : ι) (d : Dir) (log : List (Option (ι × Dir) × α)) (l : List α) :
    enteredFrom i d (log++l.map (some (i,d),·))=enteredFrom i d log++l := by
  simp [enteredFrom,List.filterMap_append,List.filterMap_map]

theorem enteredFrom_append_ne (i j : ι) (d e : Dir) (log : List (Option (ι × Dir) × α)) (l : List α)
    (h : (i,d)≠(j,e)) : enteredFrom j e (log++l.map (some (i,d),·))=enteredFrom j e log := by
  simp only [enteredFrom,List.filterMap_append,List.filterMap_map,Function.comp_def,Option.some.injEq,h,
    ite_false,List.filterMap_none,List.append_nil]

/-- The state after a step on the channels: only the fields a view reads. -/
theorem view_congr {s s' : Transport ι α} {j : ι} {e : Dir}
    (hc : s'.chan j e={s.chan j e with wake := (s'.chan j e).wake})
    (hw : incrs (s'.chan j e).wake=incrs (s.chan j e).wake)
    (hw' : takes (s'.chan j e.back).wake=takes (s.chan j e.back).wake)
    (hcode : ∀ t,codeOf (s'.code t) j e=codeOf (s.code t) j e) (hp : s'.pushed j e=s.pushed j e)
    (he : enteredFrom j e (s'.entered (receiver j e))=enteredFrom j e (s.entered (receiver j e)))
    (ht : s'.turn j e=s.turn j e) : view s' j e=view s j e := by
  simp only [view,hw,hw',hcode,hp,he,ht]
  rw [hc]

/-! ### Wakes -/

theorem phase_notes {i : ι} {d : Dir} {v : View ι α} (h : Phase i d v) : v.incr≤1 ∧ v.take≤1 := by
  cases h with
  | busy st => cases st <;> simp [Stage.incr,Stage.take]
  | _ => simp

def Phases (s : Transport ι α) : Prop := ∀ i d,Phase i d (view s i d)

/-- A wake holds at most one INCR of its own channel and one TAKE of the other. -/
theorem wake_bounds {s : Transport ι α} (hp : Phases s) (i : ι) (w : Dir) :
    incrs (s.chan i w).wake≤1 ∧ takes (s.chan i w).wake≤1 := by
  have hi := (phase_notes (hp i w)).1
  have ht := (phase_notes (hp i w.back)).2
  simp only [view,Dir.back_back] at hi ht
  exact ⟨hi,ht⟩

theorem wake_values {c : ℕ} (h : incrs c≤1 ∧ takes c≤1) :
    c=0 ∨ c=1 ∨ c=0x100000000 ∨ c=0x100000001 := by
  simp only [incrs,takes] at h
  omega

theorem write_incr {c : ℕ} (h : incrs c≤1 ∧ takes c≤1) : c+Flag.incr.val≤eventfdMax ∧
    incrs (eventfdWrite c Flag.incr.val)=incrs c+1 ∧ takes (eventfdWrite c Flag.incr.val)=takes c := by
  rcases wake_values h with rfl | rfl | rfl | rfl <;> decide

theorem write_take {c : ℕ} (h : incrs c≤1 ∧ takes c≤1) : c+Flag.take.val≤eventfdMax ∧
    incrs (eventfdWrite c Flag.take.val)=incrs c ∧ takes (eventfdWrite c Flag.take.val)=takes c+1 := by
  rcases wake_values h with rfl | rfl | rfl | rfl <;> decide

/-- The masks of a reap tell the two kinds of notification apart. -/
theorem reapWake_notes {c : ℕ} (h : incrs c≤1 ∧ takes c≤1) (i : ι) (w : Dir) :
    (reapWake i w c : List (Op ι α))=
      (if takes c≠0 then moveCtc i w.back else [])++(if incrs c≠0 then takeCtc i w else []) := by
  rcases wake_values h with rfl | rfl | rfl | rfl <;> rfl

/-! ### One step, every channel -/

theorem execOp_code (s : Transport ι α) (op : Op ι α) : (execOp s op).1.code=s.code := by
  cases op <;> simp only [execOp] <;> split <;> rfl

/-- The accesses that follow an access are on the same channel, by the same thread. -/
theorem execOp_rest (s : Transport ι α) (op : Op ι α) :
    ∀ o∈(execOp s op).2,key o=key op ∧ thread o=thread op := by
  intro o ho
  cases op with
  | push i d ctc =>
    simp only [execOp] at ho
    split at ho
    · rcases List.mem_pair.mp ho with rfl | rfl <;> exact ⟨rfl,rfl⟩
    · cases List.mem_singleton.mp ho; exact ⟨rfl,rfl⟩
  | moved i d =>
    simp only [execOp] at ho
    split at ho
    · cases List.mem_singleton.mp ho; exact ⟨rfl,rfl⟩
    · cases ho
  | _ => cases ho

/-- State after one access, and after what it still has to do is put back. -/
def execCode (s : Transport ι α) (t : Thread ι) (op : Op ι α) (rest : List (Op ι α)) : Transport ι α :=
  {(execOp s op).1 with code := Function.update s.code t ((execOp s op).2++rest)}

theorem exec_view_ne {s : Transport ι α} {t : Thread ι} {op : Op ι α} {rest : List (Op ι α)}
    (hp : Phases s) (hc : s.code t=op::rest) {j : ι} {e : Dir} (hne : key op≠(j,e)) :
    view (execCode s t op rest) j e=view s j e := by
  have hcode := codeOf_exec_ne hc (fun o ho => (execOp_rest s op o ho).1) hne
  have hb := fun i w => wake_bounds hp i w
  cases op with
  | push i d ctc =>
    have hne' : ¬(j=i ∧ e=d) := by rintro ⟨rfl,rfl⟩; exact hne rfl
    refine view_congr ?_ ?_ ?_ hcode ?_ ?_ ?_ <;> simp only [execCode,execOp] <;> split <;>
      simp [set2_ne _ _ hne',wake_set2]
  | pushShared i d ctc =>
    have hne' : ¬(j=i ∧ e=d) := by rintro ⟨rfl,rfl⟩; exact hne rfl
    refine view_congr ?_ ?_ ?_ hcode ?_ ?_ ?_ <;> simp only [execCode,execOp] <;> (try split) <;>
      simp [set2_ne _ _ hne',wake_set2]
  | pushSending i d ctc =>
    have hne' : ¬(j=i ∧ e=d) := by rintro ⟨rfl,rfl⟩; exact hne rfl
    refine view_congr ?_ ?_ ?_ hcode ?_ ?_ ?_ <;> simp only [execCode,execOp] <;> (try split) <;>
      simp [set2_ne _ _ hne',wake_set2]
  | move i d =>
    have hne' : ¬(j=i ∧ e=d) := by rintro ⟨rfl,rfl⟩; exact hne rfl
    refine view_congr ?_ ?_ ?_ hcode ?_ ?_ ?_ <;> simp [execCode,execOp,set2_ne _ _ hne',wake_set2]
  | moved i d =>
    have hne' : ¬(j=i ∧ e=d) := by rintro ⟨rfl,rfl⟩; exact hne rfl
    refine view_congr ?_ ?_ ?_ hcode ?_ ?_ ?_ <;> simp only [execCode,execOp] <;> split <;>
      simp [set2_ne _ _ hne',wake_set2]
  | take i d =>
    have hne' : ¬(j=i ∧ e=d) := by rintro ⟨rfl,rfl⟩; exact hne rfl
    refine view_congr ?_ ?_ ?_ hcode ?_ ?_ ?_ <;> simp only [execCode,execOp,set2_ne _ _ hne',wake_set2]
    by_cases hr : receiver j e=receiver i d
    · rw [hr,Function.update_self,enteredFrom_append_ne i j d e _ _ hne]
    · rw [Function.update_of_ne hr]
  | notify i w f =>
    have hw := wake_bounds hp i w
    cases f with
    | incr =>
      have hwr := write_incr hw
      have hne' : ¬(j=i ∧ e=w) := by rintro ⟨rfl,rfl⟩; exact hne rfl
      refine view_congr ?_ ?_ ?_ hcode ?_ ?_ ?_ <;> simp only [execCode,execOp,set2_ne _ _ hne',if_pos hwr.1]
      by_cases hk : j=i ∧ e.back=w
      · obtain ⟨rfl,rfl⟩ := hk; rw [set2_self]; exact hwr.2.2
      · rw [set2_ne _ _ hk]
    | take =>
      have hwr := write_take hw
      have hne' : ¬(j=i ∧ e=w.back) := by rintro ⟨rfl,rfl⟩; exact hne rfl
      have hne'' : ¬(j=i ∧ e.back=w) := by rintro ⟨rfl,rfl⟩; simp at hne'
      by_cases hk : j=i ∧ e=w
      · obtain ⟨rfl,rfl⟩ := hk
        refine view_congr ?_ ?_ ?_ hcode ?_ ?_ ?_ <;>
          simp only [execCode,execOp,set2_self,set2_ne _ _ hne',set2_ne _ _ hne'',if_pos hwr.1]
        exact hwr.2.1
      · refine view_congr ?_ ?_ ?_ hcode ?_ ?_ ?_ <;>
          simp only [execCode,execOp,set2_ne _ _ hk,set2_ne _ _ hne',set2_ne _ _ hne'',if_pos hwr.1]

/-- What the two threads of a channel have left after an access of its sender, or of its receiver. -/
theorem codeOf_sender {s : Transport ι α} {op : Op ι α} (rest : List (Op ι α)) {i : ι} {d : Dir}
    (hk : key op=(i,d)) :
    let code := Function.update s.code (sender i d) ((execOp s op).2++rest)
    codeOf (code (sender i d)) i d=(execOp s op).2++codeOf rest i d ∧
      codeOf (code (receiver i d)) i d=codeOf (s.code (receiver i d)) i d := by
  refine ⟨codeOf_exec_self fun o ho => ((execOp_rest s op o ho).1.trans hk),?_⟩
  rw [Function.update_of_ne (sender_ne_receiver i d).symm]

theorem codeOf_receiver {s : Transport ι α} {op : Op ι α} (rest : List (Op ι α)) {i : ι} {d : Dir}
    (hk : key op=(i,d)) :
    let code := Function.update s.code (receiver i d) ((execOp s op).2++rest)
    codeOf (code (sender i d)) i d=codeOf (s.code (sender i d)) i d ∧
      codeOf (code (receiver i d)) i d=(execOp s op).2++codeOf rest i d := by
  refine ⟨?_,codeOf_exec_self fun o ho => ((execOp_rest s op o ho).1.trans hk)⟩
  rw [Function.update_of_ne (sender_ne_receiver i d)]

theorem exec_view_own {s : Transport ι α} {t : Thread ι} {op : Op ι α} {rest : List (Op ι α)} {i : ι} {d : Dir}
    (hp : Phases s) (hc : s.code t=op::rest) (ht : thread op=t) (hk : key op=(i,d)) :
    OpStep i d (view s i d) (view (execCode s t op rest) i d) := by
  have hhead : codeOf (s.code t) i d=op::codeOf rest i d := by rw [hc,codeOf_cons_self _ _ _ _ hk]
  cases op with
  | push j e ctc =>
    cases hk
    obtain rfl : sender i d=t := ht
    have hcode := codeOf_sender (s := s) rest (show key (.push i d ctc)=(i,d) from rfl)
    by_cases hi : (s.chan i d).isIdle=true
    · convert OpStep.pushIdle (v := view s i d) ctc _ hhead hi using 1
      simp only [execOp,hi,ite_true] at hcode
      simp only [view,execCode,execOp,hi,ite_true,set2_self,set2_back,hcode]
      rfl
    · have hi' : (s.chan i d).isIdle=false := by simpa using hi
      convert OpStep.pushBusy (v := view s i d) ctc _ hhead hi' using 1
      simp only [execOp,hi',Bool.false_eq_true,ite_false] at hcode
      simp only [view,execCode,execOp,hi',Bool.false_eq_true,ite_false,hcode]
      rfl
  | pushShared j e ctc =>
    cases hk
    obtain rfl : sender i d=t := ht
    have hcode := codeOf_sender (s := s) rest (show key (.pushShared i d ctc)=(i,d) from rfl)
    convert OpStep.pushShared (v := view s i d) ctc _ hhead using 1
    simp only [execOp] at hcode
    simp only [view,execCode,execOp,set2_self,set2_back,hcode]
    by_cases hm : ctc∈(s.chan i d).shared <;> simp [hm]
  | pushSending j e ctc =>
    cases hk
    obtain rfl : sender i d=t := ht
    have hcode := codeOf_sender (s := s) rest (show key (.pushSending i d ctc)=(i,d) from rfl)
    convert OpStep.pushSending (v := view s i d) ctc _ hhead using 1
    simp only [execOp] at hcode
    simp only [view,execCode,execOp,set2_self,set2_back,hcode]
    by_cases hm : ctc∈(s.chan i d).sending <;> simp [hm]
  | move j e =>
    cases hk
    obtain rfl : sender i d=t := ht
    have hcode := codeOf_sender (s := s) rest (show key (.move i d)=(i,d) from rfl)
    convert OpStep.move (v := view s i d) _ hhead using 1
    simp only [execOp] at hcode
    simp only [view,execCode,execOp,set2_self,set2_back,hcode]
    rfl
  | moved j e =>
    cases hk
    obtain rfl : sender i d=t := ht
    have hcode := codeOf_sender (s := s) rest (show key (.moved i d)=(i,d) from rfl)
    by_cases he : (s.chan i d).shared≠[]
    · convert OpStep.movedSome (v := view s i d) _ hhead he using 1
      simp only [execOp,if_pos he] at hcode
      simp only [view,execCode,execOp,if_pos he,hcode]
      rfl
    · convert OpStep.movedNone (v := view s i d) _ hhead (not_not.mp he) using 1
      simp only [execOp,if_neg he] at hcode
      simp only [view,execCode,execOp,if_neg he,set2_self,set2_back,hcode]
      rfl
  | take j e =>
    cases hk
    obtain rfl : receiver i d=t := ht
    have hcode := codeOf_receiver (s := s) rest (show key (.take i d)=(i,d) from rfl)
    convert OpStep.take (v := view s i d) _ hhead using 1
    simp only [execOp] at hcode
    simp only [view,execCode,execOp,set2_self,set2_back,hcode,Function.update_self,enteredFrom_append]
    rfl
  | notify j w f =>
    have hw := wake_bounds hp j w
    cases f with
    | incr =>
      cases hk
      obtain rfl : sender i d=t := ht
      have hcode := codeOf_sender (s := s) rest (show key (.notify i d .incr)=(i,d) from rfl)
      have hwr := write_incr hw
      convert OpStep.notifyIncr (v := view s i d) _ hhead using 1
      simp only [execOp,if_pos hwr.1] at hcode
      simp only [view,execCode,execOp,if_pos hwr.1,set2_self,set2_back,hcode,hwr.2.1]
      rfl
    | take =>
      cases hk
      obtain rfl : sender i w=t := ht
      have hcode := codeOf_receiver (s := s) rest (show key (.notify i w .take)=(i,w.back) from rfl)
      have hwr := write_take hw
      rw [receiver_back] at hcode
      convert OpStep.notifyTake (v := view s i w.back) (d := w.back) (codeOf rest i w.back) ?_ using 1
      · simp only [execOp,if_pos hwr.1] at hcode
        simp only [view,execCode,execOp,if_pos hwr.1,set2_self,set2_back,Dir.back_back,hcode,hwr.2.2,
          receiver_back]
        rfl
      · simpa [view] using hhead

theorem codeOf_reapWake {i : ι} {w : Dir} {c : ℕ} (hb : incrs c≤1 ∧ takes c≤1) :
    codeOf (reapWake i w c : List (Op ι α)) i w=(if incrs c≠0 then takeCtc i w else []) ∧
    codeOf (reapWake i w c : List (Op ι α)) i w.back=(if takes c≠0 then moveCtc i w.back else []) := by
  rw [reapWake_notes hb,codeOf_append,codeOf_append]
  constructor <;> by_cases ht : takes c=0 <;> by_cases hi : incrs c=0 <;>
    simp [ht,hi,codeOf,takeCtc,moveCtc,key]

theorem reapWake_key {i : ι} {w : Dir} (c : ℕ) : ∀ o∈(reapWake i w c : List (Op ι α)),
    thread o=receiver i w ∧ ((key o).1=i) := by
  intro o ho
  simp only [reapWake,moveCtc,takeCtc,List.mem_append] at ho
  rcases ho with ho | ho <;> split at ho <;> simp at ho <;> rcases ho with rfl | rfl <;>
    exact ⟨rfl,rfl⟩

/-- State after a reap has read the wake and knows what to do about it. -/
def reapCode (s : Transport ι α) (t : Thread ι) (i : ι) (w : Dir) (b : List (ι × Dir)) : Transport ι α :=
  {s with
    chan := set2 s.chan i w {s.chan i w with wake := 0}
    ctcEv := Function.update s.ctcEv t (s.chan i w).wake
    batch := Function.update s.batch t b
    code := Function.update s.code t (reapWake i w (s.chan i w).wake)}

theorem reap_view {s : Transport ι α} {t : Thread ι} {i : ι} {w : Dir} (b : List (ι × Dir))
    (hp : Phases s) (hc : s.code t=[]) (ht : receiver i w=t) :
    (∀ j e,j≠i → view (reapCode s t i w b) j e=view s j e) ∧
    view (reapCode s t i w b) i w=(view s i w).readIncr i w ∧
    view (reapCode s t i w b) i w.back=(view s i w.back).readTake i w.back := by
  subst ht
  have hb := wake_bounds hp i w
  have hcode := codeOf_reapWake (α := α) (i := i) (w := w) hb
  refine ⟨fun j e hj => ?_,?_,?_⟩
  · have hne : ∀ f : Dir,¬(j=i ∧ f=w) := fun f h => hj h.1
    apply view_congr <;> simp only [reapCode,set2_ne _ _ (hne _)]
    intro t'
    by_cases ht : t'=receiver i w
    · subst ht
      rw [Function.update_self,hc,codeOf_nil]
      exact codeOf_eq_nil fun o ho hk => hj (by rw [←(reapWake_key _ o ho).2,hk])
    · rw [Function.update_of_ne ht]
  · simp only [view,View.readIncr,reapCode,set2_self,set2_back,Function.update_self,hcode,
      Function.update_of_ne (sender_ne_receiver i w)]
    rfl
  · simp only [view,View.readTake,reapCode,set2_self,set2_back,Function.update_self,hcode,sender_back,receiver_back,
      Dir.back_back,Function.update_of_ne (sender_ne_receiver i w)]
    rfl

/-! ### Every run -/

/-- State after a push has begun. -/
def pushCode (s : Transport ι α) (i : ι) (d : Dir) (ctc : α) : Transport ι α :=
  {s with code := Function.update s.code (sender i d) [.push i d ctc]}

structure Inv (s : Transport ι α) : Prop where
  threads : Threads s
  phases : Phases s
  entry : ∀ t,(s.entered t).map Prod.snd=s.popped t++s.enterCtcs t

/-- What an enabled step is, with what it leaves. -/
theorem step_cases {s s' : Transport ι α} {a : Act ι α} (h : step s a=some s') :
    (∃ i d ctc,a=.push i d ctc ∧ s.code (sender i d)=[] ∧
      s'=pushCode s i d ctc) ∨
    (∃ t ctc,a=.enter t ctc ∧ s.code t=[] ∧ (s'=s ∨ s'={s with
      enterCtcs := Function.update s.enterCtcs t (s.enterCtcs t++[ctc])
      entered := Function.update s.entered t (s.entered t++[(none,ctc)])})) ∨
    (∃ t ctc rest,a=.pop t ∧ s.code t=[] ∧ s.enterCtcs t=ctc::rest ∧ s'={s with
      enterCtcs := Function.update s.enterCtcs t rest
      popped := Function.update s.popped t (s.popped t++[ctc])}) ∨
    (∃ t b,a=.wait t b ∧ s.code t=[] ∧ s.batch t=[] ∧ b≠[] ∧ b.Nodup ∧ (∀ p∈b,reads t s p) ∧
      s'={s with batch := Function.update s.batch t b}) ∨
    (∃ t i w b,a=.reap t ∧ s.code t=[] ∧ s.batch t=(i,w)::b ∧
      ((s.chan i w).wake≠0 → s'=reapCode s t i w b)) ∨
    (∃ t op rest,a=.exec t ∧ s.code t=op::rest ∧ s'=execCode s t op rest) := by
  cases a with
  | push i d ctc =>
    simp only [step] at h
    split at h
    · rename_i hc
      exact .inl ⟨i,d,ctc,rfl,hc,(Option.some.inj h).symm⟩
    · cases h
  | enter t ctc =>
    simp only [step] at h
    split at h
    · rename_i hc
      split at h
      · exact .inr (.inl ⟨t,ctc,rfl,hc,.inl (Option.some.inj h).symm⟩)
      · rename_i hm
        rw [deqPushBack,if_neg hm] at h
        exact .inr (.inl ⟨t,ctc,rfl,hc,.inr (Option.some.inj h).symm⟩)
    · cases h
  | pop t =>
    simp only [step] at h
    split at h
    · rename_i hc he
      exact .inr (.inr (.inl ⟨t,_,_,rfl,hc,he,(Option.some.inj h).symm⟩))
    · cases h
  | wait t b =>
    simp only [step] at h
    split at h
    · rename_i hg
      exact .inr (.inr (.inr (.inl ⟨t,b,rfl,hg.1,hg.2.1,hg.2.2.1,hg.2.2.2.1,hg.2.2.2.2,
        (Option.some.inj h).symm⟩)))
    · cases h
  | reap t =>
    simp only [step] at h
    split at h
    · rename_i i w b hc hb
      refine .inr (.inr (.inr (.inr (.inl ⟨t,i,w,b,rfl,hc,hb,fun hw => ?_⟩))))
      rw [←Option.some.inj h]
      simp only [eventfdRead,hw,ite_false,reapCode]
    · cases h
  | exec t =>
    simp only [step] at h
    split at h
    · rename_i op rest hc
      refine .inr (.inr (.inr (.inr (.inr ⟨t,op,rest,rfl,hc,?_⟩))))
      rw [←Option.some.inj h]
      simp only [execCode,execOp_code]
    · cases h

theorem view_eq {s s' : Transport ι α} (hc : s'.chan=s.chan) (hd : s'.code=s.code) (hp : s'.pushed=s.pushed)
    (ht : s'.turn=s.turn) {j : ι} {e : Dir}
    (he : enteredFrom j e (s'.entered (receiver j e))=enteredFrom j e (s.entered (receiver j e))) :
    view s' j e=view s j e := by
  simp only [view,hc,hd,hp,ht,he]

/-- An element that the engine enters itself changes no channel. -/
theorem view_enter (s : Transport ι α) (t : Thread ι) (ctc : α) (q : Thread ι → List α) (j : ι) (e : Dir) :
    view {s with enterCtcs := q, entered := Function.update s.entered t (s.entered t++[(none,ctc)])} j e=
      view s j e := by
  apply view_eq <;> try rfl
  by_cases ht : receiver j e=t
  · rw [ht]; simp [enteredFrom]
  · simp only [Function.update_of_ne ht]

theorem push_view {s : Transport ι α} {i : ι} {d : Dir} (ctc : α) (hc : s.code (sender i d)=[]) :
    (∀ j e,(i,d)≠(j,e) → view (pushCode s i d ctc) j e=view s j e) ∧
    view (pushCode s i d ctc) i d=(view s i d).start i d ctc := by
  have hk : key (Op.push i d ctc)=(i,d) := rfl
  refine ⟨fun j e hje => ?_,?_⟩
  · apply view_congr <;> try rfl
    intro t
    by_cases ht : t=sender i d
    · subst ht
      simp only [pushCode,Function.update_self,hc]
      rw [codeOf_cons_ne _ _ _ _ (by rw [hk]; exact hje)]
    · simp only [pushCode,Function.update_of_ne ht]
  · simp only [view,pushCode,View.start,Function.update_self,Function.update_of_ne (sender_ne_receiver i d).symm]
    rw [codeOf_cons_self _ _ _ _ hk,codeOf_nil]

/-- A step leaves each channel as it was or is one of the channel's own steps. -/
theorem step_view {s s' : Transport ι α} {a : Act ι α} (hs : Inv s) (h : step s a=some s') (j : ι) (e : Dir) :
    view s' j e=view s j e ∨ ViewStep j e (view s j e) (view s' j e) := by
  rcases step_cases h with ⟨i,d,ctc,-,hc,rfl⟩ | ⟨t,ctc,-,hc,rfl | rfl⟩ | ⟨t,ctc,rest,-,hc,he,rfl⟩ |
    ⟨t,b,-,hc,hb,-,-,hr,rfl⟩ | ⟨t,i,w,b,-,hc,hb,hr⟩ | ⟨t,op,rest,-,hc,rfl⟩
  · have hv := push_view ctc hc
    by_cases hje : (i,d)=(j,e)
    · cases hje
      rw [hv.2]
      exact .inr (.start ctc (by simp only [view,hc,codeOf_nil]))
    · exact .inl (hv.1 j e hje)
  · exact .inl rfl
  · exact .inl (view_enter s t ctc _ j e)
  · exact .inl rfl
  · exact .inl rfl
  · have hrd := (hs.threads.batch t).2 (i,w) (by rw [hb]; exact List.mem_cons_self ..)
    have hrt : receiver i w=t := hrd.1
    rw [hr hrd.2]
    have hv := reap_view b hs.phases hc hrt
    by_cases hj : j=i
    · subst hj
      right
      rcases eq_or_ne e w with rfl | hew
      · rw [hv.2.1]
        exact .readIncr (by simp only [view,hrt,hc,codeOf_nil])
      · obtain rfl : e=w.back := by cases e <;> cases w <;> first | rfl | exact (hew rfl).elim
        rw [hv.2.2]
        exact .readTake (by simp only [view,sender_back,hrt,hc,codeOf_nil])
    · exact .inl (hv.1 j e hj)
  · by_cases hk : key op=(j,e)
    · exact .inr (.op (exec_view_own hs.phases hc
        (hs.threads.code t op (by rw [hc]; exact List.mem_cons_self ..)) hk))
    · exact .inl (exec_view_ne hs.phases hc hk)

theorem phases_step {s s' : Transport ι α} {a : Act ι α} (hs : Inv s) (h : step s a=some s') : Phases s' := by
  intro j e
  rcases step_view hs h j e with hv | hv
  · rw [hv]; exact hs.phases j e
  · exact phase_step (hs.phases j e) hv

theorem write_pos (c v : ℕ) (h : c≠0) : eventfdWrite c v≠0 := by
  unfold eventfdWrite
  split <;> omega

/-- An access never empties a wake. -/
theorem execOp_wake (s : Transport ι α) (op : Op ι α) (p : ι × Dir) (h : (s.chan p.1 p.2).wake≠0) :
    ((execOp s op).1.chan p.1 p.2).wake≠0 := by
  cases op with
  | notify i w f =>
    simp only [execOp]
    by_cases hk : p.1=i ∧ p.2=w
    · rw [hk.1,hk.2] at h ⊢
      rw [set2_self]
      exact write_pos _ _ h
    · rwa [set2_ne _ _ hk]
  | push | moved => simp only [execOp]; split <;> simp_all [wake_set2]
  | _ => simp_all [execOp,wake_set2]

theorem threads_exec {s : Transport ι α} {t : Thread ι} {op : Op ι α} {rest : List (Op ι α)}
    (hs : Threads s) (hc : s.code t=op::rest) : Threads (execCode s t op rest) := by
  have hown := hs.code t
  rw [hc] at hown
  refine ⟨fun t' o ho => ?_,fun t' => ?_⟩
  · simp only [execCode] at ho
    by_cases ht : t'=t
    · subst ht
      rw [Function.update_self] at ho
      rcases List.mem_append.mp ho with ho | ho
      · rw [(execOp_rest s op o ho).2]; exact hown op (List.mem_cons_self ..)
      · exact hown o (List.mem_cons_of_mem _ ho)
    · rw [Function.update_of_ne ht] at ho
      exact hs.code t' o ho
  · have hb : (execCode s t op rest).batch=s.batch := by
      cases op <;> simp only [execCode,execOp] <;> split <;> rfl
    rw [hb]
    exact ⟨(hs.batch t').1,fun p hp => ⟨((hs.batch t').2 p hp).1,execOp_wake s op p ((hs.batch t').2 p hp).2⟩⟩

theorem threads_reap {s : Transport ι α} {t : Thread ι} {i : ι} {w : Dir} {b : List (ι × Dir)}
    (hs : Threads s) (hb : s.batch t=(i,w)::b) : Threads (reapCode s t i w b) := by
  have hbt := hs.batch t
  rw [hb] at hbt
  obtain ⟨hnotin,hnodup⟩ := List.nodup_cons.mp hbt.1
  have hown : receiver i w=t := (hbt.2 (i,w) (List.mem_cons_self ..)).1
  have hkeep (p : ι × Dir) (hp : p≠(i,w)) : ((reapCode s t i w b).chan p.1 p.2).wake=(s.chan p.1 p.2).wake := by
    simp only [reapCode]
    rw [set2_ne _ _ (fun h => hp (Prod.ext h.1 h.2))]
  refine ⟨fun t' o ho => ?_,fun t' => ?_⟩
  · simp only [reapCode] at ho
    by_cases ht : t'=t
    · subst ht
      rw [Function.update_self] at ho
      rw [(reapWake_key _ o ho).1,hown]
    · rw [Function.update_of_ne ht] at ho
      exact hs.code t' o ho
  · by_cases ht : t'=t
    · subst ht
      simp only [reapCode,Function.update_self]
      refine ⟨hnodup,fun p hp => ⟨(hbt.2 p (List.mem_cons_of_mem _ hp)).1,?_⟩⟩
      have hne := hkeep p (fun h => hnotin (h ▸ hp))
      simp only [reapCode] at hne
      rw [hne]
      exact (hbt.2 p (List.mem_cons_of_mem _ hp)).2
    · have hbe : (reapCode s t i w b).batch t'=s.batch t' := by simp only [reapCode,Function.update_of_ne ht]
      rw [hbe]
      refine ⟨(hs.batch t').1,fun p hp => ?_⟩
      have hr := (hs.batch t').2 p hp
      refine ⟨hr.1,?_⟩
      rw [hkeep p (fun h => ht (by rw [←hr.1,h,hown]))]
      exact hr.2

theorem threads_step {s s' : Transport ι α} {a : Act ι α} (hs : Threads s) (h : step s a=some s') :
    Threads s' := by
  rcases step_cases h with ⟨i,d,ctc,-,hc,rfl⟩ | ⟨t,ctc,-,hc,rfl | rfl⟩ | ⟨t,ctc,rest,-,hc,he,rfl⟩ |
    ⟨t,b,-,hc,hb,-,hn,hr,rfl⟩ | ⟨t,i,w,b,-,hc,hb,hr⟩ | ⟨t,op,rest,-,hc,rfl⟩
  · refine ⟨fun t o ho => ?_,hs.batch⟩
    by_cases ht : t=sender i d
    · subst ht
      simp only [pushCode,Function.update_self] at ho
      cases List.mem_singleton.mp ho; rfl
    · simp only [pushCode,Function.update_of_ne ht] at ho
      exact hs.code t o ho
  · exact hs
  · exact ⟨hs.code,hs.batch⟩
  · exact ⟨hs.code,hs.batch⟩
  · refine ⟨hs.code,fun t' => ?_⟩
    by_cases ht : t'=t
    · subst ht; simp only [Function.update_self]; exact ⟨hn,hr⟩
    · simp only [Function.update_of_ne ht]; exact hs.batch t'
  · rw [hr ((hs.batch t).2 (i,w) (by rw [hb]; exact List.mem_cons_self ..)).2]
    exact threads_reap hs hb
  · exact threads_exec hs hc

theorem entry_step {s s' : Transport ι α} {a : Act ι α} (hs : Threads s)
    (he : ∀ t,(s.entered t).map Prod.snd=s.popped t++s.enterCtcs t) (h : step s a=some s') :
    ∀ t,(s'.entered t).map Prod.snd=s'.popped t++s'.enterCtcs t := by
  intro t'
  rcases step_cases h with ⟨i,d,ctc,-,hc,rfl⟩ | ⟨t,ctc,-,hc,rfl | rfl⟩ | ⟨t,ctc,rest,-,hc,hq,rfl⟩ |
    ⟨t,b,-,hc,hb,-,hn,hr,rfl⟩ | ⟨t,i,w,b,-,hc,hb,hr⟩ | ⟨t,op,rest,-,hc,rfl⟩
  · exact he t'
  · exact he t'
  · by_cases ht : t'=t
    · subst ht; simp [he]
    · simp only [Function.update_of_ne ht,he]
  · by_cases ht : t'=t
    · subst ht; simp [he,hq]
    · simp only [Function.update_of_ne ht,he]
  · exact he t'
  · rw [hr ((hs.batch t).2 (i,w) (by rw [hb]; exact List.mem_cons_self ..)).2]
    exact he t'
  · cases op with
    | take i d =>
      simp only [execCode,execOp]
      by_cases ht : t'=receiver i d
      · subst ht; simp [he,Function.comp_def]
      · simp only [Function.update_of_ne ht,he]
    | push | moved => simp only [execCode,execOp]; split <;> exact he t'
    | _ => exact he t'

theorem inv_step {s s' : Transport ι α} {a : Act ι α} (hs : Inv s) (h : step s a=some s') : Inv s' :=
  ⟨threads_step hs.threads h,phases_step hs h,entry_step hs.threads hs.entry h⟩

theorem inv_start : Inv ({} : Transport ι α) := by
  refine ⟨⟨fun t o ho => ?_,fun t => ⟨List.nodup_nil,fun p hp => ?_⟩⟩,fun i d => ?_,fun t => rfl⟩
  · cases ho
  · cases hp
  · have hv : view ({} : Transport ι α) i d=⟨[],[],true,0,0,[],[],[],[],.sender⟩ := by
      simp [view,incrs,takes,enteredFrom]
    rw [hv]
    exact .idle []

theorem inv_reach {s : Transport ι α} (h : Reach step anyStep {} s) : Inv s :=
  h.invariant inv_start fun _ _ _ hs _ hstep => inv_step hs hstep

/-! ### How long the engines can go on without a new push -/

def opCost : Op ι α → ℕ
  | .push _ _ _ => 12
  | .pushSending _ _ _ => 10
  | .notify _ _ .incr => 9
  | .notify _ _ .take => 5
  | .pushShared _ _ _ | .move _ _ | .moved _ _ | .take _ _ => 1

def isMoved : Op ι α → Bool
  | .moved _ _ => true
  | _ => false

def owed (dq : List α) : ℕ := if dq=[] then 0 else 9
def fresh (notes : ℕ) (unread : Bool) : ℕ := if notes≠0 ∧ unread=true then 1 else 0

/- `hi` and `ht` say that the wakes with the channel's INCR and TAKE are not harvested yet. -/
def chanWork (hi ht : Bool) (v : View ι α) : ℕ :=
  7*v.incr+3*v.take+(v.scode.map opCost).sum+(v.rcode.map opCost).sum+
    owed v.sending+(if v.scode.any isMoved then owed v.shared else 0)+fresh v.incr hi+fresh v.take ht

theorem owed_le (dq : List α) : owed dq≤9 := by
  unfold owed
  split <;> omega

theorem op_work {i : ι} {d : Dir} {v w : View ι α} (h : Phase i d v) (hs : OpStep i d v w) (hi ht : Bool) :
    chanWork hi ht w+1≤chanWork hi ht v := by
  cases hs with
  | pushIdle ctc k hc hidle =>
    cases h with
    | starting e => cases hc; simp [chanWork,owed,fresh,opCost,isMoved]
    | idle => cases hc
    | _ => cases hidle
  | pushBusy ctc k hc hidle =>
    cases h with
    | busy st se sh e c hp hsh =>
      cases hp <;> cases hc
      simp only [chanWork,List.map_cons,List.map_nil,List.sum_cons,List.sum_nil,opCost,List.any_cons,
        List.any_nil,isMoved,Bool.or_self,Bool.false_eq_true,ite_false]
      omega
    | starting => cases hidle
    | _ => cases hc
  | pushShared ctc k hc =>
    cases h with
    | filling e => cases hc; simp [chanWork,owed,fresh,opCost,isMoved]
    | busy st se sh e c hp hsh => cases hp <;> cases hc
    | _ => cases hc
  | pushSending ctc k hc =>
    cases h with
    | busy st se sh e c hp hsh =>
      cases hp <;> cases hc
      simp only [chanWork,List.map_cons,List.map_nil,List.sum_cons,List.sum_nil,opCost,List.any_cons,
        List.any_nil,isMoved,Bool.or_self,Bool.false_eq_true,ite_false]
      have := owed_le (deqPushBack se ctc)
      omega
    | _ => cases hc
  | notifyIncr k hc =>
    cases h with
    | filled se sh e hsh =>
      cases hc
      cases hi with
      | false => simp [chanWork,owed,fresh,opCost,isMoved]
      | true => simp [chanWork,owed,fresh,opCost,isMoved]; omega
    | busy st se sh e c hp hsh => cases hp <;> cases hc
    | _ => cases hc
  | move k hc =>
    cases h with
    | moving se e => cases hc; by_cases hse : se=[] <;> simp [chanWork,owed,fresh,opCost,isMoved,hse]
    | busy st se sh e c hp hsh => cases hp <;> cases hc
    | _ => cases hc
  | movedSome k hc hne =>
    cases h with
    | moved sh e => cases hc; simp only at hne; simp [chanWork,owed,fresh,opCost,isMoved,hne]
    | busy st se sh e c hp hsh => cases hp <;> cases hc
    | _ => cases hc
  | movedNone k hc he =>
    cases h with
    | moved sh e => cases hc; simp only at he; subst he; simp [chanWork,owed,fresh,opCost]
    | busy st se sh e c hp hsh => cases hp <;> cases hc
    | _ => cases hc
  | take k hc =>
    cases h with
    | busy st se sh e c hp hsh =>
      cases st <;> cases hc
      cases hp <;> simp [chanWork,owed,fresh,opCost,isMoved,Stage.incr,Stage.take,Stage.rcode]
    | _ => cases hc
  | notifyTake k hc =>
    cases h with
    | busy st se sh e c hp hsh =>
      cases st <;> cases hc
      cases ht <;> cases hp <;> simp [chanWork,owed,fresh,opCost,isMoved,Stage.incr,Stage.take,Stage.rcode] <;> omega
    | _ => cases hc

/-- Reading a wake pays for what the notifications in it make a thread do. -/
theorem readIncr_work {i : ι} {d : Dir} {v : View ι α} (h : Phase i d v) (hc : v.rcode=[]) (hi ht : Bool) :
    chanWork hi ht (v.readIncr i d)+(if v.incr≠0 then 1 else 0)≤chanWork false ht v := by
  cases h with
  | busy st se sh e c hp hsh =>
    cases st with
    | posted => simp [chanWork,owed,fresh,View.readIncr,takeCtc,opCost,Stage.incr,Stage.take,Stage.rcode]; omega
    | acked => simp [chanWork,owed,fresh,View.readIncr,Stage.incr,Stage.take,Stage.rcode]
    | _ => cases hc
  | _ => simp [chanWork,owed,fresh,View.readIncr]

theorem readTake_work {i : ι} {d : Dir} {v : View ι α} (h : Phase i d v) (hc : v.scode=[]) (hi ht : Bool) :
    chanWork hi ht (v.readTake i d)+(if v.take≠0 then 1 else 0)≤chanWork hi false v := by
  cases h with
  | busy st se sh e c hp hsh =>
    simp only at hc
    subst hc
    cases st with
    | acked =>
      have he : sh=[] := by simpa [Stage.full] using hsh
      subst he
      simp [chanWork,owed,fresh,View.readTake,moveCtc,opCost,isMoved,Stage.incr,Stage.take,Stage.rcode]
    | _ => simp [chanWork,owed,fresh,View.readTake,Stage.incr,Stage.take,Stage.rcode]
  | idle => simp [chanWork,owed,fresh,View.readTake]
  | _ => cases hc

theorem chanWork_mono (v : View ι α) (hi ht : Bool) {hi' ht' : Bool} (h : hi'=true → hi=true) (h' : ht'=true → ht=true) :
    chanWork hi' ht' v≤chanWork hi ht v := by
  cases hi' <;> cases ht' <;> cases hi <;> cases ht <;> simp_all [chanWork,fresh]; omega

theorem start_work (v : View ι α) (i : ι) (d : Dir) (ctc : α) (hc : v.scode=[]) (hi ht : Bool) :
    chanWork hi ht (v.start i d ctc)=chanWork hi ht v+12 := by
  simp only [chanWork,View.start,hc,List.map_cons,List.map_nil,List.sum_cons,List.sum_nil,opCost,
    List.any_cons,List.any_nil,isMoved,Bool.or_self,Bool.false_eq_true,ite_false]
  omega

def unread (s : Transport ι α) (i : ι) (w : Dir) : Bool := decide ((i,w)∉s.batch (receiver i w))

def workAt (s : Transport ι α) (i : ι) (d : Dir) : ℕ :=
  chanWork (unread s i d) (unread s i d.back) (view s i d)
def workOf (s : Transport ι α) (i : ι) : ℕ := workAt s i .commit+workAt s i .accept
def work [Fintype ι] (s : Transport ι α) : ℕ := ∑ i,workOf s i

theorem workOf_dir (s : Transport ι α) (i : ι) (d : Dir) : workOf s i=workAt s i d+workAt s i d.back := by
  cases d
  · rfl
  · exact Nat.add_comm ..

theorem workAt_congr {s s' : Transport ι α} {j : ι} {e : Dir} (hv : view s' j e=view s j e)
    (hu : ∀ w,unread s' j w=unread s j w) : workAt s' j e=workAt s j e := by
  simp only [workAt,hv,hu]

/-- What engine acts cost, and what a push gives them to do. -/
def actCost : Act ι α → ℕ
  | .wait _ _ | .reap _ | .exec _ => 1
  | _ => 0
def actGain : Act ι α → ℕ
  | .push _ _ _ => 12
  | _ => 0

theorem sum_step [Fintype ι] {f f' : ι → ℕ} {c g : ℕ} (i : ι) (hne : ∀ j,j≠i → f' j≤f j)
    (hi : f' i+c≤f i+g) : ∑ j,f' j+c≤∑ j,f j+g := by
  have hs : ∑ j,(f' j+if j=i then c else 0)≤∑ j,(f j+if j=i then g else 0) := by
    refine Finset.sum_le_sum fun j _ => ?_
    by_cases hj : j=i
    · subst hj; simpa using hi
    · simpa [hj] using hne j hj
  simpa only [Finset.sum_add_distrib,Finset.sum_ite_eq',Finset.mem_univ,ite_true] using hs

theorem work_exec [Fintype ι] {s : Transport ι α} {t : Thread ι} {op : Op ι α} {rest : List (Op ι α)}
    (hs : Inv s) (hc : s.code t=op::rest) : work (execCode s t op rest)+1≤work s := by
  have hb : (execCode s t op rest).batch=s.batch := by
    cases op <;> simp only [execCode,execOp] <;> split <;> rfl
  have hu (j : ι) (w : Dir) : unread (execCode s t op rest) j w=unread s j w := by simp only [unread,hb]
  obtain ⟨⟨i,d⟩,hk⟩ : ∃ p,key op=p := ⟨_,rfl⟩
  refine sum_step (g := 0) i (fun j hj => ?_) ?_
  · have hv (e : Dir) := exec_view_ne hs.phases hc (j := j) (e := e) (by rw [hk]; exact fun h => hj (by cases h; rfl))
    exact (congrArg₂ (·+·) (workAt_congr (hv _) (hu j)) (workAt_congr (hv _) (hu j))).le
  · have hown := exec_view_own hs.phases hc (hs.threads.code t op (by rw [hc]; exact List.mem_cons_self ..)) hk
    have hlow := op_work (hs.phases i d) hown (unread s i d) (unread s i d.back)
    have hsame := workAt_congr (exec_view_ne hs.phases hc (j := i) (e := d.back) (by simp [hk])) (hu i)
    rw [workOf_dir _ i d,workOf_dir _ i d,hsame]
    simp only [workAt,hu] at hlow ⊢
    omega

theorem work_reap [Fintype ι] {s : Transport ι α} {t : Thread ι} {i : ι} {w : Dir} {b : List (ι × Dir)}
    (hs : Inv s) (hc : s.code t=[]) (hb : s.batch t=(i,w)::b) : work (reapCode s t i w b)+1≤work s := by
  obtain ⟨ht,hw⟩ := (hs.threads.batch t).2 (i,w) (by rw [hb]; exact List.mem_cons_self ..)
  simp only at ht hw
  have hv := reap_view b hs.phases hc ht
  have hu (j : ι) (e : Dir) (hne : (j,e)≠(i,w)) : unread (reapCode s t i w b) j e=unread s j e := by
    by_cases hr : receiver j e=t
    · simp [unread,reapCode,hr,hb,hne]
    · simp [unread,reapCode,Function.update_of_ne hr]
  have hseen : unread s i w=false := by simp [unread,ht,hb]
  refine sum_step (g := 0) i (fun j hj => ?_) ?_
  · have hu' (e : Dir) := hu j e (fun h => hj (by cases h; rfl))
    exact (congrArg₂ (·+·) (workAt_congr (hv.1 j _ hj) hu') (workAt_congr (hv.1 j _ hj) hu')).le
  · have hI := readIncr_work (hs.phases i w) (by simp only [view,ht,hc,codeOf_nil])
      (unread (reapCode s t i w b) i w) (unread s i w.back)
    have hT := readTake_work (hs.phases i w.back) (by simp only [view,sender_back,ht,hc,codeOf_nil])
      (unread s i w.back) (unread (reapCode s t i w b) i w)
    have hnote : (view s i w).incr≠0 ∨ (view s i w.back).take≠0 := by
      simp only [view,Dir.back_back]
      rcases wake_values (wake_bounds hs.phases i w) with h | h | h | h <;> rw [h] at hw ⊢ <;>
        simp [incrs,takes] at hw ⊢
    rw [workOf_dir _ i w,workOf_dir _ i w]
    simp only [workAt,hv.2.1,hv.2.2,Dir.back_back,hu i w.back (by simp),hseen]
    rcases hnote with h | h <;> simp only [ne_eq,h,not_false_eq_true,ite_true] at hI hT <;> omega

theorem work_wait [Fintype ι] {s : Transport ι α} {t : Thread ι} {b : List (ι × Dir)} (hs : Inv s)
    (hb : s.batch t=[]) (hne : b≠[]) (hr : ∀ p∈b,reads t s p) :
    work {s with batch := Function.update s.batch t b}+1≤work s := by
  set s' := {s with batch := Function.update s.batch t b} with hs'
  have hu (j : ι) (e : Dir) : unread s' j e=true → unread s j e=true := by
    by_cases ht : receiver j e=t
    · simp [unread,hs',ht,hb]
    · simp [unread,hs',Function.update_of_ne ht]
  have hle (j : ι) (e : Dir) : workAt s' j e≤workAt s j e :=
    chanWork_mono (view s j e) _ _ (hu j e) (hu j e.back)
  obtain ⟨⟨i,w⟩,rest,rfl⟩ := List.exists_cons_of_ne_nil hne
  obtain ⟨ht,hw⟩ := hr (i,w) (List.mem_cons_self ..)
  simp only at ht hw
  have hfresh : unread s i w=true := by simp [unread,ht,hb]
  have hseen : unread s' i w=false := by simp [unread,hs',ht]
  have hnote : (view s i w).incr≠0 ∨ (view s i w.back).take≠0 := by
    simp only [view,Dir.back_back]
    rcases wake_values (wake_bounds hs.phases i w) with h | h | h | h <;> rw [h] at hw ⊢ <;>
      simp [incrs,takes] at hw ⊢
  refine sum_step (g := 0) i (fun j _ => Nat.add_le_add (hle j _) (hle j _)) ?_
  rw [workOf_dir _ i w,workOf_dir _ i w]
  rcases hnote with h | h
  · have hlow : workAt s' i w+1≤workAt s i w := by
      have hm := chanWork_mono (view s i w) false _ id (hu i w.back)
      have hd : chanWork true (unread s i w.back) (view s i w)=chanWork false (unread s i w.back) (view s i w)+1 := by
        simp [chanWork,fresh,h]; omega
      simp only [workAt,hseen,hfresh,hd]
      exact Nat.add_le_add_right hm 1
    have := hle i w.back
    omega
  · have hlow : workAt s' i w.back+1≤workAt s i w.back := by
      have hm := chanWork_mono (view s i w.back) _ false (hu i w.back) id
      have hd : chanWork (unread s i w.back) true (view s i w.back)=
          chanWork (unread s i w.back) false (view s i w.back)+1 := by simp [chanWork,fresh,h]
      simp only [workAt,hseen,hfresh,hd,Dir.back_back]
      exact Nat.add_le_add_right hm 1
    have := hle i w
    omega

theorem work_step [Fintype ι] {s s' : Transport ι α} {a : Act ι α} (hs : Inv s) (h : step s a=some s') :
    work s'+actCost a≤work s+actGain a := by
  rcases step_cases h with ⟨i,d,ctc,rfl,hc,rfl⟩ | ⟨t,ctc,rfl,hc,rfl | rfl⟩ | ⟨t,ctc,rest,rfl,hc,he,rfl⟩ |
    ⟨t,b,rfl,hc,hb,hne,-,hr,rfl⟩ | ⟨t,i,w,b,rfl,hc,hb,hr⟩ | ⟨t,op,rest,rfl,hc,rfl⟩
  · have hv := push_view ctc hc
    have hu (j : ι) (w : Dir) : unread (pushCode s i d ctc) j w=unread s j w := rfl
    refine sum_step (c := 0) (g := 12) i (fun j hj => ?_) ?_
    · have hv' (e : Dir) := hv.1 j e (fun h => hj (by cases h; rfl))
      exact (congrArg₂ (·+·) (workAt_congr (hv' _) (hu j)) (workAt_congr (hv' _) (hu j))).le
    · have hsame := workAt_congr (hv.1 i d.back (by simp)) (hu i)
      have hstart := start_work (view s i d) i d ctc (by simp only [view,hc,codeOf_nil])
        (unread s i d) (unread s i d.back)
      rw [workOf_dir _ i d,workOf_dir _ i d,hsame]
      simp only [workAt,hu,hv.2,hstart]
      omega
  · exact Nat.le_refl _
  · refine Nat.add_le_add_right (Finset.sum_le_sum fun j _ => Nat.add_le_add ?_ ?_) 0 <;>
      exact (workAt_congr (view_enter s t ctc _ j _) fun _ => rfl).le
  · exact Nat.le_refl _
  · exact work_wait hs hb hne hr
  · rw [hr ((hs.threads.batch t).2 (i,w) (by rw [hb]; exact List.mem_cons_self ..)).2]
    exact work_reap hs hc hb
  · exact work_exec hs hc

/-! ### The transport's contract -/

def touches (i : ι) (d : Dir) : Op ι α → Prop
  | .pushShared j e _ | .move j e | .moved j e | .take j e => (j,e)=(i,d)
  | _ => False

/-- The thread that the last notification about the channel gave the shared deque to. -/
def holder (s : Transport ι α) (i : ι) (d : Dir) : Thread ι :=
  match s.turn i d with
  | .sender => sender i d
  | .receiver => receiver i d

/-- A notification of pushed elements is in the wake, or is about to be written or is being handled. -/
def pushInFlight (s : Transport ι α) (i : ι) (d : Dir) : Prop :=
  incrs (s.chan i d).wake≠0 ∨ .notify i d .incr∈s.code (sender i d) ∨ .moved i d∈s.code (sender i d) ∨
    .take i d∈s.code (receiver i d)

/-- The same for the notification that hands the shared deque back. -/
def takeInFlight (s : Transport ι α) (i : ι) (d : Dir) : Prop :=
  takes (s.chan i d.back).wake≠0 ∨ .notify i d.back .take∈s.code (receiver i d) ∨ .move i d∈s.code (sender i d)

structure Delivers (s : Transport ι α) (i : ι) (d : Dir) : Prop where
  order : s.pushed i d=enteredFrom i d (s.entered (receiver i d))++(s.chan i d).shared++(s.chan i d).sending
  turn : ∀ t op rest,s.code t=op::rest → touches i d op → t=holder s i d
  idle : (s.chan i d).isIdle=true → (s.chan i d).shared=[] ∧ ¬pushInFlight s i d ∧ ¬takeInFlight s i d
  carried : (s.chan i d).shared≠[] → pushInFlight s i d
  noted : (s.chan i d).shared≠[] → s.code (sender i d)=[] → s.code (receiver i d)=[] →
    incrs (s.chan i d).wake=1

theorem mem_codeOf (code : List (Op ι α)) {op : Op ι α} {i : ι} {d : Dir} (hk : key op=(i,d)) :
    op∈codeOf code i d ↔ op∈code := by
  simp [codeOf,List.mem_filter,hk]

/-- In-flight notifications, read off a channel's view. -/
def View.pushInFlight (v : View ι α) (i : ι) (d : Dir) : Prop :=
  v.incr≠0 ∨ .notify i d .incr∈v.scode ∨ .moved i d∈v.scode ∨ .take i d∈v.rcode
def View.takeInFlight (v : View ι α) (i : ι) (d : Dir) : Prop :=
  v.take≠0 ∨ .notify i d.back .take∈v.rcode ∨ .move i d∈v.scode

theorem view_pushInFlight (s : Transport ι α) (i : ι) (d : Dir) :
    (view s i d).pushInFlight i d ↔ pushInFlight s i d := by
  have h1 := mem_codeOf (s.code (sender i d)) (show key (.notify i d .incr : Op ι α)=(i,d) from rfl)
  have h2 := mem_codeOf (s.code (sender i d)) (show key (.moved i d : Op ι α)=(i,d) from rfl)
  have h3 := mem_codeOf (s.code (receiver i d)) (show key (.take i d : Op ι α)=(i,d) from rfl)
  simp only [View.pushInFlight,pushInFlight,view,h1,h2,h3]

theorem view_takeInFlight (s : Transport ι α) (i : ι) (d : Dir) :
    (view s i d).takeInFlight i d ↔ takeInFlight s i d := by
  have hk : key (.notify i d.back .take : Op ι α)=(i,d) := by simp only [key,Dir.back_back]
  have h1 := mem_codeOf (s.code (receiver i d)) hk
  have h2 := mem_codeOf (s.code (sender i d)) (show key (.move i d : Op ι α)=(i,d) from rfl)
  simp only [View.takeInFlight,takeInFlight,view,h1,h2]

theorem phase_order {i : ι} {d : Dir} {v : View ι α} (h : Phase i d v) :
    v.pushed=v.entered++v.shared++v.sending := by
  cases h <;> simp

theorem phase_turn {i : ι} {d : Dir} {v : View ι α} (h : Phase i d v) {op : Op ι α} (rest : List (Op ι α))
    (ht : touches i d op) : (v.scode=op::rest → v.turn=.sender) ∧ (v.rcode=op::rest → v.turn=.receiver) := by
  cases h with
  | busy st se sh e c hp hsh =>
    constructor
    · intro hc
      cases hp <;> cases hc <;> cases ht
    · intro hc
      cases st <;> cases hc
      · rfl
      · cases ht
  | _ => exact ⟨fun _ => rfl,fun hc => by cases hc⟩

theorem phase_idle {i : ι} {d : Dir} {v : View ι α} (h : Phase i d v) (hi : v.isIdle=true) :
    v.shared=[] ∧ ¬v.pushInFlight i d ∧ ¬v.takeInFlight i d := by
  cases h with
  | idle => simp [View.pushInFlight,View.takeInFlight]
  | starting => simp [View.pushInFlight,View.takeInFlight]
  | _ => cases hi

theorem phase_carried {i : ι} {d : Dir} {v : View ι α} (h : Phase i d v) (hne : v.shared≠[]) :
    v.pushInFlight i d ∧ (v.scode=[] → v.rcode=[] → v.incr=1) := by
  cases h with
  | filled => simp [View.pushInFlight]
  | moved => simp [View.pushInFlight]
  | busy st se sh e c hp hsh =>
    cases st with
    | posted => simp [View.pushInFlight,Stage.incr]
    | seen => simp [View.pushInFlight,Stage.rcode]
    | taken => exact (hsh.mp hne).elim
    | acked => exact (hsh.mp hne).elim
  | _ => exact (hne rfl).elim

/-- A channel about which nothing is in flight or left to do has delivered all that was pushed. -/
theorem phase_rest {i : ι} {d : Dir} {v : View ι α} (h : Phase i d v) (hs : v.scode=[]) (hr : v.rcode=[])
    (hi : v.incr=0) (ht : v.take=0) : v.pushed=v.entered := by
  cases h with
  | idle => rfl
  | busy st => cases st <;> simp [Stage.incr,Stage.take,Stage.rcode] at *
  | _ => cases hs

theorem touches_key {i : ι} {d : Dir} {op : Op ι α} (h : touches i d op) : key op=(i,d) := by
  cases op <;> first | exact h | cases h

theorem thread_key {op : Op ι α} {i : ι} {d : Dir} (hk : key op=(i,d)) :
    thread op=sender i d ∨ thread op=receiver i d := by
  cases op with
  | take => cases hk; exact .inr rfl
  | notify j w f =>
    cases f with
    | incr => cases hk; exact .inl rfl
    | take => cases hk; exact .inr (receiver_back i w).symm
  | _ => cases hk; exact .inl rfl

theorem delivers {s : Transport ι α} (hs : Inv s) (i : ι) (d : Dir) : Delivers s i d := by
  have hp := hs.phases i d
  refine ⟨phase_order hp,fun t op rest hc ht => ?_,fun hi => ?_,fun hne => ?_,fun hne hsc hrc => ?_⟩
  · have hk := touches_key ht
    have hown := hs.threads.code t op (by rw [hc]; exact List.mem_cons_self ..)
    have hturn := phase_turn hp (codeOf rest i d) ht
    have hhead : codeOf (s.code t) i d=op::codeOf rest i d := by rw [hc,codeOf_cons_self _ _ _ _ hk]
    rcases thread_key hk with h | h
    · obtain rfl : sender i d=t := h.symm.trans hown
      have hsend : s.turn i d=.sender := hturn.1 hhead
      simp only [holder,hsend]
    · obtain rfl : receiver i d=t := h.symm.trans hown
      have hrecv : s.turn i d=.receiver := hturn.2 hhead
      simp only [holder,hrecv]
  · have h := phase_idle hp hi
    rw [view_pushInFlight,view_takeInFlight] at h
    exact h
  · exact (view_pushInFlight s i d).mp (phase_carried hp hne).1
  · exact (phase_carried hp hne).2 (by simp only [view,hsc,codeOf_nil]) (by simp only [view,hrc,codeOf_nil])

def isEngine : Act ι α → Prop
  | .wait _ _ | .reap _ | .exec _ => True
  | _ => False

/-- When no thread has anything to do about the channels, every pushed element has entered. -/
theorem delivered_at_rest {s : Transport ι α} (hs : Inv s) (hrest : ∀ a,isEngine a → step s a=none)
    (i : ι) (d : Dir) : s.pushed i d=enteredFrom i d (s.entered (receiver i d)) := by
  have hcode (t : Thread ι) : s.code t=[] := by
    have h := hrest (.exec t) trivial
    cases hc : s.code t with
    | nil => rfl
    | cons op rest => simp [step,hc] at h
  have hbatch (t : Thread ι) : s.batch t=[] := by
    have h := hrest (.reap t) trivial
    cases hb : s.batch t with
    | nil => rfl
    | cons p b => simp [step,hcode t,hb] at h
  have hwake (j : ι) (w : Dir) : (s.chan j w).wake=0 := by
    have h := hrest (.wait (receiver j w) [(j,w)]) trivial
    by_contra hne
    simp [step,hcode,hbatch,reads,hne] at h
  exact phase_rest (hs.phases i d) (by simp only [view,hcode,codeOf_nil]) (by simp only [view,hcode,codeOf_nil])
    (by simp only [view,hwake,incrs,Nat.zero_mod]) (by simp only [view,hwake,takes,Nat.zero_div])

/-- The transport: order and exactly-once in every reachable state, and engines that cannot go on
without a new push for longer than the work that is left, and stop only with everything delivered. -/
theorem ctc_transport [Fintype ι] {s : Transport ι α} (h : Reach step anyStep {} s) :
    (∀ i d,Delivers s i d) ∧ (∀ t,(s.entered t).map Prod.snd=s.popped t++s.enterCtcs t) ∧
    (∀ as u,exec step s as=some u → (as.map actCost).sum≤work s+(as.map actGain).sum) ∧
    ((∀ a,isEngine a → step s a=none) → ∀ i d,s.pushed i d=enteredFrom i d (s.entered (receiver i d))) := by
  have hs := inv_reach h
  refine ⟨delivers hs,hs.entry,fun as u hu => ?_,delivered_at_rest hs⟩
  have hpot := exec_potential (I := Inv) work actCost actGain hs
    (fun t a u ht hstep => ⟨inv_step ht hstep,work_step ht hstep⟩) hu
  omega

/-- A push by worker 0 reaches the master: the whole run of one notification. -/
theorem ctc_transport_one :
    ∃ s : Transport (Fin 1) ℕ,Reach step anyStep {} s ∧ s.pushed 0 .commit=[7] ∧ (∀ i d,Delivers s i d) := by
  let as : List (Act (Fin 1) ℕ) := [.push 0 .commit 7,.exec (some 0),.exec (some 0),.exec (some 0)]
  have hrun : (exec step ({} : Transport (Fin 1) ℕ) as).isSome := rfl
  obtain ⟨s,hs⟩ := Option.isSome_iff_exists.mp hrun
  refine ⟨s,exec_reach hs,?_,(ctc_transport (exec_reach hs)).1⟩
  have hp : (exec step ({} : Transport (Fin 1) ℕ) as).map (fun s => s.pushed 0 .commit)=some [7] := rfl
  rw [hs] at hp
  exact Option.some.inj hp

end Dpapp.CtcTransport

