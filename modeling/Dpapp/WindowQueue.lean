import Mathlib.Data.List.Basic
import Mathlib.Algebra.BigOperators.Group.List.Basic

/-! # Byte queues with a window

A queue in two parts: the window that was handed out last, and what waits behind
it. `gone`, `got` and `given` are what a run drops, hands out and takes in. -/

namespace Dpapp.WindowQueue
variable {α : Type*}

structure Queue (α : Type*) where
  window : List α := []
  rest : List α := []
  deriving DecidableEq

inductive Op (α : Type*)
  | write (x : List α)
  /-- The next `n` become the window. -/
  | read (n : ℕ)
  /-- The next `n` leave at once. -/
  | take (n : ℕ)
  /-- The border moves: `n` are before it. -/
  | border (n : ℕ)
  deriving DecidableEq

def act (q : Queue α) : Op α → Queue α
  | .write x => {q with rest := q.rest++x}
  | .read n => ⟨q.rest.take n,q.rest.drop n⟩
  | .take n => ⟨[],q.rest.drop n⟩
  | .border n => ⟨(q.window++q.rest).take n,(q.window++q.rest).drop n⟩

def dropped (q : Queue α) : Op α → List α
  | .read _ => q.window
  | .take n => q.window++q.rest.take n
  | _ => []

def handed (q : Queue α) : Op α → List α
  | .read n | .take n => q.rest.take n
  | _ => []

def taken : Op α → List α
  | .write x => x
  | _ => []

def border : Op α → Bool
  | .border _ => true
  | _ => false

def run (q : Queue α) (l : List (Op α)) : Queue α := l.foldl act q

def gone : Queue α → List (Op α) → List α
  | _, [] => []
  | q, o :: l => dropped q o++gone (act q o) l

def got : Queue α → List (Op α) → List α
  | _, [] => []
  | q, o :: l => handed q o++got (act q o) l

def given (l : List (Op α)) : List α := l.flatMap taken

@[simp] theorem run_nil (q : Queue α) : run q []=q := rfl
@[simp] theorem run_cons (q : Queue α) (o : Op α) (l : List (Op α)) : run q (o::l)=run (act q o) l := rfl

theorem run_append (q : Queue α) (l m : List (Op α)) : run q (l++m)=run (run q l) m := List.foldl_append ..

/-- Nothing is lost and nothing appears in one operation. -/
theorem act_conserves (q : Queue α) (o : Op α) :
    dropped q o++(act q o).window++(act q o).rest=q.window++q.rest++taken o := by
  cases o with
  | write x => simp [dropped,act,taken]
  | read n => simp [dropped,act,taken]
  | take n => simp [dropped,act,taken]
  | border n => simp [dropped,act,taken,List.take_append_drop]

theorem run_conserves (q : Queue α) (l : List (Op α)) :
    gone q l++(run q l).window++(run q l).rest=q.window++q.rest++given l := by
  induction l generalizing q with
  | nil => simp [gone,given]
  | cons o l ih =>
    have hstep := act_conserves q o
    have hrest := ih (act q o)
    calc gone q (o::l)++(run q (o::l)).window++(run q (o::l)).rest
        =dropped q o++(gone (act q o) l++(run (act q o) l).window++(run (act q o) l).rest) := by simp [gone]
      _=(dropped q o++(act q o).window++(act q o).rest)++given l := by rw [hrest]; simp
      _=q.window++q.rest++given (o::l) := by rw [hstep]; simp [given]

/-- While the border stays, what is handed out comes in order from the rest. -/
theorem act_fifo (q : Queue α) {o : Op α} (ho : border o=false) : handed q o++(act q o).rest=q.rest++taken o := by
  cases o with
  | write x => simp [handed,act,taken]
  | read n => simp [handed,act,taken]
  | take n => simp [handed,act,taken]
  | border n => cases ho

theorem run_fifo (q : Queue α) {l : List (Op α)} (hl : ∀ o∈l,border o=false) :
    got q l++(run q l).rest=q.rest++given l := by
  induction l generalizing q with
  | nil => simp [got,given]
  | cons o l ih =>
    have hstep := act_fifo q (hl o (List.mem_cons_self ..))
    have hrest := ih (act q o) fun o ho => hl o (List.mem_cons_of_mem _ ho)
    calc got q (o::l)++(run q (o::l)).rest=handed q o++(got (act q o) l++(run (act q o) l).rest) := by simp [got]
      _=(handed q o++(act q o).rest)++given l := by rw [hrest]; simp
      _=q.rest++given (o::l) := by rw [hstep]; simp [given]

theorem got_prefix (q : Queue α) {l : List (Op α)} (hl : ∀ o∈l,border o=false) : got q l <+: q.rest++given l :=
  ⟨(run q l).rest,run_fifo q hl⟩

end Dpapp.WindowQueue
