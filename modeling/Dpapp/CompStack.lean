import Mathlib.Algebra.BigOperators.Group.List.Basic
import Mathlib.Algebra.Order.BigOperators.Group.List
import Mathlib.Algebra.Order.Group.Nat
import Mathlib.Algebra.Ring.Nat

/-! # Walks along components

A walk keeps the components that it meets in a stack; some it skips, and some take it back by one. -/

namespace Dpapp.CompStack

variable {γ : Type*} (skip up : γ → Prop) [DecidablePred skip] [DecidablePred up]

def enter (st : List γ) (c : γ) : List γ := if skip c then st else if up c then st.dropLast else st++[c]

def walk (st cs : List γ) : List γ := cs.foldl (enter skip up) st

theorem enter_cases (st : List γ) (c : γ) : enter skip up st c=st ∧ skip c ∨
    enter skip up st c=st.dropLast ∧ ¬skip c ∧ up c ∨ enter skip up st c=st++[c] ∧ ¬skip c ∧ ¬up c := by
  unfold enter
  split
  · exact .inl ⟨rfl,‹_›⟩
  · split
    · exact .inr (.inl ⟨rfl,‹_›,‹_›⟩)
    · exact .inr (.inr ⟨rfl,‹_›,‹_›⟩)

variable {skip up} {st cs : List γ} {c : γ}

theorem walk_kept (h : ∀ c∈cs,¬skip c ∧ ¬up c) : walk skip up st cs=st++cs := by
  induction cs generalizing st with
  | nil => exact (List.append_nil st).symm
  | cons c cs ih =>
    have hc := h c List.mem_cons_self
    have henter : enter skip up st c=st++[c] := by rw [enter,if_neg hc.1,if_neg hc.2]
    rw [walk,List.foldl_cons,henter]
    exact (ih fun d hd => h d (List.mem_cons_of_mem c hd)).trans (List.append_assoc st [c] cs)

theorem mem_walk (hc : c∈walk skip up st cs) : c∈st ∨ c∈cs ∧ ¬skip c ∧ ¬up c := by
  induction cs generalizing st with
  | nil => exact .inl hc
  | cons d cs ih =>
    rcases ih hc with h | ⟨h,hkeep⟩
    · rcases enter_cases skip up st d with ⟨he,-⟩ | ⟨he,-⟩ | ⟨he,hd⟩
      · rw [he] at h
        exact .inl h
      · rw [he] at h
        exact .inl ((List.dropLast_sublist st).subset h)
      · rw [he,List.mem_append,List.mem_singleton] at h
        rcases h with h | rfl
        · exact .inl h
        · exact .inr ⟨List.mem_cons_self,hd⟩
    · exact .inr ⟨List.mem_cons_of_mem d h,hkeep⟩

/-- What is skipped may as well be left out before. -/
theorem walk_filter (p : γ → Bool) (hp : ∀ c,p c=false → skip c) :
    walk skip up st (cs.filter p)=walk skip up st cs := by
  induction cs generalizing st with
  | nil => rfl
  | cons c cs ih =>
    cases hc : p c with
    | true =>
      rw [List.filter_cons_of_pos hc]
      exact ih
    | false =>
      have henter : enter skip up st c=st := if_pos (hp c hc)
      rw [List.filter_cons_of_neg (by rw [hc]; exact Bool.false_ne_true),ih,walk,walk,List.foldl_cons,henter]

theorem sum_dropLast_le (w : γ → ℕ) (st : List γ) : (st.dropLast.map w).sum≤(st.map w).sum :=
  ((List.dropLast_sublist st).map w).sum_le_sum fun _ _ => Nat.zero_le _

/-- A stack weighs no more than what has been met, and as much only if all of it has been kept. -/
theorem walk_weight (w : γ → ℕ) (hw : ∀ c,0<w c) : ((walk skip up st cs).map w).sum≤(st.map w).sum+(cs.map w).sum ∧
    (((walk skip up st cs).map w).sum=(st.map w).sum+(cs.map w).sum → walk skip up st cs=st++cs) := by
  induction cs generalizing st with
  | nil => exact ⟨le_rfl,fun _ => (List.append_nil st).symm⟩
  | cons c cs ih =>
    have hpos := hw c
    obtain ⟨hle,heq⟩ := @ih (enter skip up st c)
    rw [List.map_cons,List.sum_cons]
    change ((walk skip up (enter skip up st c) cs).map w).sum≤_ ∧
      (((walk skip up (enter skip up st c) cs).map w).sum=_ → walk skip up (enter skip up st c) cs=_)
    rcases enter_cases skip up st c with ⟨he,-⟩ | ⟨he,-⟩ | ⟨he,-⟩
    · rw [he] at hle ⊢
      exact ⟨by omega,fun h => by omega⟩
    · have hdrop := sum_dropLast_le w st
      rw [he] at hle ⊢
      exact ⟨by omega,fun h => by omega⟩
    · have hsum : ((st++[c]).map w).sum=(st.map w).sum+w c := by
        rw [List.map_append,List.sum_append,List.map_singleton,List.sum_singleton]
      rw [he,hsum] at hle heq
      rw [he]
      exact ⟨by omega,fun h => (heq (by omega)).trans (List.append_assoc st [c] cs)⟩

end Dpapp.CompStack
