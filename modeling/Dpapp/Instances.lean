import Mathlib.Algebra.Ring.Nat
import Mathlib.Order.Defs.LinearOrder

/-! # Instances for numerals of small types and for elements in an order -/

namespace Dpapp

instance (priority := 2000) neZero_one : NeZero (1 : ℕ) := ⟨Nat.one_ne_zero⟩
instance (priority := 2000) neZero_two : NeZero (2 : ℕ) := ⟨Nat.succ_ne_zero 1⟩
instance (priority := 2000) neZero_three : NeZero (3 : ℕ) := ⟨Nat.succ_ne_zero 2⟩
instance (priority := 2000) neZero_four : NeZero (4 : ℕ) := ⟨Nat.succ_ne_zero 3⟩

instance (priority := 2000) lawful_of_order {κ : Type*} [LinearOrder κ] : LawfulBEq κ := inferInstance

end Dpapp
