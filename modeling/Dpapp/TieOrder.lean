import Mathlib.Data.List.Sort
import Mathlib.Data.List.Nodup
import Mathlib.Data.Prod.Lex

/-! # Lists in the order of a key, ties in the order of the elements -/

namespace Dpapp.TieOrder

variable {κ α : Type*} [LinearOrder κ] [LinearOrder α] {key key' : κ → α} {l : List κ} {a b j k : κ}

def keyLe (key : κ → α) (a b : κ) : Prop := toLex (key a,a)≤toLex (key b,b)

instance (key : κ → α) : DecidableRel (keyLe key) := fun _ _ => inferInstanceAs (Decidable (_≤_))
instance (key : κ → α) : Std.Total (keyLe key) := ⟨fun _ _ => le_total _ _⟩
instance (key : κ → α) : IsTrans κ (keyLe key) := ⟨fun _ _ _ => le_trans⟩

theorem key_le (key : κ → α) (h : keyLe key a b) : key a≤key b := by
  obtain hlt | ⟨heq,-⟩ := Prod.Lex.le_iff.mp h
  · exact hlt.le
  · exact heq.le

/-- Only the keys of the elements in the list count. -/
theorem pairwise_congr (h : ∀ j∈l,key' j=key j) (hp : l.Pairwise (keyLe key)) : l.Pairwise (keyLe key') :=
  hp.imp_of_mem fun ha hb hab => by rw [keyLe,h _ ha,h _ hb]; exact hab

/-- An element leaves the list, whatever its key is from then on. -/
theorem pairwise_leave (h : ∀ j≠k,key' j=key j) (hp : l.Pairwise (keyLe key)) : (l.filter (·≠k)).Pairwise (keyLe key') := by
  refine pairwise_congr (fun j hj => ?_) (hp.sublist List.filter_sublist)
  have hjk : j≠k := by simpa using (List.mem_filter.mp hj).2
  exact h j hjk

/-- An element goes to the place of its new key. -/
theorem pairwise_move (h : ∀ j≠k,key' j=key j) (hp : l.Pairwise (keyLe key)) :
    ((l.filter (·≠k)).orderedInsert (keyLe key') k).Pairwise (keyLe key') :=
  (pairwise_leave h hp).orderedInsert k _

theorem mem_move : j∈(l.filter (·≠k)).orderedInsert (keyLe key) k ↔ j=k ∨ j∈l := by
  rw [List.mem_orderedInsert,List.mem_filter]
  by_cases hjk : j=k <;> simp [hjk]

theorem nodup_move (h : l.Nodup) : ((l.filter (·≠k)).orderedInsert (keyLe key) k).Nodup := by
  refine (List.perm_orderedInsert _ _ _).nodup_iff.mpr (List.nodup_cons.mpr ⟨?_,h.filter _⟩)
  simp

end Dpapp.TieOrder
