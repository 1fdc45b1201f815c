import Mathlib

/-! # Lists searched by a key -/

namespace Dpapp.Keyed
variable {α κ : Type*} [DecidableEq κ]

/-- The first entry with this key. -/
def find (key : α → κ) (k : κ) (l : List α) : Option α := l.find? fun x => decide (key x=k)

/-- The first entry with this key, and the list without it. -/
def unlink (key : α → κ) (k : κ) : List α → Option (α × List α)
  | [] => none
  | x::l => if key x=k then some (x,l) else (unlink key k l).map fun y => (y.1,x::y.2)

/-- A change of the first entry with this key. -/
def modify (key : α → κ) (k : κ) (f : α → α) : List α → List α
  | [] => []
  | x::l => if key x=k then f x::l else x::modify key k f l

section
variable {key : α → κ} {k k' : κ} {l l' : List α} {x : α} {f : α → α}

@[simp] theorem find_nil : find key k []=none := rfl

theorem find_cons : find key k (x::l)=if key x=k then some x else find key k l := by
  by_cases h : key x=k <;> simp [find,h]

theorem find_some (h : find key k l=some x) : x∈l ∧ key x=k :=
  ⟨List.mem_of_find?_eq_some h,of_decide_eq_true (List.find?_some (p := fun x => decide (key x=k)) h)⟩

theorem find_eq_none : find key k l=none ↔ k∉l.map key := by
  unfold find
  simp

/-- Where keys are not repeated, an entry is found by its key. -/
theorem find_mem (hl : (l.map key).Nodup) (hx : x∈l) : find key (key x) l=some x := by
  induction l with
  | nil => cases hx
  | cons y l ih =>
    obtain ⟨hy,hl⟩ := List.nodup_cons.mp hl
    rw [find_cons]
    cases hx with
    | head => exact if_pos rfl
    | tail _ hx =>
      rw [if_neg fun (h : key y=key x) => hy (h ▸ List.mem_map_of_mem hx)]
      exact ih hl hx

/-- The order does not matter where keys are not repeated. -/
theorem find_perm (hl : (l.map key).Nodup) (hp : l.Perm l') : find key k l=find key k l' := by
  cases hf : find key k l with
  | none =>
    have hn : k∉l'.map key := fun h => find_eq_none.mp hf ((hp.map key).mem_iff.mpr h)
    exact (find_eq_none.mpr hn).symm
  | some x =>
    obtain ⟨hx,rfl⟩ := find_some hf
    exact (find_mem ((hp.map key).nodup_iff.mp hl) (hp.mem_iff.mp hx)).symm

/-- Where an entry is found; nothing before it has its key. -/
theorem find_split (h : find key k l=some x) : ∃ a b,l=a++x::b ∧ k∉a.map key := by
  induction l with
  | nil => cases h
  | cons y l ih =>
    rw [find_cons] at h
    split at h
    · cases h
      exact ⟨[],l,rfl,List.not_mem_nil⟩
    · rename_i hy
      obtain ⟨a,b,rfl,ha⟩ := ih h
      refine ⟨y::a,b,rfl,fun hk => ?_⟩
      rw [List.map_cons,List.mem_cons] at hk
      exact hk.elim (fun h => hy h.symm) ha

theorem unlink_none (h : find key k l=none) : unlink key k l=none := by
  induction l with
  | nil => rfl
  | cons y l ih =>
    rw [find_cons] at h
    split at h
    · cases h
    · rename_i hy
      rw [unlink,if_neg hy,ih h]
      rfl

theorem unlink_split {a b : List α} (hx : key x=k) (ha : k∉a.map key) : unlink key k (a++x::b)=some (x,a++b) := by
  induction a with
  | nil => exact if_pos hx
  | cons y a ih =>
    rw [List.map_cons,List.mem_cons,not_or] at ha
    rw [List.cons_append,unlink,if_neg (Ne.symm ha.1),ih ha.2]
    rfl

theorem modify_split {a b : List α} (hx : key x=k) (ha : k∉a.map key) : modify key k f (a++x::b)=a++f x::b := by
  induction a with
  | nil => exact if_pos hx
  | cons y a ih =>
    rw [List.map_cons,List.mem_cons,not_or] at ha
    rw [List.cons_append,modify,if_neg (Ne.symm ha.1),ih ha.2]
    rfl

theorem find_append {a b : List α} : find key k (a++b)=(find key k a).or (find key k b) := List.find?_append

/-- Nothing is found any more by the key of an entry that has been taken out. -/
theorem find_unlink {a b : List α} (hl : ((a++x::b).map key).Nodup) :
    find key k (a++b)=if k=key x then none else find key k (a++x::b) := by
  rw [find_append,find_append,find_cons]
  split
  · rename_i hk
    rw [List.map_append,List.map_cons,List.nodup_append] at hl
    obtain ⟨-,hb,hab⟩ := hl
    have ha : find key k a=none := by
      rw [find_eq_none,hk]
      exact fun h => hab _ h _ List.mem_cons_self rfl
    have hb' : find key k b=none := by
      rw [find_eq_none,hk]
      exact (List.nodup_cons.mp hb).1
    rw [ha,hb']
    rfl
  · rename_i hk
    rw [if_neg (Ne.symm hk)]

/-- An entry that keeps its key is found in the old one's place. -/
theorem find_modify {a b : List α} {y : α} (hl : ((a++x::b).map key).Nodup) (hy : key y=key x) :
    find key k (a++y::b)=if k=key x then some y else find key k (a++x::b) := by
  rw [find_append,find_append,find_cons,find_cons,hy]
  by_cases hk : key x=k
  · rw [List.map_append,List.map_cons,List.nodup_append] at hl
    have ha : find key k a=none := by
      rw [find_eq_none,← hk]
      exact fun h => hl.2.2 _ h _ List.mem_cons_self rfl
    rw [ha,if_pos hk,if_pos hk.symm]
    rfl
  · rw [if_neg hk,if_neg hk,if_neg (Ne.symm hk)]

omit [DecidableEq κ] in
theorem nodup_unlink {a b : List α} (hl : ((a++x::b).map key).Nodup) : ((a++b).map key).Nodup :=
  ((List.sublist_cons_self x b).append_left a |>.map key).nodup hl

end

end Dpapp.Keyed
