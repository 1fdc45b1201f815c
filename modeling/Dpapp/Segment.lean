import Mathlib

/-! # Segments of a block of memory -/

namespace Dpapp.Segment
variable {α : Type*}

/-- What lies in [a,b). -/
def seg (l : List α) (a b : ℕ) : List α := (l.drop a).take (b-a)

/-- The block after `x` has been stored at `p`. -/
def put (l : List α) (p : ℕ) (x : List α) : List α := l.take p++x++l.drop (p+x.length)

variable {l x : List α} {a b c p n : ℕ}

@[simp] theorem seg_self : seg l a a=[] := by simp [seg]

theorem length_seg (h : b≤l.length) : (seg l a b).length=b-a := by
  simp only [seg,List.length_take,List.length_drop]
  omega

theorem getElem?_seg (i : ℕ) : (seg l a b)[i]?=if i<b-a then l[a+i]? else none := by
  simp only [seg,List.getElem?_take,List.getElem?_drop]

theorem seg_append (h1 : a≤b) (h2 : b≤c) : seg l a b++seg l b c=seg l a c := by
  have hb : l.drop b=(l.drop a).drop (b-a) := by rw [List.drop_drop]; congr 1; omega
  have hc : c-a=(b-a)+(c-b) := by omega
  rw [seg,seg,seg,hb,hc,List.take_add]

theorem take_seg (h : a+n≤b) : (seg l a b).take n=seg l a (a+n) := by
  rw [seg,seg,List.take_take]
  congr 1
  omega

theorem drop_seg : (seg l a b).drop n=seg l (a+n) b := by
  rw [seg,seg,List.drop_take,List.drop_drop]
  congr 1
  omega

theorem length_put (h : p+x.length≤l.length) : (put l p x).length=l.length := by
  simp only [put,List.length_append,List.length_take,List.length_drop]
  omega

theorem getElem?_put (h : p+x.length≤l.length) (i : ℕ) :
    (put l p x)[i]?=if i<p then l[i]? else if i<p+x.length then x[i-p]? else l[i]? := by
  have hp : (l.take p).length=p := by rw [List.length_take]; omega
  rw [put,List.append_assoc,List.getElem?_append,hp]
  split
  · rename_i hi
    rw [List.getElem?_take,if_pos hi]
  · rw [List.getElem?_append]
    by_cases hi : i<p+x.length
    · rw [if_pos (by omega),if_pos hi]
    · rw [if_neg (by omega),if_neg hi,List.getElem?_drop]
      congr 1
      omega

/-- A store is seen only where it lands. -/
theorem seg_put_off (h : p+x.length≤l.length) (hd : b≤p ∨ p+x.length≤a) : seg (put l p x) a b=seg l a b := by
  refine List.ext_getElem? fun i => ?_
  rw [getElem?_seg,getElem?_seg]
  split
  · rw [getElem?_put h]
    by_cases hi : a+i<p
    · rw [if_pos hi]
    · rw [if_neg hi,if_neg (by omega)]
  · rfl

theorem seg_put_self (h : p+x.length≤l.length) : seg (put l p x) p (p+x.length)=x := by
  have hp : (l.take p).length=p := by rw [List.length_take]; omega
  have hd : (put l p x).drop p=x++l.drop (p+x.length) := by
    rw [put,List.append_assoc,List.drop_append,hp]
    simp
  rw [seg,hd,Nat.add_sub_cancel_left,List.take_left]

theorem put_mid {y z : List α} (h : y.length=x.length) : put (l++y++z) l.length x=l++x++z := by
  have ht : (l++y++z).take l.length=l := by rw [List.append_assoc,List.take_left]
  have hd : (l++y++z).drop (l.length+x.length)=z := List.drop_left' (by rw [List.length_append,h])
  rw [put,ht,hd]

/-- A store right behind another one. -/
theorem put_put {y : List α} (h : p+x.length≤l.length) : put (put l p x) (p+x.length) y=put l p (x++y) := by
  have hp : (l.take p++x).length=p+x.length := by
    rw [List.length_append,List.length_take]
    omega
  have htake : (put l p x).take (p+x.length)=l.take p++x := by
    rw [put,← hp,List.take_left]
  have hdrop : (put l p x).drop (p+x.length+y.length)=l.drop (p+(x++y).length) := by
    rw [put,← hp,List.drop_append,List.drop_drop,hp,List.length_append]
    rw [List.drop_eq_nil_of_le (by omega),List.nil_append]
    congr 1
    omega
  rw [put,htake,hdrop,put,List.append_assoc (l.take p)]

theorem seg_append_left {m : List α} (h : b≤l.length) : seg (l++m) a b=seg l a b := by
  refine List.ext_getElem? fun i => ?_
  rw [getElem?_seg,getElem?_seg]
  split
  · rw [List.getElem?_append_left (by omega)]
  · rfl

theorem seg_take (h : b≤n) : seg (l.take n) a b=seg l a b := by
  refine List.ext_getElem? fun i => ?_
  rw [getElem?_seg,getElem?_seg]
  split
  · rw [List.getElem?_take,if_pos (by omega)]
  · rfl

/-! ### Searching -/

variable [DecidableEq α]

/-- Where `n` first occurs. -/
def find (n : List α) : List α → Option ℕ
  | [] => if n=[] then some 0 else none
  | y::h => if n<+:y::h then some 0 else (find n h).map (·+1)

theorem find_nil (n : List α) : find n []=if n=[] then some 0 else none := rfl

theorem find_cons (n h : List α) (y : α) : find n (y::h)=if n<+:y::h then some 0 else (find n h).map (·+1) := rfl

theorem find_le {n h : List α} {i : ℕ} (hf : find n h=some i) : i+n.length≤h.length := by
  induction h generalizing i with
  | nil =>
    rw [find_nil] at hf
    split at hf <;> cases hf
    rename_i hn
    simp [hn]
  | cons y h ih =>
    rw [find_cons] at hf
    split at hf
    · rename_i hp
      cases hf
      simpa using hp.length_le
    · obtain ⟨j,hj,rfl⟩ := Option.map_eq_some_iff.mp hf
      have := ih hj
      simp only [List.length_cons]
      omega

theorem find_at {n h : List α} {i : ℕ} (hf : find n h=some i) : n<+:h.drop i := by
  induction h generalizing i with
  | nil =>
    rw [find_nil] at hf
    split at hf <;> cases hf
    rename_i hn
    simp [hn]
  | cons y h ih =>
    rw [find_cons] at hf
    split at hf
    · rename_i hp
      cases hf
      exact hp
    · obtain ⟨j,hj,rfl⟩ := Option.map_eq_some_iff.mp hf
      exact ih hj

theorem find_first {n h : List α} {i j : ℕ} (hf : find n h=some i) (hj : j< i) : ¬n<+:h.drop j := by
  induction h generalizing i j with
  | nil =>
    rw [find_nil] at hf
    split at hf <;> cases hf
    omega
  | cons y h ih =>
    rw [find_cons] at hf
    split at hf
    · cases hf
      omega
    · rename_i hp
      obtain ⟨k,hk,rfl⟩ := Option.map_eq_some_iff.mp hf
      cases j with
      | zero => exact hp
      | succ j => exact ih hk (Nat.lt_of_succ_lt_succ hj)

/-- Where nothing begins, the search can be skipped. -/
theorem find_drop {n h : List α} {k : ℕ} (hno : ∀ j<k,¬n<+:h.drop j) : find n h=(find n (h.drop k)).map (k+·) := by
  induction k generalizing h with
  | zero => simp
  | succ k ih =>
    cases h with
    | nil =>
      have hn : n≠[] := fun hn => hno 0 (Nat.succ_pos k) (by rw [hn]; exact List.nil_prefix)
      simp [find_nil,hn]
    | cons y h =>
      have hhead : ¬n<+:y::h := hno 0 (Nat.succ_pos k)
      rw [find_cons,if_neg hhead,ih fun j hj => hno (j+1) (Nat.succ_lt_succ hj),List.drop_succ_cons,Option.map_map]
      congr 1
      funext j
      exact Nat.add_right_comm k j 1

theorem find_none {n h : List α} {i : ℕ} (hf : find n h=none) (hi : i≤h.length) : ¬n<+:h.drop i := by
  induction h generalizing i with
  | nil =>
    rw [find_nil] at hf
    split at hf
    · cases hf
    · rename_i hn
      simpa using hn
  | cons y h ih =>
    rw [find_cons] at hf
    split at hf
    · cases hf
    · rename_i hp
      cases i with
      | zero => exact hp
      | succ i => exact ih (Option.map_eq_none_iff.mp hf) (Nat.le_of_succ_le_succ hi)

/-- What is found stays found when more comes. -/
theorem find_append {n h x : List α} {i : ℕ} (hf : find n h=some i) : find n (h++x)=some i := by
  induction h generalizing i with
  | nil =>
    rw [find_nil] at hf
    split at hf <;> cases hf
    rename_i hn
    subst hn
    cases x <;> simp [find_nil,find_cons]
  | cons y h ih =>
    rw [List.cons_append]
    rw [find_cons] at hf ⊢
    split at hf
    · rename_i hp
      cases hf
      exact if_pos (hp.trans (List.prefix_append (y::h) x))
    · rename_i hp
      obtain ⟨j,hj,rfl⟩ := Option.map_eq_some_iff.mp hf
      have hle := find_le hj
      have hno : ¬n<+:y::(h++x) := fun hpre => by
        refine hp (List.prefix_of_prefix_length_le hpre (List.prefix_append (y::h) x) ?_)
        simp only [List.length_cons]
        omega
      rw [if_neg hno,ih hj]
      rfl

/-- What begins in the part that has been searched does not end there. -/
theorem find_later {n h x : List α} {j : ℕ} (hf : find n h=none) (hj : j+n.length≤h.length) : ¬n<+:(h++x).drop j := by
  intro hp
  refine find_none hf (by omega : j≤h.length) ?_
  rw [List.drop_append_of_le_length (by omega)] at hp
  refine List.prefix_of_prefix_length_le hp (List.prefix_append ..) ?_
  rw [List.length_drop]
  omega

end Dpapp.Segment
