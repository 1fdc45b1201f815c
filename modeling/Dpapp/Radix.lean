import Mathlib.Data.Nat.Digits.Defs
import Mathlib.Data.List.Lex

/-! # Numbers of a fixed number of digits, the most significant digit first

Mathlib's `Nat.ofDigits` reads the digits the other way round and has no order on them. -/

namespace Dpapp.Radix

/-- What the digits stand for. -/
def value (b : ℕ) (ds : List ℕ) : ℕ := Nat.ofDigits b ds.reverse

/-- The `n` low digits of `v`. -/
def digits (b : ℕ) : ℕ → ℕ → List ℕ
  | 0,_ => []
  | n+1,v => digits b n (v/b)++[v%b]

variable {b : ℕ}

theorem value_nil : value b []=0 := rfl

theorem value_cons (d : ℕ) (ds : List ℕ) : value b (d::ds)=d*b^ds.length+value b ds := by
  rw [value,value,Nat.ofDigits_reverse_cons,Nat.mul_comm,Nat.add_comm]

theorem value_push (ds : List ℕ) (d : ℕ) : value b (ds++[d])=value b ds*b+d := by
  rw [value,value,List.reverse_append,List.reverse_singleton,List.singleton_append,Nat.ofDigits_cons]
  rw [Nat.mul_comm,Nat.add_comm]

theorem value_lt (hb : 1<b) {ds : List ℕ} (h : ∀ d∈ds,d<b) : value b ds<b^ds.length := by
  have hlt := Nat.ofDigits_lt_base_pow_length hb (l := ds.reverse) (by simpa using h)
  rwa [List.length_reverse] at hlt

/-- Reading from the left: a digit multiplies what has been read by the base. -/
theorem foldl_eq (ds : List ℕ) (v : ℕ) : ds.foldl (fun v d => v*b+d) v=v*b^ds.length+value b ds := by
  induction ds generalizing v with
  | nil => simp [value_nil]
  | cons d ds ih =>
    rw [List.foldl_cons,ih,value_cons,List.length_cons,Nat.pow_succ,Nat.add_mul]
    rw [Nat.mul_assoc,Nat.mul_comm b,Nat.add_assoc]

theorem length_digits (n v : ℕ) : (digits b n v).length=n := by
  induction n generalizing v with
  | zero => rfl
  | succ n ih => rw [digits,List.length_append,ih,List.length_singleton]

theorem digits_lt (hb : 0<b) (n v : ℕ) : ∀ d∈digits b n v,d<b := by
  induction n generalizing v with
  | zero => intro d hd; cases hd
  | succ n ih =>
    intro d hd
    rw [digits,List.mem_append,List.mem_singleton] at hd
    rcases hd with hd | rfl
    · exact ih (v/b) d hd
    · exact Nat.mod_lt v hb

theorem digits_zero (n : ℕ) : digits b n 0=List.replicate n 0 := by
  induction n with
  | zero => rfl
  | succ n ih => rw [digits,Nat.zero_div,Nat.zero_mod,ih,← List.replicate_succ']

theorem value_digits (n v : ℕ) : value b (digits b n v)=v%b^n := by
  induction n generalizing v with
  | zero => rw [digits,value_nil,Nat.pow_zero,Nat.mod_one]
  | succ n ih =>
    rw [digits,value_push,ih,Nat.pow_succ,Nat.mul_comm (b^n),Nat.mod_mul,Nat.mul_comm b,Nat.add_comm]

/-- Of two numbers with as many digits, the one that comes first in the order of texts is the smaller one. -/
theorem value_lt_iff (hb : 1<b) {xs ys : List ℕ} (hlen : xs.length=ys.length) (hx : ∀ d∈xs,d<b)
    (hy : ∀ d∈ys,d<b) : xs<ys ↔ value b xs<value b ys := by
  induction xs generalizing ys with
  | nil =>
    have hnil : ys=[] := List.length_eq_zero_iff.mp hlen.symm
    subst hnil
    simp
  | cons x xs ih =>
    cases ys with
    | nil => cases hlen
    | cons y ys =>
      have hlen' : xs.length=ys.length := Nat.succ.inj hlen
      have hvx := value_lt hb (fun d hd => hx d (List.mem_cons_of_mem x hd))
      have hvy := value_lt hb (fun d hd => hy d (List.mem_cons_of_mem y hd))
      have hih := ih hlen' (fun d hd => hx d (List.mem_cons_of_mem x hd)) fun d hd =>
        hy d (List.mem_cons_of_mem y hd)
      rw [List.cons_lt_cons_iff,value_cons,value_cons,hih]
      rw [hlen'] at hvx ⊢
      rcases Nat.lt_trichotomy x y with h | h | h
      · have hstep : (x+1)*b^ys.length≤y*b^ys.length := Nat.mul_le_mul_right _ h
        rw [Nat.succ_mul] at hstep
        exact ⟨fun _ => by omega,fun _ => Or.inl h⟩
      · subst h
        exact ⟨fun hor => by rcases hor with hor | hor <;> omega,fun hlt => Or.inr ⟨rfl,by omega⟩⟩
      · have hstep : (y+1)*b^ys.length≤x*b^ys.length := Nat.mul_le_mul_right _ h
        rw [Nat.succ_mul] at hstep
        exact ⟨fun hor => by rcases hor with hor | hor <;> omega,fun hlt => absurd hlt (by omega)⟩

end Dpapp.Radix
