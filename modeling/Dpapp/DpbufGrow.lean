import Dpapp.DpbufSpec

/-! # The arithmetic of growing -/

namespace Dpapp.DpbufGrow
open Dpapp.Segment Dpapp.Dpbuf Dpapp.DpbufSpec

variable {σ : Type*}

/-! ### Rounding up -/

/-- The values `_pow_min_value` goes through, one for each assignment. -/
def powSteps (value : ℕ) : List ℕ :=
  if value=0 then []
  else
    let v0 := value-1
    let v1 := v0 ||| v0>>>1
    let v2 := v1 ||| v1>>>2
    let v3 := v2 ||| v2>>>4
    let v4 := v3 ||| v3>>>8
    [v0,v1,v2,v3,v4,v4+1]

theorem powSteps_le (value : ℕ) : ∀ v∈powSteps value,v≤powMinValue value := by
  intro v hv
  have hor (v k : ℕ) : v≤v ||| v>>>k := Nat.left_le_or
  unfold powSteps at hv
  unfold powMinValue
  split at hv
  · cases hv
  · rename_i hz
    rw [if_neg hz]
    simp only [List.mem_cons,List.not_mem_nil,or_false] at hv ⊢
    have h1 := hor (value-1) 1
    have h2 := hor ((value-1) ||| (value-1)>>>1) 2
    have h3 := hor (((value-1) ||| (value-1)>>>1) ||| ((value-1) ||| (value-1)>>>1)>>>2) 4
    have h4 := hor ((((value-1) ||| (value-1)>>>1) ||| ((value-1) ||| (value-1)>>>1)>>>2) |||
      (((value-1) ||| (value-1)>>>1) ||| ((value-1) ||| (value-1)>>>1)>>>2)>>>4) 8
    omega

theorem powSteps_last {value : ℕ} (h : value≠0) : powMinValue value∈powSteps value := by
  unfold powSteps powMinValue
  rw [if_neg h,if_neg h]
  simp

/-- Up to a power of two nothing is rounded beyond it. -/
theorem powMinValue_le {value n : ℕ} (h : value≤2^n) : powMinValue value≤2^n := by
  have hor {v : ℕ} (k : ℕ) (hv : v<2^n) : v ||| v>>>k<2^n :=
    Nat.or_lt_two_pow hv (lt_of_le_of_lt (Nat.shiftRight_le v k) hv)
  unfold powMinValue
  split
  · exact Nat.one_le_two_pow
  · have h0 : value-1<2^n := by omega
    exact hor 8 (hor 4 (hor 2 (hor 1 h0)))

/-! ### One call -/

/-- The write position once dpbuf_resizew has recycled. -/
def recycledWbeg (b : Buf σ) (d : Data) : ℤ :=
  if b.norecycle then b.wbeg
  else if b.rbeg=b.wbeg then 0
  else if compacts b d then b.wbeg-b.rbeg
  else b.wbeg

/-- `_dpbuf_data_resize` gets as far as rounding the size up. -/
def rounds (d : Data) (size : ℤ) : Prop := 0<size ∧ d.maxs≤ size ∧ d.const=false ∧ size< intMax

instance (d : Data) (size : ℤ) : Decidable (rounds d size) := inferInstanceAs (Decidable (_ ∧ _))

/-- What dpbuf_resizew computes on its way, as if ints had no end: the size that is needed, and if the storage has to
grow the argument and the values of `_pow_min_value`. -/
def ints (b : Buf σ) (d : Data) (s : ℤ) : List ℤ :=
  if s<0 then []
  else
    let size := recycledWbeg b d+s
    size::if rounds d size then (size+1)::(powSteps (size.toNat+1)).map (↑) else []

/-- What growing promises: it stays in the storage, computes in ints, keeps the bytes, and has the room it says. -/
structure Grown (b : Buf σ) (d : Data) (s : ℤ) (b' : Buf σ) (d' : Data) (r : Bool) : Prop where
  readable : readable b' d'=readable b d
  slack : slack b' d'=slack b d
  room : r=true → s≤b'.size-b'.wbeg ∧ b'.size+1≤d'.maxs ∧ d'.maxs≤d'.data.length
  most : d'.maxs≤ max d.maxs dpbufMaxSize
  least : d.maxs≤d'.maxs

def Right (b : Buf σ) (d : Data) (s : ℤ) (mem : Mem) : Prop :=
  (∀ x∈ ints b d s,x≤ intMax) ∧ ∃ b' d' r,resizew b d s mem=some (b',d',r) ∧ Grown b d s b' d' r

section Call
variable {b b' : Buf σ} {d d' : Data} {s : ℤ} {mem : Mem} {r : Bool}

theorem store_maxs {pos : ℤ} {x : List Byte} (h : d.store pos x=some d') :
    d'.maxs=d.maxs ∧ d'.const=d.const := by
  unfold Data.store at h
  split at h <;> cases h
  exact ⟨rfl,rfl⟩

theorem recycleData_maxs (h : recycleData b d=some (b',d')) : d'.maxs=d.maxs ∧ d'.const=d.const := by
  unfold recycleData at h
  split at h
  · obtain ⟨d1,h1,h2⟩ := Option.map_eq_some_iff.mp h
    cases h2
    exact store_maxs h1
  · split at h
    · obtain ⟨x,-,h⟩ := Option.bind_eq_some_iff.mp h
      obtain ⟨d1,h1,h⟩ := Option.bind_eq_some_iff.mp h
      obtain ⟨d2,h2,h3⟩ := Option.map_eq_some_iff.mp h
      cases h3
      have e1 := store_maxs h1
      have e2 := store_maxs h2
      exact ⟨e2.1.trans e1.1,e2.2.trans e1.2⟩
    · cases h
      exact ⟨rfl,rfl⟩

theorem dataResize_maxs {size : ℤ} (h : dataResize d size mem=some (d',r)) :
    d'.maxs≤ max d.maxs dpbufMaxSize ∧ (r=true → size<d'.maxs ∨ size<0) := by
  unfold dataResize at h
  split at h
  · rename_i hlt
    obtain ⟨d1,h1,h2⟩ := Option.map_eq_some_iff.mp h
    cases h2
    have e := (store_maxs h1).1
    exact ⟨by omega,fun _ => by omega⟩
  · split at h
    · cases h
      exact ⟨le_max_left _ _,fun h => (by cases h)⟩
    · split at h
      · cases h
        exact ⟨le_max_left _ _,fun h => (by cases h)⟩
      · rename_i hsz
        simp only at h
        split at h
        · cases h
          exact ⟨le_max_left _ _,fun h => (by cases h)⟩
        · rename_i hmax
          cases mem with
          | none =>
            cases h
            exact ⟨le_max_left _ _,fun h => (by cases h)⟩
          | some f =>
            obtain ⟨d1,h1,h2⟩ := Option.map_eq_some_iff.mp h
            cases h2
            have e := (store_maxs h1).1
            have hpow := le_powMinValue (n := size.toNat+1) (by omega)
            simp only [Data.grow] at e
            exact ⟨by omega,fun _ => by omega⟩

theorem resizew_maxs (h : resizew b d s mem=some (b',d',r)) :
    d'.maxs≤ max d.maxs dpbufMaxSize ∧ (r=true → b'.size<d'.maxs ∨ b'.size<0) := by
  unfold resizew at h
  split at h
  · obtain ⟨⟨b1,d1⟩,h1,h2⟩ := Option.bind_eq_some_iff.mp h
    have hmax : d1.maxs=d.maxs := by
      split at h1
      · cases h1
        rfl
      · exact (recycleData_maxs h1).1
    simp only [resize] at h2
    split at h2
    · cases h2
      exact ⟨by omega,fun h => (by cases h)⟩
    · obtain ⟨⟨d2,r2⟩,h3,h4⟩ := Option.map_eq_some_iff.mp h2
      obtain ⟨hm,hr⟩ := dataResize_maxs h3
      rw [hmax] at hm
      cases h4
      refine ⟨hm,fun hr2 => ?_⟩
      rw [if_pos hr2]
      exact hr hr2
  · cases h
    exact ⟨le_max_left _ _,fun h => (by cases h)⟩

/-- What a call that stays in the storage does, whatever it computes. -/
theorem resizew_grown (hf : Fits b d) (hb : Block d) (hs : s≤ intMax) (hr : 0≤ s → b.norecycle=false → roomy b d) :
    ∃ b' d' r,resizew b d s mem=some (b',d',r) ∧ Grown b d s b' d' r := by
  obtain ⟨b',d',r,he,hk,hroom⟩ := resizew_spec hf hb hs hr mem
  obtain ⟨hmost,hsize⟩ := resizew_maxs he
  have h0 := hk.fits.rbeg
  have h1 := hk.fits.rend
  have h2 := hk.fits.wbeg
  have h3 := hk.fits.size
  refine ⟨b',d',r,he,hk.readable,hk.slack,fun hrt => ⟨hroom hrt,?_,hk.grows.block.room⟩,hmost,hk.grows.maxs⟩
  have := hsize hrt
  omega

end Call

/-! ### Every call -/

/-- Recycling has room for its NUL, the size that is needed is an int, and so is what it is rounded up to. -/
def fits (b : Buf σ) (d : Data) (s : ℤ) : Prop :=
  0≤ s → (b.norecycle=false → roomy b d) ∧ recycledWbeg b d+s≤ intMax ∧
    (rounds d (recycledWbeg b d+s) → (powMinValue ((recycledWbeg b d+s).toNat+1) : ℤ)≤ intMax)

theorem ints_int {b : Buf σ} {d : Data} {s : ℤ} (hs : 0≤ s) : (∀ x∈ ints b d s,x≤ intMax) ↔ recycledWbeg b d+s≤ intMax ∧
    (rounds d (recycledWbeg b d+s) → (powMinValue ((recycledWbeg b d+s).toNat+1) : ℤ)≤ intMax) := by
  unfold ints
  rw [if_neg (by omega)]
  simp only [List.forall_mem_cons]
  refine and_congr_right fun _ => ?_
  by_cases hr : rounds d (recycledWbeg b d+s)
  · rw [if_pos hr]
    have hlt := hr.2.2.2
    simp only [List.forall_mem_cons,List.forall_mem_map,hr,true_imp_iff]
    constructor
    · intro h
      exact h.2 _ (powSteps_last (by omega))
    · intro h
      refine ⟨by omega,fun v hv => ?_⟩
      have := powSteps_le _ v hv
      omega
  · rw [if_neg hr]
    simp [hr]

theorem right_iff (l : Live σ) (s : CInt) (mem : Mem) : Right l.b l.d s mem ↔ fits l.b l.d s := by
  have hint : (s : ℤ)≤ intMax := s.2.2
  constructor
  · rintro ⟨hx,b',d',r,he,-⟩ hs
    exact ⟨fun hn => resizew_roomy he hs hn,(ints_int hs).mp hx⟩
  · intro h
    refine ⟨?_,resizew_grown l.fits l.block hint fun hs => (h hs).1⟩
    by_cases hs : 0≤(s : ℤ)
    · exact (ints_int hs).mpr (h hs).2
    · unfold ints
      rw [if_pos (by omega)]
      intro x hx
      cases hx

/-- A size of less than 2^30 fits. -/
theorem fits_small {b : Buf σ} {d : Data} {s : ℤ} (hr : b.norecycle=false → roomy b d) (h : recycledWbeg b d+s<2^30) :
    fits b d s := by
  intro hs
  refine ⟨hr,by unfold intMax; omega,fun _ => ?_⟩
  have hle := powMinValue_le (show (recycledWbeg b d+s).toNat+1≤2^30 by omega)
  unfold intMax
  omega

/-! ### Growing again and again -/

def growAll : Buf σ × Data → List (CInt × Mem) → Option (Buf σ × Data)
  | x,[] => some x
  | (b,d),(s,mem)::cs => (resizew b d s mem).bind fun (b,d,_) => growAll (b,d) cs

theorem growAll_keeps {cs : List (CInt × Mem)} {b b' : Buf σ} {d d' : Data} (hf : Fits b d) (hb : Block d)
    (h : growAll (b,d) cs=some (b',d')) : Keeps b d b' d' := by
  induction cs generalizing b d with
  | nil =>
    cases h
    exact keeps_refl hf hb
  | cons c cs ih =>
    obtain ⟨s,mem⟩ := c
    obtain ⟨⟨b1,d1,r⟩,he,h⟩ := Option.bind_eq_some_iff.mp h
    obtain ⟨b2,d2,r2,he2,hk,-⟩ := resizew_spec hf hb s.2.2 (fun hs hn => resizew_roomy he hs hn) mem
    rw [he] at he2
    cases he2
    exact keeps_trans hk (ih hk.fits hk.grows.block h)

/-- A call to dpbuf_resizew keeps its promises exactly if these fit, as they do for a small size; and no number of calls
makes the storage smaller. -/
theorem grow_right : (∀ (l : Live σ) (s : CInt) (mem : Mem),Right l.b l.d s mem ↔ fits l.b l.d s) ∧
    (∀ (l : Live σ) (s : ℤ),(l.b.norecycle=false → roomy l.b l.d) → recycledWbeg l.b l.d+s<2^30 → fits l.b l.d s) ∧
    ∀ (l : Live σ) (cs : List (CInt × Mem)) (b : Buf σ) (d : Data),growAll (l.b,l.d) cs=some (b,d) →
      l.d.maxs≤d.maxs ∧ readable b d=readable l.b l.d ∧ slack b d=slack l.b l.d := by
  refine ⟨right_iff,fun l s => fits_small,?_⟩
  intro l cs b d h
  have hk := growAll_keeps l.fits l.block h
  exact ⟨hk.grows.maxs,hk.readable,hk.slack⟩

/-- "a" in a buffer of four bytes. -/
def fourBytes : Live Unit :=
  ⟨{data := (), wbeg := 1, size := 4},{data := [97,0,0,0,0], maxs := 4},by constructor <;> decide,
    by constructor <;> decide⟩

theorem grow_right_twice : ∃ b d,growAll (fourBytes.b,fourBytes.d) [(⟨5,by decide⟩,some fun _ => 0),
    (⟨9,by decide⟩,some fun _ => 0)]=some (b,d) ∧ d.maxs=16 ∧ 4≤d.maxs ∧ slack b d=[97] := by
  have hrun : ((growAll (fourBytes.b,fourBytes.d) [(⟨5,by decide⟩,some fun _ => 0),(⟨9,by decide⟩,some fun _ => 0)]).any
      fun x => x.2.maxs=16)=true := by decide
  obtain ⟨⟨b,d⟩,he,hm⟩ := (Option.any_eq_true _ _).mp hrun
  have h := grow_right.2.2 fourBytes _ b d he
  refine ⟨b,d,he,by simpa using hm,h.1,h.2.2.trans ?_⟩
  decide

/-- The size that is needed is no int. -/
theorem grow_overflow : ¬∀ (l : Live Unit) (s : CInt) (mem : Mem),Right l.b l.d s mem := by
  intro h
  have hint := (h fourBytes ⟨2147483647,by decide⟩ none).1 2147483648 (by decide)
  exact absurd hint (by decide)

/-- Rounding up overflows for the largest argument it can get. -/
example : powMinValue 2147483647=2147483648 := by decide

end Dpapp.DpbufGrow
