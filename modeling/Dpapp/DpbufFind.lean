import Dpapp.DpbufFits

/-! # Searching and comparing

dpbuf.c, and the operators of dpcpp_buf.hh. -/

namespace Dpapp.DpbufFind
open Dpapp.Segment Dpapp.Dpbuf Dpapp.DpbufSpec Dpapp.DpbufFits

variable {σ : Type*}

/-! ### The window alone -/

theorem cut_fits (l : Live σ) :
    Fits {l.b with rbeg := 0, rend := l.b.crsize, wbeg := l.b.crsize, size := l.b.crsize}
      {l.d with data := readable l.b l.d, maxs := l.b.crsize} := by
  have hend := l.fits.rend
  refine ⟨le_rfl,?_,le_rfl,le_rfl,le_rfl⟩
  simp only [Buf.crsize]
  omega

theorem cut_block (l : Live σ) : Block {l.d with data := readable l.b l.d, maxs := l.b.crsize} := by
  have hlen := length_readable l.fits l.block
  have h0 := l.fits.rbeg
  have h2 := l.fits.wbeg
  have h3 := l.fits.size
  have h4 := l.fits.maxs
  have h5 := l.block.int
  unfold Buf.crsize
  exact ⟨by simp only; omega,by simp only; omega⟩

/-- The buffer in storage that ends where its window ends: what reads beyond the window fails here. -/
def cut (l : Live σ) : Live σ where
  b := {l.b with rbeg := 0, rend := l.b.crsize, wbeg := l.b.crsize, size := l.b.crsize}
  d := {l.d with data := readable l.b l.d, maxs := l.b.crsize}
  fits := cut_fits l
  block := cut_block l

variable {l : Live σ} {pos len left : ℤ} {p n : List Byte}

theorem crsize_cut (l : Live σ) : (cut l).b.crsize=l.b.crsize := by simp [cut,Buf.crsize]

theorem readable_cut (l : Live σ) : readable (cut l).b (cut l).d=readable l.b l.d := by
  have hlen := length_readable l.fits l.block
  have h1 := l.fits.rend
  simp only [readable,cut,Buf.crsize,seg]
  rw [Int.toNat_zero,List.drop_zero,List.take_of_length_le]
  simp only [readable,seg] at hlen
  omega

theorem length_window (l : Live σ) : ((readable l.b l.d).length : ℤ)=l.b.crsize := length_readable l.fits l.block

/-- What is loaded inside of the window. -/
theorem load_window (l : Live σ) (h0 : 0≤pos) (hl : 0≤len) (h : pos+len≤l.b.crsize) :
    l.d.load (l.b.rbeg+pos) len=some (((readable l.b l.d).drop pos.toNat).take len.toNat) := by
  have h1 := l.fits.rbeg
  have h2 := l.fits.wbeg
  have h3 := l.fits.size
  have h4 := l.fits.maxs
  have h5 := l.block.room
  unfold Buf.crsize at h
  rw [load_some hl (by omega) (by omega),readable,drop_seg,take_seg (by omega)]
  congr 2 <;> omega

/-- The string that a pointer and a length stand for. -/
def given (p : List Byte) (len : ℤ) : List Byte := if len<0 then p.takeWhile (·≠0) else p.take len.toNat

theorem given_len (h : pointer p len) : (if len<0 then strlen p else some len)=some ((given p len).length : ℤ) ∧
    given p len=p.take (given p len).length ∧ (given p len).length≤p.length := by
  unfold pointer at h
  unfold given
  by_cases hlt : len<0
  · rw [if_pos hlt] at h
    simp only [if_pos hlt]
    have hw := (wrap_cases (p.takeWhile (·≠0)).length).2.2.1 (by omega) h.2
    have hle := (List.takeWhile_sublist (l := p) (·≠0)).length_le
    refine ⟨by rw [strlen,if_pos h.1,hw],?_,hle⟩
    exact (List.prefix_iff_eq_take.mp (List.takeWhile_prefix _))
  · rw [if_neg hlt] at h
    simp only [if_neg hlt,List.length_take]
    refine ⟨by congr 1; omega,?_,by omega⟩
    rw [min_eq_left (by omega)]

theorem bytes_given (h : pointer p len) : bytes p (given p len).length=some (given p len) := by
  obtain ⟨-,he,hle⟩ := given_len h
  rw [bytes,if_pos ⟨by omega,by omega⟩,Int.toNat_natCast,←he]

/-! ### dpbuf_cfind -/

theorem cfind_eq (l : Live σ) (hp : pointer p len) (h0 : 0≤left) (h1 : left≤l.b.crsize) :
    cfind l.b l.d (some p) len left=some (if given p len=[] ∨ l.b.crsize<(given p len).length then enodata else
      match find (given p len) ((readable l.b l.d).drop left.toNat) with
      | none => eperm
      | some i => left+i) := by
  obtain ⟨hl,-,-⟩ := given_len hp
  have hw := length_window l
  simp only [cfind,hl,Option.bind_some]
  by_cases hc : given p len=[] ∨ l.b.crsize<(given p len).length
  · rw [if_pos hc,if_pos]
    obtain hc | hc := hc
    · exact .inl (by rw [hc]; rfl)
    · exact .inr hc
  · have hne : ¬(((given p len).length : ℤ)=0 ∨ l.b.crsize<(given p len).length) := fun h => hc (h.imp_left fun h => by
      exact List.length_eq_zero_iff.mp (by omega))
    rw [if_neg hc,if_neg hne,bytes_given hp,load_window l h0 (by omega) (by omega)]
    rw [List.take_of_length_le (by rw [List.length_drop]; omega)]
    rfl

/-- Where something that is not empty begins in the window. -/
def occurs (n h : List Byte) (k : ℤ) : Prop := n≠[] ∧ 0≤k ∧ n<+:h.drop k.toNat

/-- What dpbuf_cfind promises: the first place from `left` on or an error, and no look beyond the window. -/
def FindRight (l : Live σ) (pat : Option (List Byte)) (len left : ℤ) : Prop :=
  ∃ r,cfind l.b l.d pat len left=some r ∧ cfind (cut l).b (cut l).d pat len left=some r ∧ ∀ p∈pat,
    (0≤r → occurs (given p len) (readable l.b l.d) r ∧ left≤r ∧
      ∀ j,left≤j → j<r → ¬occurs (given p len) (readable l.b l.d) j) ∧
    (r<0 → ∀ j,left≤j → ¬occurs (given p len) (readable l.b l.d) j)

/-- The search begins in the window, or there is none: the string is empty or too long. -/
def inWindow (l : Live σ) (pat : Option (List Byte)) (len left : ℤ) : Prop :=
  ∀ p∈pat,given p len≠[] → ((given p len).length : ℤ)≤l.b.crsize → 0≤left ∧ left≤l.b.crsize

theorem occurs_le {k : ℤ} (h : occurs n p k) : k+n.length≤p.length := by
  obtain ⟨hne,h0,hp⟩ := h
  have hle := hp.length_le
  have hpos := List.length_pos_iff.mpr hne
  rw [List.length_drop] at hle
  omega

/-- The search itself, from a place in the window. -/
theorem find_window {w : List Byte} (h0 : 0≤left) (hne : n≠[]) :
    let r := match find n (w.drop left.toNat) with
      | none => eperm
      | some i => left+i
    (0≤r → occurs n w r ∧ left≤r ∧ ∀ j,left≤j → j<r → ¬occurs n w j) ∧ (r<0 → ∀ j,left≤j → ¬occurs n w j) := by
  have hat {j : ℤ} (hj : left≤j) : w.drop j.toNat=(w.drop left.toNat).drop (j-left).toNat := by
    rw [List.drop_drop]
    congr 1
    omega
  cases hf : find n (w.drop left.toNat) with
  | none =>
    refine ⟨fun h => absurd h (by simp [eperm]),fun _ j hj ho => ?_⟩
    have hle := occurs_le ho
    have hpos := List.length_pos_iff.mpr hne
    refine find_none hf (i := (j-left).toNat) (by rw [List.length_drop]; omega) ?_
    rw [←hat hj]
    exact ho.2.2
  | some i =>
    refine ⟨fun _ => ⟨⟨hne,by simp only; omega,?_⟩,by simp only; omega,fun j hj hlt ho => ?_⟩,fun h => ?_⟩
    · simp only
      rw [hat (by omega)]
      have hi : (left+(i : ℤ)-left).toNat=i := by omega
      rw [hi]
      exact find_at hf
    · simp only at hlt
      refine find_first hf (j := (j-left).toNat) (by omega) ?_
      rw [←hat hj]
      exact ho.2.2
    · simp only at h
      omega

theorem cfind_out (hp : pointer p len) (hne : given p len≠[]) (hlen : ((given p len).length : ℤ)≤l.b.crsize)
    (hout : ¬(0≤left ∧ left≤l.b.crsize)) : cfind (cut l).b (cut l).d (some p) len left=none := by
  obtain ⟨hl,-,-⟩ := given_len hp
  have hpos := List.length_pos_iff.mpr hne
  have hw := length_window l
  have hcr := crsize_cut l
  have hno : (cut l).d.load ((cut l).b.rbeg+left) ((cut l).b.crsize-left)=none := by
    rw [hcr]
    simp only [cut,Data.load]
    refine if_neg ?_
    rintro ⟨g0,g1,-⟩
    exact hout ⟨by omega,by omega⟩
  simp only [cfind,hl,Option.bind_some]
  rw [if_neg (by omega),bytes_given hp,hno]
  rfl

theorem find_right (l : Live σ) {pat : Option (List Byte)} (hp : ∀ p∈pat,pointer p len) :
    FindRight l pat len left ↔ inWindow l pat len left := by
  have hw := length_window l
  constructor
  · rintro ⟨r,-,hcut,-⟩ p hpat hne hlen
    by_contra hout
    cases hpat
    rw [cfind_out (hp p rfl) hne hlen hout] at hcut
    cases hcut
  · intro hin
    cases pat with
    | none => exact ⟨einval,rfl,rfl,fun p hpat => (by cases hpat)⟩
    | some p =>
      by_cases hc : given p len=[] ∨ l.b.crsize<(given p len).length
      · -- nothing is searched, wherever `left` is
        have hno (j : ℤ) : ¬occurs (given p len) (readable l.b l.d) j := by
          intro ho
          have hle := occurs_le ho
          have h0 := ho.2.1
          obtain hc | hc := hc
          · exact ho.1 hc
          · omega
        have hres (m : Live σ) (hm : m.b.crsize=l.b.crsize) : cfind m.b m.d (some p) len left=some enodata := by
          obtain ⟨hl,-,-⟩ := given_len (hp p rfl)
          simp only [cfind,hl,Option.bind_some,hm]
          refine if_pos (hc.imp_left fun h => ?_)
          rw [h]
          rfl
        refine ⟨enodata,hres l rfl,hres (cut l) (crsize_cut l),?_⟩
        rintro q hq
        cases hq
        exact ⟨fun h => absurd h (by decide),fun _ j _ => hno j⟩
      · have hne : given p len≠[] := fun h => hc (.inl h)
        obtain ⟨h0,h1⟩ := hin p rfl hne (by omega)
        refine ⟨_,cfind_eq l (hp p rfl) h0 h1,?_,?_⟩
        · rw [cfind_eq (cut l) (hp p rfl) h0 (by rw [crsize_cut]; exact h1),crsize_cut,readable_cut]
        · rintro q hq
          cases hq
          rw [if_neg hc]
          exact find_window h0 hne

/-! ### Beginnings -/

theorem cequalc_eq (l : Live σ) (hp : pointer p len) : cequalc l.b l.d p len=
    some (l.b,l.d,if given p len≠[] ∧ given p len<+:readable l.b l.d then 1 else 0) := by
  obtain ⟨hl,-,-⟩ := given_len hp
  have hw := length_window l
  simp only [cequalc,hl,Option.bind_some]
  by_cases hc : ((given p len).length : ℤ)=0 ∨ l.b.crsize<(given p len).length
  · rw [if_pos hc,if_neg]
    rintro ⟨hne,hpre⟩
    have hpos := List.length_pos_iff.mpr hne
    have hle := hpre.length_le
    omega
  · have hload := load_window l (le_refl (0 : ℤ)) (by omega : (0 : ℤ)≤(given p len).length) (by omega)
    rw [add_zero,Int.toNat_zero,List.drop_zero,Int.toNat_natCast] at hload
    rw [if_neg hc,bytes_given hp,hload]
    have hne : given p len≠[] := fun h => hc (.inl (by rw [h]; rfl))
    simp only [Option.bind_some,Option.map_some,List.prefix_iff_eq_take,ne_eq,hne,not_false_iff,true_and]

/-- What dpbuf_cbegwith looks for. -/
def begins (n w : List Byte) (skip : Bool) : Prop := w≠[] ∧ n<+:if skip then w.dropWhile isws else w

instance (n w : List Byte) (skip : Bool) : Decidable (begins n w skip) := inferInstanceAs (Decidable (_ ∧ _))

theorem cbegwith_eq (l : Live σ) {sub : Option (List Byte)} {skip : Bool} (hp : ∀ p∈sub,pointer p len) :
    cbegwith l.b l.d sub len skip=some (l.b,l.d,if ∃ p∈sub,begins (given p len) (readable l.b l.d) skip then 1 else 0) := by
  have hw := length_window l
  cases sub with
  | none => simp [cbegwith]
  | some p =>
    have hp := hp p rfl
    obtain ⟨hl,-,-⟩ := given_len hp
    simp only [cbegwith,hl,Option.bind_some,Option.mem_some_iff,exists_eq_left']
    set w := readable l.b l.d with hwe
    set n := given p len with hn
    -- the blanks that are skipped
    obtain ⟨k,hk,hkw,hkd⟩ : ∃ k : ℕ,(if skip=true then (l.d.load l.b.rbeg l.b.crsize).map
        fun x => ((x.takeWhile isws).length : ℤ) else some 0)=some (k : ℤ) ∧ k≤w.length ∧
        (if skip=true then w.dropWhile isws else w)=w.drop k := by
      cases skip with
      | true =>
        have hload : l.d.load l.b.rbeg l.b.crsize=some w := load_readable l.fits l.block
        refine ⟨(w.takeWhile isws).length,by rw [hload]; rfl,(List.takeWhile_sublist _).length_le,?_⟩
        exact (List.drop_left' rfl).symm.trans (congrArg (List.drop _) List.takeWhile_append_dropWhile)
      | false => exact ⟨0,rfl,Nat.zero_le _,rfl⟩
    have hlen : (w.drop k).length=w.length-k := List.length_drop
    simp only [begins,hkd]
    by_cases he : l.b.crsize=0
    · have hnil : w=[] := List.length_eq_zero_iff.mp (by omega)
      rw [if_pos he,if_neg fun h => h.1 hnil]
    · have hne : w≠[] := fun h => he (by rw [h] at hw; exact hw.symm)
      rw [if_neg he]
      by_cases hs : l.b.crsize<n.length
      · rw [if_pos hs,if_neg fun h => by have := h.2.length_le; omega]
      · rw [if_neg hs,hk]
        simp only [Option.bind_some]
        by_cases ht : l.b.crsize-k<n.length
        · rw [if_pos ht,if_neg fun h => by have := h.2.length_le; omega]
        · have hload := load_window l (by omega : (0 : ℤ)≤k) (by omega : (0 : ℤ)≤n.length) (by omega)
          rw [Int.toNat_natCast,Int.toNat_natCast,←hwe] at hload
          rw [if_neg ht,hn,bytes_given hp,←hn,hload]
          simp only [Option.bind_some,Option.map_some,List.prefix_iff_eq_take,ne_eq,hne,not_false_iff,true_and]

/-! ### dpbuf_ccmp -/

/-- Length first, then bytes. -/
def before (v w : List Byte) : Prop := v.length<w.length ∨ v.length=w.length ∧ v<w

theorem before_order : IsStrictTotalOrder (List Byte) before where
  irrefl v h := by
    obtain h | ⟨-,h⟩ := h
    · omega
    · exact Std.lt_irrefl h
  trans u v w h h' := by
    obtain h | ⟨he,h⟩ := h
    · obtain h' | ⟨he',-⟩ := h'
      · exact .inl (by omega)
      · exact .inl (by omega)
    · obtain h' | ⟨he',h'⟩ := h'
      · exact .inl (by omega)
      · exact .inr ⟨he.trans he',Std.lt_trans h h'⟩
  trichotomous v w h h' := by
    have hlen : v.length=w.length := by
      by_contra hne
      obtain hlt | hgt := Nat.lt_or_gt_of_ne hne
      · exact h (.inl hlt)
      · exact h' (.inl hgt)
    obtain hlt | heq | hgt := Std.lt_trichotomy v w
    · exact absurd (.inr ⟨hlen,hlt⟩) h
    · exact heq
    · exact absurd (.inr ⟨hlen.symm,hgt⟩) h'

/-- What a three-way comparison says of two windows. -/
def Compares (r : ℤ) (v w : List Byte) : Prop := (r<0 ↔ before v w) ∧ (r=0 ↔ v=w) ∧ (0<r ↔ before w v)

/-- The answer of two buffers that are not the same. -/
def answer (v w : List Byte) : ℤ :=
  if v.length≠w.length then v.length-w.length else if v=w then 0 else if v<w then -1 else 1

theorem answer_compares (v w : List Byte) : Compares (answer v w) v w := by
  unfold Compares answer before
  by_cases hlen : v.length=w.length
  · rw [if_neg (not_not.mpr hlen)]
    obtain hlt | heq | hgt := Std.lt_trichotomy v w
    · have hne : v≠w := fun h => Std.lt_irrefl (h ▸ hlt)
      have hgt : ¬w<v := fun h => Std.lt_irrefl (Std.lt_trans h hlt)
      simp [hne,hlt,hlen,hgt]
    · subst heq
      simp
    · have hne : v≠w := fun h => Std.lt_irrefl (h ▸ hgt)
      have hlt : ¬v<w := fun h => Std.lt_irrefl (Std.lt_trans h hgt)
      simp [hne,hgt,hlen,hlt]
  · rw [if_pos hlen]
    have hne : v≠w := fun h => hlen (by rw [h])
    refine ⟨?_,?_,?_⟩
    · simp only [hlen,false_and,or_false]
      omega
    · simp only [hne,iff_false]
      omega
    · simp only [Ne.symm hlen,false_and,or_false]
      omega

section Heap
variable {β : Type*} [DecidableEq β] {h : Heap β σ} {i j : β}

/-- The two buffers that `i` and `j` stand for. -/
structure Pair (h : Heap β σ) (i j : β) (l m : Live σ) : Prop where
  bi : h.buf i=some l.b
  di : h.store l.b.data=some l.d
  bj : h.buf j=some m.b
  dj : h.store m.b.data=some m.d

theorem ccmp_eq {l m : Live σ} (hp : Pair h i j l m) :
    ccmp h i j=some (h,answer (readable l.b l.d) (readable m.b m.d)) := by
  have hl := length_window l
  have hm := length_window m
  have hli : l.d.load l.b.rbeg l.b.crsize=some (readable l.b l.d) := load_readable l.fits l.block
  have hmi : m.d.load m.b.rbeg m.b.crsize=some (readable m.b m.d) := load_readable m.fits m.block
  unfold ccmp answer
  by_cases hij : i=j
  · subst hij
    have hb : l.b=m.b := Option.some.inj (hp.bi.symm.trans hp.bj)
    have hd : l.d=m.d := Option.some.inj (hp.di.symm.trans (by rw [hb]; exact hp.dj))
    simp [hb,hd]
  · rw [if_neg hij,hp.bi,hp.bj]
    simp only [Option.bind_some]
    by_cases hne : l.b.crsize=m.b.crsize
    · have hlen : (readable l.b l.d).length=(readable m.b m.d).length := by omega
      rw [if_neg (not_not.mpr hne),if_neg (not_not.mpr hlen)]
      by_cases hpos : l.b.crsize>0
      · rw [if_pos hpos]
        simp only [Heap.read,hp.bi,hp.bj,hp.di,hp.dj,Option.bind_some,hli]
        rw [hne,hmi]
        rfl
      · have h1 : readable l.b l.d=[] := List.length_eq_zero_iff.mp (by omega)
        have h2 : readable m.b m.d=[] := List.length_eq_zero_iff.mp (by omega)
        rw [if_neg hpos,h1,h2]
        rfl
    · have hlen : (readable l.b l.d).length≠(readable m.b m.d).length := by omega
      rw [if_pos hne,if_pos hlen,hl,hm]

/-- Two buffers, each in storage of its own. -/
def Live.at_ {τ : Type*} (l : Live σ) (s : τ) : Live τ where
  b := {data := s, norecycle := l.b.norecycle, rbeg := l.b.rbeg, rend := l.b.rend, wbeg := l.b.wbeg, size := l.b.size}
  d := l.d
  fits := ⟨l.fits.rbeg,l.fits.rend,l.fits.wbeg,l.fits.size,l.fits.maxs⟩
  block := l.block

def separate (l m : Live σ) : Heap Bool Bool where
  buf k := some (if k then (Live.at_ m true).b else (Live.at_ l false).b)
  store k := some (if k then m.d else l.d)

theorem ccmp_separate (l m : Live σ) : ccmp (separate l m) false true=
    some (separate l m,answer (readable l.b l.d) (readable m.b m.d)) :=
  ccmp_eq (l := Live.at_ l false) (m := Live.at_ m true) ⟨rfl,rfl,rfl,rfl⟩

/-- What dpbuf_ccmp promises: an order of the windows, and no look beyond them. -/
def CmpRight (h : Heap β σ) (i j : β) (l m : Live σ) : Prop :=
  ∃ r,ccmp h i j=some (h,r) ∧ ccmp (separate (cut l) (cut m)) false true=some (separate (cut l) (cut m),r) ∧
    Compares r (readable l.b l.d) (readable m.b m.d)

theorem cmp_right {l m : Live σ} (hp : Pair h i j l m) : CmpRight h i j l m := by
  refine ⟨_,ccmp_eq hp,?_,answer_compares _ _⟩
  have hcut := ccmp_separate (cut l) (cut m)
  rwa [readable_cut,readable_cut] at hcut

/-! ### dpcpp::buf, whose pointer may be NULL -/

/-- dpbuf_ccmp with NULL. -/
def ccmpNull (h : Heap β σ) : Option β → Option β → Option ℤ
  | none,none => some 0
  | none,some _ => some (-1)
  | some _,none => some 1
  | some i,some j => (ccmp h i j).map (·.2)

/-- `b1 == b2` -/
def eqBuf (h : Heap β σ) (x y : Option β) : Option Bool := (ccmpNull h x y).map (·=0)

/-- `b1 <=> b2` -/
def spaceship (h : Heap β σ) (x y : Option β) : Option Ordering :=
  (ccmpNull h x y).map fun r => if r=0 then .eq else if r>0 then .gt else .lt

/-- `b == s` for a C string -/
def eqCstr (l : Live σ) (s : List Byte) : Option Bool := (cequalc l.b l.d s (-1)).map (·.2.2≠0)

/-- `b == s` for a string_view -/
def eqView (l : Live σ) (s : List Byte) : Option Bool := (cequalc l.b l.d s (wrap s.length)).map (·.2.2≠0)

/-- std::hash of a buffer that is not NULL; `view` is std::hash of a string_view. -/
def hash (view : List Byte → ℕ) (l : Live σ) : ℕ := if l.b.crsize=0 then 0 else view (readable l.b l.d)

theorem hash_eq (view : List Byte → ℕ) (l : Live σ) :
    hash view l=if readable l.b l.d=[] then 0 else view (readable l.b l.d) := by
  have hw := length_window l
  unfold hash
  congr 1
  rw [eq_iff_iff,←List.length_eq_zero_iff]
  omega

/-- Equality with a string is right: it is of the whole window. -/
def EqRight (o : Option Bool) (s w : List Byte) : Prop := ∃ t,o=some t ∧ (t=true ↔ w=s)

/-- The string is not a proper beginning of the window, and not empty like it. -/
def tellsApart (s w : List Byte) : Prop := ¬(s=[] ∧ w=[]) ∧ (s≠[] → s<+:w → s=w)

theorem eq_right {o : Option Bool} {s w : List Byte} (ho : o=some (decide (s≠[] ∧ s<+:w))) :
    EqRight o s w ↔ tellsApart s w := by
  constructor
  · rintro ⟨t,ht,hiff⟩
    cases ho.symm.trans ht
    rw [decide_eq_true_iff] at hiff
    refine ⟨?_,fun hne hpre => (hiff.mp ⟨hne,hpre⟩).symm⟩
    rintro ⟨hs,hw⟩
    exact (hiff.mpr (hw.trans hs.symm)).1 hs
  · rintro ⟨hempty,hpre⟩
    refine ⟨_,ho,?_⟩
    rw [decide_eq_true_iff]
    constructor
    · rintro ⟨hne,hp⟩
      exact (hpre hne hp).symm
    · rintro rfl
      exact ⟨fun h => hempty ⟨h,h⟩,List.prefix_refl w⟩

theorem eqCstr_right (l : Live σ) {s : List Byte} (h0 : (0 : Byte)∉s) (hs : s.length≤ intMax) :
    EqRight (eqCstr l (s++[0])) s (readable l.b l.d) ↔ tellsApart s (readable l.b l.d) := by
  have htake : (s++[0]).takeWhile (·≠0)=s := by
    rw [List.takeWhile_append_of_pos fun x hx => by
      have : x≠0 := fun h => h0 (h ▸ hx)
      simpa using this]
    simp
  have hp : pointer (s++[0]) (-1) := by
    unfold pointer
    rw [if_pos (by decide),htake]
    exact ⟨by simp,hs⟩
  have hg : given (s++[0]) (-1)=s := by
    unfold given
    rw [if_pos (by decide),htake]
  apply eq_right
  unfold eqCstr
  rw [cequalc_eq l hp,hg]
  by_cases hc : s≠[] ∧ s<+:readable l.b l.d
  · simp [hc]
  · rw [if_neg hc,decide_eq_false hc]
    rfl

theorem eqView_right (l : Live σ) {s : List Byte} (hs : s.length≤ intMax) :
    EqRight (eqView l s) s (readable l.b l.d) ↔ tellsApart s (readable l.b l.d) := by
  have hp : pointer s s.length := by
    unfold pointer
    rw [if_neg (by omega)]
  have hg : given s s.length=s := by
    unfold given
    rw [if_neg (by omega),Int.toNat_natCast,List.take_length]
  have hw : wrap s.length=s.length := (wrap_cases _).2.2.1 (by omega) hs
  apply eq_right
  unfold eqView
  rw [hw,cequalc_eq l hp,hg]
  by_cases hc : s≠[] ∧ s<+:readable l.b l.d
  · simp [hc]
  · rw [if_neg hc,decide_eq_false hc]
    rfl

/-- What a pointer leads to, or NULL. -/
inductive Shows (h : Heap β σ) : Option β → Option (Live σ) → Prop
  | null : Shows h none none
  | live {i : β} {l : Live σ} (hb : h.buf i=some l.b) (hd : h.store l.b.data=some l.d) : Shows h (some i) (some l)

def window (l : Live σ) : List Byte := readable l.b l.d

/-- NULL comes first. -/
def beforeNull : Option (List Byte) → Option (List Byte) → Prop
  | none,some _ => True
  | some v,some w => before v w
  | _,none => False

def hashNull (view : List Byte → ℕ) : Option (Live σ) → ℕ
  | none => 0
  | some l => hash view l

/-- The operators agree: equality is of what the buffers show, `<=>` orders it, and equal buffers have equal hashes. -/
def Agrees (h : Heap β σ) (view : List Byte → ℕ) (x y : Option β) (o u : Option (Live σ)) : Prop :=
  eqBuf h x y=some (decide (o.map window=u.map window)) ∧
  (∃ c,spaceship h x y=some c ∧ (c=.eq ↔ o.map window=u.map window) ∧ (c=.lt ↔ beforeNull (o.map window) (u.map window))) ∧
  (o.map window=u.map window → hashNull view o=hashNull view u)

theorem compares_sign {r : ℤ} {v w : List Byte} (hc : Compares r v w) :
    ((if r=0 then Ordering.eq else if r>0 then .gt else .lt)=.eq ↔ v=w) ∧
    ((if r=0 then Ordering.eq else if r>0 then .gt else .lt)=.lt ↔ before v w) := by
  obtain ⟨hlt,heq,-⟩ := hc
  rw [←hlt,←heq]
  by_cases h0 : r=0
  · simp [h0]
  · by_cases hp : r>0
    · simp only [if_neg h0,if_pos hp]
      refine ⟨by simp [h0],?_⟩
      simp only [reduceCtorEq,false_iff]
      omega
    · simp only [if_neg h0,if_neg hp]
      refine ⟨by simp [h0],?_⟩
      simp only [true_iff]
      omega

theorem agrees {view : List Byte → ℕ} {x y : Option β} {o u : Option (Live σ)} (hx : Shows h x o) (hy : Shows h y u) :
    Agrees h view x y o u := by
  cases hx with
  | null =>
    cases hy with
    | null => exact ⟨rfl,⟨_,rfl,by simp,by simp [beforeNull]⟩,fun _ => rfl⟩
    | live hb hd => exact ⟨by simp [eqBuf,ccmpNull],⟨_,rfl,by simp,by simp [beforeNull]⟩,fun h => (by cases h)⟩
  | @live i l hb hd =>
    cases hy with
    | null => exact ⟨by simp [eqBuf,ccmpNull],⟨_,rfl,by simp,by simp [beforeNull]⟩,fun h => (by cases h)⟩
    | @live j m hb' hd' =>
      have hcmp := ccmp_eq (i := i) (j := j) ⟨hb,hd,hb',hd'⟩
      have hans := answer_compares (window l) (window m)
      obtain ⟨heq,hlt⟩ := compares_sign hans
      refine ⟨?_,⟨_,by simp only [spaceship,ccmpNull,hcmp,Option.map_some]; rfl,?_,hlt⟩,fun hw => ?_⟩
      · simp only [eqBuf,ccmpNull,hcmp,Option.map_some,Option.some.injEq]
        exact decide_eq_decide.mpr hans.2.1
      · simpa using heq
      · simp only [Option.map_some,Option.some.injEq,window] at hw
        simp only [hashNull,hash_eq,hw]

end Heap

/-! ### All of it -/

/-- dpbuf_cfind is right exactly if it begins in the window, the other comparisons never look beyond it, dpbuf_ccmp is an
order, and so are the operators; equality with a string is right exactly if it is no proper beginning of the window. -/
theorem find_right_all {β : Type*} [DecidableEq β] :
    (∀ (l : Live σ) (pat : Option (List Byte)) (len left : ℤ),(∀ p∈pat,pointer p len) →
      (FindRight l pat len left ↔ inWindow l pat len left)) ∧
    (∀ (l : Live σ) (sub : List Byte) (len : ℤ),pointer sub len → ∃ r,cequalc l.b l.d sub len=some (l.b,l.d,r) ∧
      cequalc (cut l).b (cut l).d sub len=some ((cut l).b,(cut l).d,r)) ∧
    (∀ (l : Live σ) (sub : Option (List Byte)) (len : ℤ) (skip : Bool),(∀ p∈sub,pointer p len) →
      ∃ r,cbegwith l.b l.d sub len skip=some (l.b,l.d,r) ∧
        cbegwith (cut l).b (cut l).d sub len skip=some ((cut l).b,(cut l).d,r)) ∧
    IsStrictTotalOrder (List Byte) before ∧
    (∀ (h : Heap β σ) (i j : β) (l m : Live σ),Pair h i j l m → CmpRight h i j l m) ∧
    (∀ (h : Heap β σ) (view : List Byte → ℕ) (x y : Option β) (o u : Option (Live σ)),Shows h x o → Shows h y u →
      Agrees h view x y o u) ∧
    (∀ (l : Live σ) (s : List Byte),s.length≤ intMax → (EqRight (eqView l s) s (window l) ↔ tellsApart s (window l)) ∧
      ((0 : Byte)∉s → (EqRight (eqCstr l (s++[0])) s (window l) ↔ tellsApart s (window l)))) := by
  refine ⟨fun l pat len left => find_right l,?_,?_,before_order,fun h i j l m => cmp_right,
    fun h view x y o u => agrees,fun l s hs => ⟨eqView_right l hs,fun h0 => eqCstr_right l h0 hs⟩⟩
  · intro l sub len hp
    have hcut := cequalc_eq (cut l) hp
    rw [readable_cut] at hcut
    exact ⟨_,cequalc_eq l hp,hcut⟩
  · intro l sub len skip hp
    have hcut : cbegwith (cut l).b (cut l).d sub len skip=_ := cbegwith_eq (cut l) hp
    rw [readable_cut] at hcut
    exact ⟨_,cbegwith_eq l hp,hcut⟩

/-- "abc" -/
def abc : Live (Fin 2) :=
  ⟨{data := 0, rend := 3, wbeg := 3, size := 3},{data := [97,98,99,0], maxs := 3},by constructor <;> decide,
    by constructor <;> decide⟩

/-- Two views of it. -/
def views : Heap (Fin 2) (Fin 2) := ⟨fun _ => some abc.b,fun _ => some abc.d⟩

theorem find_right_abc : FindRight abc (some [98,99]) 2 1 ∧
    (∃ r,cequalc abc.b abc.d [97] 1=some (abc.b,abc.d,r) ∧ cequalc (cut abc).b (cut abc).d [97] 1=some ((cut abc).b,(cut abc).d,r)) ∧
    (∃ r,cbegwith abc.b abc.d (some [97]) 1 true=some (abc.b,abc.d,r) ∧
      cbegwith (cut abc).b (cut abc).d (some [97]) 1 true=some ((cut abc).b,(cut abc).d,r)) ∧
    CmpRight views 0 1 abc abc ∧ Agrees views List.length (some 0) none (some abc) none ∧
    EqRight (eqView abc [97,98,99]) [97,98,99] (window abc) ∧ EqRight (eqCstr abc [98,0]) [98] (window abc) := by
  obtain ⟨hfind,hequal,hbeg,-,hcmp,hagree,hstr⟩ := find_right_all (σ := Fin 2) (β := Fin 2)
  have hptr : ∀ p∈some ([98,99] : List Byte),pointer p 2 := by
    rintro p ⟨⟩
    decide
  have hptr' : ∀ p∈some ([97] : List Byte),pointer p 1 := by
    rintro p ⟨⟩
    decide
  refine ⟨(hfind abc _ 2 1 hptr).mpr ?_,hequal abc [97] 1 (by decide),hbeg abc _ 1 true hptr',hcmp _ _ _ _ _ ⟨rfl,rfl,rfl,rfl⟩,
    hagree _ _ _ _ _ _ (.live rfl rfl) .null,(hstr abc [97,98,99] (by decide)).1.mpr ?_,
    ((hstr abc [98] (by decide)).2 (by decide)).mpr ?_⟩
  · rintro p ⟨⟩
    decide
  · exact ⟨by decide,fun _ _ => rfl⟩
  · exact ⟨by decide,fun _ h => absurd h (by decide)⟩

/-- "abc" equals "ab", and a search from -1 looks before the window. -/
theorem find_wrong : ¬EqRight (eqView abc [97,98]) [97,98] (window abc) ∧ ¬FindRight abc (some [98]) 1 (-1) := by
  constructor
  · rintro ⟨t,ht,hiff⟩
    have : eqView abc [97,98]=some true := by decide
    cases this.symm.trans ht
    exact absurd (hiff.mp rfl) (by decide)
  · rintro ⟨r,-,hcut,-⟩
    have : cfind (cut abc).b (cut abc).d (some [98]) 1 (-1)=none := by decide
    rw [this] at hcut
    cases hcut

end Dpapp.DpbufFind
