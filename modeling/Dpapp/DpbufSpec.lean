import Dpapp.Dpbuf

/-! # What each dpbuf operation does to the cursors and the two windows -/

set_option linter.unusedSectionVars false

namespace Dpapp.DpbufSpec
open Dpapp.Segment Dpapp.Dpbuf

variable {σ : Type*}

structure Block (d : Data) : Prop where
  room : d.maxs≤d.data.length
  int : d.maxs≤ intMax

structure Fits (b : Buf σ) (d : Data) : Prop where
  rbeg : 0≤b.rbeg
  rend : b.rbeg≤b.rend
  wbeg : b.rend≤b.wbeg
  size : b.wbeg≤b.size
  maxs : b.size≤d.maxs

/-- What other buffers on the storage can rely on. -/
structure Grows (d d' : Data) : Prop where
  maxs : d.maxs≤d'.maxs
  refc : d'.refc=d.refc
  block : Block d'

theorem Fits.grows {b : Buf σ} {d d' : Data} (h : Fits b d) (hg : Grows d d') : Fits b d' :=
  ⟨h.rbeg,h.rend,h.wbeg,h.size,h.maxs.trans hg.maxs⟩

def readable (b : Buf σ) (d : Data) : List Byte := seg d.data b.rbeg.toNat b.rend.toNat
def slack (b : Buf σ) (d : Data) : List Byte := seg d.data b.rend.toNat b.wbeg.toNat

/-- A byte of the storage lies behind the buffer. -/
def spare (b : Buf σ) (d : Data) : Prop := b.size<d.data.length

instance (b : Buf σ) (d : Data) : Decidable (spare b d) := inferInstanceAs (Decidable (_<_))

/-- An operation that leaves `r` in the readable window and `s` in the slack. -/
structure Becomes (b : Buf σ) (d : Data) (b' : Buf σ) (d' : Data) (r s : List Byte) : Prop where
  fits : Fits b' d'
  grows : Grows d d'
  home : b'.data=b.data
  readable : readable b' d'=r
  slack : slack b' d'=s
  spare : spare b d → spare b' d'

/-- An operation that leaves both windows as they are. -/
abbrev Keeps (b : Buf σ) (d : Data) (b' : Buf σ) (d' : Data) : Prop := Becomes b d b' d' (readable b d) (slack b d)

/-! ### Memory -/

theorem wrap_cases (x : ℤ) : -2147483648≤wrap x ∧ wrap x≤2147483647 ∧
    (-2147483648≤x → x≤2147483647 → wrap x=x) ∧ (2147483648≤x → x<2^32 → wrap x<0) := by
  unfold wrap Int.bmod
  simp only [Nat.cast_pow,Nat.cast_ofNat]
  norm_num
  split <;> omega

theorem iclamp_le {v l h : ℤ} (hlh : l≤h) : l≤ iclamp v l h ∧ iclamp v l h≤h := by
  unfold iclamp
  simp only
  split <;> split <;> omega

theorem le_powMinValue {n : ℕ} (h : 0<n) : n≤powMinValue n := by
  have hor (v k : ℕ) : v≤v ||| v>>>k := Nat.left_le_or
  unfold powMinValue
  rw [if_neg (by omega)]
  simp only
  have h1 := hor (n-1) 1
  have h2 := hor ((n-1) ||| (n-1)>>>1) 2
  have h3 := hor (((n-1) ||| (n-1)>>>1) ||| ((n-1) ||| (n-1)>>>1)>>>2) 4
  have h4 := hor ((((n-1) ||| (n-1)>>>1) ||| ((n-1) ||| (n-1)>>>1)>>>2) |||
    (((n-1) ||| (n-1)>>>1) ||| ((n-1) ||| (n-1)>>>1)>>>2)>>>4) 8
  omega

section Store
variable {d : Data} {pos len : ℤ} {x : List Byte}

theorem store_some (h1 : 0≤pos) (h2 : pos+x.length≤d.data.length) :
    d.store pos x=some {d with data := put d.data pos.toNat x} := if_pos ⟨h1,h2⟩

theorem load_some (h0 : 0≤len) (h1 : 0≤pos) (h2 : pos+len≤d.data.length) :
    d.load pos len=some (seg d.data pos.toNat (pos+len).toNat) := if_pos ⟨h0,h1,h2⟩

theorem length_store (h1 : 0≤pos) (h2 : pos+x.length≤d.data.length) :
    (put d.data pos.toNat x).length=d.data.length := length_put (by omega)

end Store

theorem length_grow (d : Data) (newsz : ℕ) (f : ℕ → Byte) : (d.grow newsz f).data.length=newsz := by
  simp only [Data.grow,List.length_append,List.length_take,List.length_map,List.length_range]
  omega

theorem seg_grow {d : Data} {newsz a b : ℕ} {f : ℕ → Byte} (h1 : b≤d.data.length) (h2 : b≤newsz) :
    seg (d.grow newsz f).data a b=seg d.data a b := by
  rw [Data.grow]
  simp only
  rw [seg_append_left,seg_take h2]
  rw [List.length_take]
  omega

/-- A resize keeps what lies below the new size. -/
theorem dataResize_spec {d : Data} {size : ℤ} (hb : Block d) (hs : 0<size) (mem : Mem) :
    ∃ d' r,dataResize d size mem=some (d',r) ∧ Grows d d' ∧ (r=true → size<d'.maxs) ∧ (r=false → d'=d) ∧
      ∀ a b : ℕ,(b : ℤ)≤ size → (b : ℤ)≤d.maxs → seg d'.data a b=seg d.data a b := by
  have hroom := hb.room
  have hsame : Grows d d := ⟨le_rfl,rfl,hb⟩
  unfold dataResize
  split
  · rename_i hlt
    have hin : size+([0] : List Byte).length≤d.data.length := by simp only [List.length_singleton]; omega
    rw [store_some (by omega) hin]
    refine ⟨_,true,rfl,⟨le_rfl,rfl,?_,hb.int⟩,fun _ => hlt,fun h => (by cases h),fun a b h1 _ => ?_⟩
    · simp only
      rw [length_store (by omega) hin]
      exact hroom
    · exact seg_put_off (by simp only [List.length_singleton] at hin ⊢; omega) (.inl (by omega))
  · rename_i hge
    split
    · exact ⟨d,false,rfl,hsame,fun h => (by cases h),fun _ => rfl,fun _ _ _ _ => rfl⟩
    · split
      · exact ⟨d,false,rfl,hsame,fun h => (by cases h),fun _ => rfl,fun _ _ _ _ => rfl⟩
      · rename_i hint
        simp only
        split
        · exact ⟨d,false,rfl,hsame,fun h => (by cases h),fun _ => rfl,fun _ _ _ _ => rfl⟩
        · rename_i hmax
          cases mem with
          | none => exact ⟨d,false,rfl,hsame,fun h => (by cases h),fun _ => rfl,fun _ _ _ _ => rfl⟩
          | some f =>
            have hpow := le_powMinValue (n := size.toNat+1) (by omega)
            have hlen := length_grow d (powMinValue (size.toNat+1)) f
            have hin : size+([0] : List Byte).length≤(d.grow (powMinValue (size.toNat+1)) f).data.length := by
              rw [hlen]
              simp only [List.length_singleton]
              omega
            simp only
            rw [store_some (by omega) hin]
            refine ⟨_,true,rfl,⟨?_,rfl,?_,?_⟩,fun _ => ?_,fun h => (by cases h),fun a b h1 h2 => ?_⟩
            · simp only [Data.grow]; omega
            · simp only
              rw [length_store (by omega) hin,hlen]
              exact le_rfl
            · simp only [Data.grow]
              unfold dpbufMaxSize at hmax
              unfold intMax
              omega
            · simp only [Data.grow]; omega
            · simp only
              rw [seg_put_off (by simp only [List.length_singleton] at hin ⊢; omega) (.inl (by omega)),
                seg_grow (by omega) (by omega)]

/-! ### Cursors -/

section Cursors
variable {b : Buf σ} {d : Data}

theorem keeps_refl (hf : Fits b d) (hb : Block d) : Keeps b d b d := ⟨hf,⟨le_rfl,rfl,hb⟩,rfl,rfl,rfl,id⟩

theorem keeps_then {b' b'' : Buf σ} {d' d'' : Data} {r s r' s' : List Byte} (h : Becomes b d b' d' r s)
    (h' : Becomes b' d' b'' d'' r' s') : Becomes b d b'' d'' r' s' :=
  ⟨h'.fits,⟨h.grows.maxs.trans h'.grows.maxs,h'.grows.refc.trans h.grows.refc,h'.grows.block⟩,h'.home.trans h.home,
    h'.readable,h'.slack,fun hs => h'.spare (h.spare hs)⟩

theorem keeps_trans {b' b'' : Buf σ} {d' d'' : Data} (h : Keeps b d b' d') (h' : Keeps b' d' b'' d'') :
    Keeps b d b'' d'' := by
  have := keeps_then h h'
  rwa [h.readable,h.slack] at this

theorem resize_spec (hf : Fits b d) (hb : Block d) {size : ℤ} (hw : b.wbeg≤ size ∨ size≤0) (mem : Mem) :
    ∃ b' d' r,resize b d size mem=some (b',d',r) ∧ Keeps b d b' d' ∧ b'.wbeg=b.wbeg ∧ (r=true → b'.size=size) ∧
      (r=false → b'=b ∧ d'=d) := by
  unfold resize
  split
  · exact ⟨b,d,false,rfl,keeps_refl hf hb,rfl,fun h => (by cases h),fun _ => ⟨rfl,rfl⟩⟩
  · rename_i hpos
    have hwb : b.wbeg≤ size := by omega
    obtain ⟨d',r,hr,hg,ht,hfalse,hseg⟩ := dataResize_spec hb (by omega : 0<size) mem
    rw [hr]
    have h0 := hf.rbeg
    have h1 := hf.rend
    have h2 := hf.wbeg
    have h3 := hf.size
    have h4 := hf.maxs
    have hrd : seg d'.data b.rbeg.toNat b.rend.toNat=seg d.data b.rbeg.toNat b.rend.toNat :=
      hseg _ _ (by omega) (by omega)
    have hsl : seg d'.data b.rend.toNat b.wbeg.toNat=seg d.data b.rend.toNat b.wbeg.toNat :=
      hseg _ _ (by omega) (by omega)
    cases r with
    | true =>
      have hlt := ht rfl
      refine ⟨_,d',true,rfl,⟨⟨h0,h1,h2,hwb,?_⟩,hg,rfl,hrd,hsl,fun _ => ?_⟩,rfl,fun _ => rfl,fun h => (by cases h)⟩
      · simp only [if_true]; omega
      · have := hg.block.room
        simp only [spare,if_true]
        omega
    | false =>
      rw [hfalse rfl]
      exact ⟨_,d,false,rfl,keeps_refl hf hb,rfl,fun h => (by cases h),fun _ => ⟨rfl,rfl⟩⟩

/-- Where recycling stores its NUL: behind the buffer when nothing has been written yet. -/
def roomy (b : Buf σ) (d : Data) : Prop := b.rbeg=b.wbeg → b.wbeg=0 → spare b d

instance (b : Buf σ) (d : Data) : Decidable (roomy b d) := inferInstanceAs (Decidable (_ → _ → _))

theorem recycleData_spec (hf : Fits b d) (hb : Block d) (hr : roomy b d) : ∃ b' d',recycleData b d=some (b',d') ∧
    Keeps b d b' d' ∧ b'.size-b'.wbeg=b.size-b.wbeg ∧ b'.norecycle=b.norecycle := by
  have h0 := hf.rbeg
  have h1 := hf.rend
  have h2 := hf.wbeg
  have h3 := hf.size
  have h4 := hf.maxs
  have hroom := hb.room
  unfold recycleData
  split
  · rename_i heq
    have hin : b.size-b.wbeg+([0] : List Byte).length≤d.data.length := by
      simp only [List.length_singleton]
      by_cases hz : b.wbeg=0
      · have := hr heq hz
        unfold spare at this
        omega
      · omega
    simp only
    rw [store_some (by omega) hin]
    have hempty : readable b d=[] ∧ slack b d=[] := by
      have e1 : b.rend=b.rbeg := by omega
      have e2 : b.wbeg=b.rbeg := by omega
      simp [readable,slack,e1,e2]
    refine ⟨_,_,rfl,⟨⟨le_rfl,le_rfl,le_rfl,?_,?_⟩,⟨le_rfl,rfl,⟨?_,hb.int⟩⟩,rfl,?_,?_,fun hs => ?_⟩,?_,rfl⟩
    · simp only; omega
    · simp only; omega
    · simp only
      rw [length_store (by omega) hin]
      exact hroom
    · rw [hempty.1]; simp [readable]
    · rw [hempty.2]; simp [slack]
    · simp only [spare] at hs ⊢
      rw [length_store (by omega) hin]
      omega
    · simp only; omega
  · split
    · rename_i hne hc
      obtain ⟨-,hbig,-⟩ := hc
      unfold dpbufSSize at hbig
      rw [load_some (by omega) h0 (by omega)]
      simp only [Option.bind_some]
      set x := seg d.data b.rbeg.toNat (b.rbeg+(b.wbeg-b.rbeg)).toNat with hx
      have hxe : x=seg d.data b.rbeg.toNat b.wbeg.toNat := by rw [hx]; congr 1; omega
      have hxl : x.length=(b.wbeg-b.rbeg).toNat := by rw [hxe,length_seg (by omega)]; omega
      have hin : 0+(x.length : ℤ)≤d.data.length := by omega
      rw [store_some le_rfl hin]
      simp only [Option.bind_some]
      have hl : (put d.data (0 : ℤ).toNat x).length=d.data.length := length_store le_rfl hin
      have hin2 : b.size-b.rbeg+([0] : List Byte).length≤
          ({d with data := put d.data (0 : ℤ).toNat x} : Data).data.length := by
        simp only [hl,List.length_singleton]
        omega
      rw [store_some (by omega) hin2]
      have hl2 := length_store (d := {d with data := put d.data (0 : ℤ).toNat x}) (by omega : 0≤b.size-b.rbeg) hin2
      simp only at hl2 hl
      -- the window is where it was, now counted from 0
      have hwin : ∀ u v : ℕ,u≤v → (v : ℤ)≤b.wbeg-b.rbeg →
          seg (put (put d.data (0 : ℤ).toNat x) (b.size-b.rbeg).toNat [0]) u v=
          seg d.data (b.rbeg.toNat+u) (b.rbeg.toNat+v) := by
        intro u v huv hv
        rw [seg_put_off (by simp only [List.length_singleton,hl] at hin2 ⊢; omega) (.inl (by omega))]
        have hself : seg (put d.data (0 : ℤ).toNat x) 0 x.length=x := by
          have := seg_put_self (l := d.data) (x := x) (p := 0) (by omega)
          simpa using this
        have h5 : seg (put d.data (0 : ℤ).toNat x) u v=((seg (put d.data (0 : ℤ).toNat x) 0 x.length).drop u).take (v-u) := by
          rw [drop_seg,take_seg (by omega)]
          congr 1 <;> omega
        rw [h5,hself,hxe,drop_seg,take_seg (by omega)]
        congr 1
        omega
      refine ⟨_,_,rfl,⟨⟨le_rfl,?_,?_,?_,?_⟩,⟨le_rfl,rfl,⟨?_,hb.int⟩⟩,rfl,?_,?_,fun hs => ?_⟩,?_,rfl⟩
      · simp only; omega
      · simp only; omega
      · simp only; omega
      · simp only; omega
      · simp only [hl2,hl]; exact hroom
      · simp only [readable]
        rw [hwin _ _ (by omega) (by omega)]
        congr 1
        omega
      · simp only [slack]
        rw [hwin _ _ (by omega) (by omega)]
        congr 1 <;> omega
      · simp only [spare] at hs ⊢
        rw [hl2,hl]
        omega
      · simp only; omega
    · exact ⟨b,d,rfl,keeps_refl hf hb,rfl,rfl⟩

/-- dpbuf_resizew, with the room asked for if it succeeds. -/
theorem resizew_spec (hf : Fits b d) (hb : Block d) {s : ℤ} (hs : s≤ intMax) (hr : 0≤ s → b.norecycle=false → roomy b d)
    (mem : Mem) : ∃ b' d' r,resizew b d s mem=some (b',d',r) ∧ Keeps b d b' d' ∧ (r=true → s≤b'.size-b'.wbeg) := by
  have hint := hb.int
  unfold intMax at hs hint
  unfold resizew
  split
  · rename_i hpos
    -- recycle first, then resize
    have hrec : ∃ b1 d1,(if b.norecycle=true then some (b,d) else recycleData b d)=some (b1,d1) ∧ Keeps b d b1 d1 := by
      cases hn : b.norecycle with
      | true => exact ⟨b,d,rfl,keeps_refl hf hb⟩
      | false =>
        obtain ⟨b1,d1,h1,h2,-,-⟩ := recycleData_spec hf hb (hr hpos hn)
        exact ⟨b1,d1,h1,h2⟩
    obtain ⟨b1,d1,he,hk⟩ := hrec
    rw [he]
    simp only [Option.bind_some]
    have h0 := hk.fits.rbeg
    have h1 := hk.fits.rend
    have h2 := hk.fits.wbeg
    have h3 := hk.fits.size
    have h4 := hk.fits.maxs
    have h5 := hk.grows.block.int
    unfold intMax at h5
    have hwrap := wrap_cases (b1.wbeg+s)
    have hcase : (b1.wbeg+s≤2147483647 ∧ wrap (b1.wbeg+s)=b1.wbeg+s) ∨ wrap (b1.wbeg+s)<0 := by
      by_cases hlt : b1.wbeg+s≤2147483647
      · exact .inl ⟨hlt,hwrap.2.2.1 (by omega) hlt⟩
      · exact .inr (hwrap.2.2.2 (by omega) (by omega))
    obtain ⟨b2,d2,r,hres,hk2,hw2,ht,-⟩ := resize_spec hk.fits hk.grows.block (show b1.wbeg≤ wrap (b1.wbeg+s) ∨ wrap (b1.wbeg+s)≤0 by omega) mem
    refine ⟨b2,d2,r,hres,keeps_trans hk hk2,fun hrt => ?_⟩
    have hsz := ht hrt
    have hpos2 : 0≤b2.size := by
      have := hk2.fits.rbeg
      have := hk2.fits.rend
      have := hk2.fits.wbeg
      have := hk2.fits.size
      omega
    omega
  · exact ⟨b,d,false,rfl,keeps_refl hf hb,fun h => (by cases h)⟩

/-- dpbuf_resizew is called, and recycles. -/
def refits (b : Buf σ) (len : ℤ) : Prop := b.size-b.wbeg<len ∧ b.norecycle=false

instance (b : Buf σ) (len : ℤ) : Decidable (refits b len) := inferInstanceAs (Decidable (_ ∧ _))

theorem wcheck_spec (hf : Fits b d) (hb : Block d) {len : ℤ} (hl : len≤ intMax) (hr : refits b len → roomy b d)
    (mem : Mem) : ∃ b' d' r,wcheck b d len mem=some (b',d',r) ∧ Keeps b d b' d' ∧ (r=true → len≤b'.size-b'.wbeg) := by
  unfold wcheck
  split
  · rename_i hlt
    exact resizew_spec hf hb hl (fun _ hn => hr ⟨hlt,hn⟩) mem
  · exact ⟨b,d,true,rfl,keeps_refl hf hb,fun _ => by omega⟩

/-- A write at the cursor. -/
theorem append_spec (hf : Fits b d) (hb : Block d) {x : List Byte} {len : ℤ} (h0 : 0≤len) (hl : len≤x.length)
    (hx : x.length≤b.size-b.wbeg) : ∃ b' d',append b d x len=some (b',d',len) ∧
    Becomes b d b' d' (readable b d) (slack b d++x.take len.toNat) := by
  have h1 := hf.rbeg
  have h2 := hf.rend
  have h3 := hf.wbeg
  have h4 := hf.size
  have h5 := hf.maxs
  have hroom := hb.room
  have hin : b.wbeg+(x.length : ℤ)≤d.data.length := by omega
  have hlen := length_store (d := d) (x := x) (by omega : 0≤b.wbeg) hin
  unfold append
  rw [store_some (by omega) hin]
  refine ⟨_,_,rfl,⟨h1,h2,?_,?_,h5⟩,⟨le_rfl,rfl,⟨?_,hb.int⟩⟩,rfl,?_,?_,fun hs => ?_⟩
  · simp only; omega
  · simp only; omega
  · simp only [hlen]; exact hroom
  · simp only [readable]
    exact seg_put_off (by omega) (.inl (by omega))
  · simp only [slack]
    have hself := seg_put_self (l := d.data) (x := x) (p := b.wbeg.toNat) (by omega)
    have hadd : (b.wbeg+len).toNat=b.wbeg.toNat+len.toNat := by omega
    rw [hadd,←seg_append (by omega : b.rend.toNat≤b.wbeg.toNat) (Nat.le_add_right _ _),
      seg_put_off (by omega) (.inl le_rfl)]
    congr 1
    rw [←take_seg (by omega : b.wbeg.toNat+len.toNat≤b.wbeg.toNat+x.length),hself]
  · simp only [spare] at hs ⊢
    rw [hlen]
    exact hs

/-! ### Readers -/

theorem length_slack (hf : Fits b d) (hb : Block d) : ((slack b d).length : ℤ)=b.wbeg-b.rend := by
  have h0 := hf.rbeg
  have h1 := hf.rend
  have h2 := hf.wbeg
  have h3 := hf.size
  have h4 := hf.maxs
  have h5 := hb.room
  rw [slack,length_seg (by omega)]
  omega

theorem length_readable (hf : Fits b d) (hb : Block d) : ((readable b d).length : ℤ)=b.rend-b.rbeg := by
  have h0 := hf.rbeg
  have h1 := hf.rend
  have h2 := hf.wbeg
  have h3 := hf.size
  have h4 := hf.maxs
  have h5 := hb.room
  rw [readable,length_seg (by omega)]
  omega

theorem load_slack (hf : Fits b d) (hb : Block d) : d.load b.rend (b.wbeg-b.rend)=some (slack b d) := by
  have h0 := hf.rbeg
  have h1 := hf.rend
  have h2 := hf.wbeg
  have h3 := hf.size
  have h4 := hf.maxs
  have h5 := hb.room
  rw [load_some (by omega) (by omega) (by omega),slack]
  congr 2
  omega

theorem load_readable (hf : Fits b d) (hb : Block d) : d.load b.rbeg (b.rend-b.rbeg)=some (readable b d) := by
  have h0 := hf.rbeg
  have h1 := hf.rend
  have h2 := hf.wbeg
  have h3 := hf.size
  have h4 := hf.maxs
  have h5 := hb.room
  rw [load_some (by omega) (by omega) (by omega),readable]
  congr 2
  omega

/-- All readers: the readable window is dropped and the next `n` bytes become the new one. -/
theorem reader_spec (hf : Fits b d) (hb : Block d) {n : ℤ} (h0 : 0≤n) (hn : n≤b.wbeg-b.rend) :
    Becomes b d {b with rbeg := b.rend, rend := b.rend+n} d ((slack b d).take n.toNat) ((slack b d).drop n.toNat) := by
  have g0 := hf.rbeg
  have g1 := hf.rend
  refine ⟨⟨?_,?_,?_,hf.size,hf.maxs⟩,⟨le_rfl,rfl,hb⟩,rfl,?_,?_,id⟩
  · simp only; omega
  · simp only; omega
  · simp only; omega
  · simp only [readable,slack]
    rw [take_seg (by omega)]
    congr 1
    omega
  · simp only [slack]
    rw [drop_seg]
    congr 1
    omega

theorem rws_spec (hf : Fits b d) (hb : Block d) : ∃ b',rws b d=some (b',d,(((slack b d).takeWhile isws).length : ℤ)) ∧
    Becomes b d b' d ((slack b d).take ((slack b d).takeWhile isws).length)
      ((slack b d).drop ((slack b d).takeWhile isws).length) := by
  have hl := length_slack hf hb
  have hle := (List.takeWhile_sublist (l := slack b d) isws).length_le
  have hread := reader_spec hf hb (n := ((slack b d).takeWhile isws).length) (by omega) (by omega)
  simp only [Int.toNat_natCast] at hread
  unfold rws
  simp only [Buf.cesize]
  rw [load_slack hf hb]
  exact ⟨_,rfl,hread⟩

theorem rdata_spec (hf : Fits b d) (hb : Block d) (len : ℤ) : ∃ b' n,rdata b d len=some (b',d,n) ∧ 0≤n ∧
    n=(if len<0 then b.wbeg-b.rend else min len (b.wbeg-b.rend)) ∧
    Becomes b d b' d ((slack b d).take n.toNat) ((slack b d).drop n.toNat) := by
  have h2 := hf.wbeg
  unfold rdata
  simp only [Buf.cesize]
  by_cases hlt : len<0
  · simp only [if_pos hlt,min_self]
    exact ⟨_,_,rfl,by omega,rfl,reader_spec hf hb (by omega) (by omega)⟩
  · simp only [if_neg hlt]
    exact ⟨_,_,rfl,by omega,rfl,reader_spec hf hb (by omega) (by omega)⟩

theorem rmust_spec (hf : Fits b d) (hb : Block d) (len : ℤ) :
    (0≤len ∧ len≤b.wbeg-b.rend ∧ ∃ b',rmust b d len=some (b',d,len) ∧
      Becomes b d b' d ((slack b d).take len.toNat) ((slack b d).drop len.toNat)) ∨
    ((len<0 ∨ b.wbeg-b.rend<len) ∧ ∃ b',rmust b d len=some (b',d,enodata) ∧ Becomes b d b' d [] (slack b d)) := by
  have h2 := hf.wbeg
  by_cases hc : len<0 ∨ len>b.wbeg-b.rend
  · refine .inr ⟨hc,_,if_pos hc,?_⟩
    have := reader_spec hf hb (n := 0) le_rfl (by omega)
    simpa using this
  · exact .inl ⟨by omega,by omega,_,if_neg hc,reader_spec hf hb (by omega) (by omega)⟩

theorem rall_spec (hf : Fits b d) (hb : Block d) : ∃ b',rall b d=some (b',d,b.wbeg-b.rend) ∧
    Becomes b d b' d (slack b d) [] := by
  have h2 := hf.wbeg
  have hl := length_slack hf hb
  have hread := reader_spec hf hb (n := b.wbeg-b.rend) (by omega) le_rfl
  have hn : (b.wbeg-b.rend).toNat=(slack b d).length := by omega
  rw [hn,List.take_length,List.drop_length,add_sub_cancel] at hread
  exact ⟨_,rfl,hread⟩

theorem rcstr_spec (hf : Fits b d) (hb : Block d) : ∃ b' n,rcstr b d=some (b',d,n) ∧ 0≤n ∧ n≤b.wbeg-b.rend ∧
    Becomes b d b' d ((slack b d).take n.toNat) ((slack b d).drop n.toNat) := by
  have hl := length_slack hf hb
  have hle := (List.takeWhile_sublist (l := slack b d) (·≠0)).length_le
  unfold rcstr
  simp only
  rw [load_slack hf hb]
  simp only [Option.map_some]
  by_cases hc : 0<(((slack b d).takeWhile (·≠0)).length : ℤ) ∧ (((slack b d).takeWhile (·≠0)).length : ℤ)<b.wbeg-b.rend
  · simp only [if_pos hc]
    exact ⟨_,_,rfl,by omega,by omega,reader_spec hf hb (by omega) (by omega)⟩
  · simp only [if_neg hc]
    exact ⟨_,_,rfl,by omega,by omega,reader_spec hf hb (by omega) (by omega)⟩

/-! ### Finding -/

/-- The caller's promise about a pointer and its length: a negative one asks for strlen. -/
def pointer (p : List Byte) (len : ℤ) : Prop :=
  if len<0 then 0∈p ∧ (p.takeWhile (·≠0)).length≤ intMax else len≤p.length

instance (p : List Byte) (len : ℤ) : Decidable (pointer p len) := inferInstanceAs (Decidable (ite _ _ _))

theorem pointer_len {p : List Byte} {len : ℤ} (h : pointer p len) :
    ∃ l,(if len<0 then strlen p else some len)=some l ∧ 0≤l ∧ l≤p.length ∧ (len≤ intMax → l≤ intMax) := by
  unfold pointer at h
  by_cases hlt : len<0
  · rw [if_pos hlt] at h
    have hw := (wrap_cases (p.takeWhile (·≠0)).length).2.2.1 (by omega) h.2
    have := (List.takeWhile_sublist (l := p) (·≠0)).length_le
    exact ⟨_,by rw [if_pos hlt,strlen,if_pos h.1],by omega,by omega,fun _ => by rw [hw]; exact h.2⟩
  · rw [if_neg hlt] at h
    exact ⟨len,if_neg hlt,by omega,h,id⟩

/-- Where the search starts lies in the storage, and not behind the window. -/
def startIn (b : Buf σ) (left : ℤ) : Prop := 0≤b.rbeg+left ∧ left≤b.crsize

instance (b : Buf σ) (left : ℤ) : Decidable (startIn b left) := inferInstanceAs (Decidable (_ ∧ _))

/-- dpbuf_cfind has something to look for, and it could fit. -/
def searches (b : Buf σ) (pat : Option (List Byte)) (len : ℤ) : Prop :=
  ∃ p∈pat,∃ l∈(if len<0 then strlen p else some len),l≠0 ∧ l≤b.crsize

instance (b : Buf σ) (pat : Option (List Byte)) (len : ℤ) : Decidable (searches b pat len) := by
  unfold searches
  infer_instance

theorem cfind_spec (hf : Fits b d) (hb : Block d) {pat : Option (List Byte)} {len left : ℤ} (hp : ∀ p∈pat,pointer p len)
    (hs : searches b pat len → startIn b left) :
    ∃ r,cfind b d pat len left=some r ∧ r≤b.crsize ∧ (0≤len → 0≤r → r+len≤b.crsize) := by
  have h0 := hf.rbeg
  have h1 := hf.rend
  have h2 := hf.wbeg
  have h3 := hf.size
  have h4 := hf.maxs
  have h5 := hb.room
  have herr (r : ℤ) (hr : r<0) : r≤b.crsize ∧ (0≤len → 0≤r → r+len≤b.crsize) := by
    unfold Buf.crsize
    exact ⟨by omega,fun _ h => by omega⟩
  cases pat with
  | none => exact ⟨einval,rfl,herr _ (by decide)⟩
  | some p =>
    obtain ⟨l,hl,hl0,hlp,-⟩ := pointer_len (hp p rfl)
    simp only [cfind,hl,Option.bind_some]
    by_cases hc : l=0 ∨ b.crsize<l
    · rw [if_pos hc]
      exact ⟨enodata,rfl,herr _ (by decide)⟩
    · have hs := hs ⟨p,rfl,l,hl,by omega,by omega⟩
      rw [if_neg hc,bytes,if_pos ⟨hl0,hlp⟩]
      unfold startIn Buf.crsize at hs
      unfold Buf.crsize at hc ⊢
      rw [load_some (by omega) hs.1 (by omega)]
      simp only [Option.bind_some,Option.map_some]
      cases hfind : find (p.take l.toNat) (seg d.data (b.rbeg+left).toNat (b.rbeg+left+(b.rend-b.rbeg-left)).toNat) with
      | none => exact ⟨eperm,rfl,herr _ (by decide)⟩
      | some i =>
        have hle := find_le hfind
        rw [length_seg (by omega),List.length_take] at hle
        refine ⟨left+i,rfl,by omega,fun hlen _ => ?_⟩
        rw [if_neg (by omega)] at hl
        cases hl
        omega

/-- dpbuf_runtil, for a length that does not take the window back over its begin. -/
theorem runtil_spec (hf : Fits b d) (hb : Block d) {p : Option (List Byte)} {n : ℤ} (hp : ∀ q∈p,pointer q n)
    (hn : n<0 → ∀ r,cfind {b with rbeg := b.rend, rend := b.wbeg} d p n 0=some r → 0≤r → 0≤r+n) :
    ∃ b' r k,runtil b d p n=some (b',d,r) ∧ 0≤k ∧ k≤b.wbeg-b.rend ∧
      Becomes b d b' d ((slack b d).take k.toNat) ((slack b d).drop k.toNat) := by
  have h0 := hf.rbeg
  have h1 := hf.rend
  have h2 := hf.wbeg
  have hf' : Fits {b with rbeg := b.rend, rend := b.wbeg} d := ⟨by simp only; omega,h2,le_rfl,hf.size,hf.maxs⟩
  have hin : startIn {b with rbeg := b.rend, rend := b.wbeg} 0 := ⟨by simp only; omega,by simp only [Buf.crsize]; omega⟩
  obtain ⟨r,hr,hrle,hle⟩ := cfind_spec hf' hb hp fun _ => hin
  simp only [Buf.crsize] at hrle hle
  unfold runtil
  simp only
  rw [hr]
  simp only [Option.map_some]
  by_cases hr0 : r<0
  · simp only [if_pos hr0]
    exact ⟨_,_,0,rfl,le_rfl,by omega,by simpa using reader_spec hf hb (n := 0) le_rfl (by omega)⟩
  · simp only [if_neg hr0]
    have hk : 0≤r+n ∧ r+n≤b.wbeg-b.rend := by
      by_cases hlt : n<0
      · exact ⟨hn hlt r hr (by omega),by omega⟩
      · exact ⟨by omega,hle (by omega) (by omega)⟩
    exact ⟨_,_,r+n,rfl,hk.1,hk.2,reader_spec hf hb hk.1 hk.2⟩

/-! ### Seeks and maintenance -/

/-- Cursors that move within the storage. -/
theorem cursor_spec {b' : Buf σ} (hf : Fits b' d) (hb : Block d) (hh : b'.data=b.data) (hs : b'.size≤b.size) :
    Becomes b d b' d (readable b' d) (slack b' d) :=
  ⟨hf,⟨le_rfl,rfl,hb⟩,hh,rfl,rfl,fun h => lt_of_le_of_lt hs h⟩

/-- dpbuf_eseek moves the border between the windows, and returns how far. -/
theorem eseek_spec (hf : Fits b d) (hb : Block d) (offset : ℤ) (w : Whence) : ∃ b' r,eseek b d offset w=some (b',d,r) ∧
    Becomes b d b' d ((readable b d++slack b d).take ((readable b d).length+r).toNat)
      ((readable b d++slack b d).drop ((readable b d).length+r).toNat) := by
  have h0 := hf.rbeg
  have h1 := hf.rend
  have h2 := hf.wbeg
  have hall : readable b d++slack b d=seg d.data b.rbeg.toNat b.wbeg.toNat := seg_append (by omega) (by omega)
  have hmove (e : ℤ) (he1 : b.rbeg≤e) (he2 : e≤b.wbeg) : Becomes b d {b with rend := e} d
      ((readable b d++slack b d).take ((readable b d).length+(e-b.rend)).toNat)
      ((readable b d++slack b d).drop ((readable b d).length+(e-b.rend)).toNat) := by
    have hk : ((readable b d).length+(e-b.rend)).toNat=(e-b.rbeg).toNat := by rw [length_readable hf hb]; omega
    rw [hall,hk]
    refine ⟨⟨h0,he1,he2,hf.size,hf.maxs⟩,⟨le_rfl,rfl,hb⟩,rfl,?_,?_,id⟩
    · simp only [readable]
      rw [take_seg (by omega)]
      congr 1
      omega
    · simp only [slack]
      rw [drop_seg]
      congr 1
      omega
  have hc (v : ℤ) := iclamp_le (v := v) (h1.trans h2)
  cases w with
  | set => exact ⟨_,_,rfl,hmove _ (hc _).1 (hc _).2⟩
  | cur => exact ⟨_,_,rfl,hmove _ (hc _).1 (hc _).2⟩
  | end_ => exact ⟨_,_,rfl,hmove _ (hc _).1 (hc _).2⟩
  | other => exact ⟨_,_,rfl,hmove b.rend h1 h2⟩

theorem rseek_spec (hf : Fits b d) (hb : Block d) (offset : ℤ) (w : Whence) : ∃ b' r,rseek b d offset w=some (b',d,r) ∧
    Becomes b d b' d (readable b' d) (slack b' d) := by
  have h0 := hf.rbeg
  have h1 := hf.rend
  have hmove (e : ℤ) (he1 : 0≤e) (he2 : e≤b.rend) : Becomes b d {b with rbeg := e} d
      (readable {b with rbeg := e} d) (slack {b with rbeg := e} d) :=
    cursor_spec ⟨he1,he2,hf.wbeg,hf.size,hf.maxs⟩ hb rfl le_rfl
  have hc (v : ℤ) := iclamp_le (v := v) (h0.trans h1)
  cases w with
  | set => exact ⟨_,_,rfl,hmove _ (hc _).1 (hc _).2⟩
  | cur => exact ⟨_,_,rfl,hmove _ (hc _).1 (hc _).2⟩
  | end_ => exact ⟨_,_,rfl,hmove _ (hc _).1 (hc _).2⟩
  | other => exact ⟨_,_,rfl,hmove b.rbeg h0 h1⟩

theorem wseek_spec (hf : Fits b d) (hb : Block d) (offset : ℤ) (w : Whence) : ∃ b' r,wseek b d offset w=some (b',d,r) ∧
    Becomes b d b' d (readable b' d) (slack b' d) := by
  have h2 := hf.wbeg
  have h3 := hf.size
  have hmove (e : ℤ) (he1 : b.rend≤e) (he2 : e≤b.size) : Becomes b d {b with wbeg := e} d
      (readable {b with wbeg := e} d) (slack {b with wbeg := e} d) :=
    cursor_spec ⟨hf.rbeg,hf.rend,he1,he2,hf.maxs⟩ hb rfl le_rfl
  have hc (v : ℤ) := iclamp_le (v := v) (h2.trans h3)
  cases w with
  | set => exact ⟨_,_,rfl,hmove _ (hc _).1 (hc _).2⟩
  | cur => exact ⟨_,_,rfl,hmove _ (hc _).1 (hc _).2⟩
  | end_ => exact ⟨_,_,rfl,hmove _ (hc _).1 (hc _).2⟩
  | other => exact ⟨_,_,rfl,hmove b.wbeg h2 h3⟩

theorem reset_spec (hf : Fits b d) (hb : Block d) (initR initW : Bool) : ∃ b',reset b d initR initW=some (b',d,0) ∧
    Becomes b d b' d (readable b' d) (slack b' d) := by
  have h0 := hf.rbeg
  have h1 := hf.rend
  have h2 := hf.wbeg
  have h3 := hf.size
  have h4 := hf.maxs
  have hsz : 0≤b.size := by omega
  unfold reset
  cases initR with
  | true => exact ⟨_,rfl,cursor_spec ⟨le_rfl,hsz,le_rfl,le_rfl,h4⟩ hb rfl le_rfl⟩
  | false =>
    cases initW with
    | true => exact ⟨_,rfl,cursor_spec ⟨le_rfl,le_rfl,le_rfl,hsz,h4⟩ hb rfl le_rfl⟩
    | false => exact ⟨_,rfl,cursor_spec ⟨le_rfl,le_rfl,le_rfl,le_rfl,hsz.trans h4⟩ hb rfl hsz⟩

theorem setRecycle_spec (hf : Fits b d) (hb : Block d) (on : Bool) : ∃ b',setRecycle b d on=some (b',d,0) ∧ Keeps b d b' d :=
  ⟨_,rfl,⟨hf.rbeg,hf.rend,hf.wbeg,hf.size,hf.maxs⟩,⟨le_rfl,rfl,hb⟩,rfl,rfl,rfl,id⟩

theorem recycle_spec (hf : Fits b d) (hb : Block d) {force : Bool} (hr : (force || !b.norecycle)=true → roomy b d) :
    ∃ b' d',recycle b d force=some (b',d',0) ∧ Keeps b d b' d' := by
  unfold recycle
  split
  · rename_i hc
    obtain ⟨b1,d1,h1,hk,-,-⟩ := recycleData_spec hf hb (hr hc)
    rw [h1]
    obtain ⟨b2,d2,r,h2,hk2,-,-,-⟩ := resize_spec hk.fits hk.grows.block (.inr (le_refl (0 : ℤ))) none
    simp only [Option.bind_some]
    rw [h2]
    exact ⟨b2,d2,rfl,keeps_trans hk hk2⟩
  · exact ⟨b,d,rfl,keeps_refl hf hb⟩

/-! ### Writers -/

/-- What a write does: nothing is lost, and when it succeeds its bytes are at the tail. -/
def Writes (b : Buf σ) (d : Data) (x : List Byte) (n : ℤ) (o : Step σ) : Prop :=
  (∃ b' d',o=some (b',d',n) ∧ Becomes b d b' d' (readable b d) (slack b d++x)) ∨
  ∃ b' d' r,o=some (b',d',r) ∧ (r<0 ∨ r=0 ∧ x=[]) ∧ Keeps b d b' d'

theorem write_spec (hf : Fits b d) (hb : Block d) (len need : ℤ) (x : List Byte) (mem : Mem) {o : Step σ}
    (hneed : need≤ intMax) (hr : refits b need → roomy b d) (h0 : 0≤len) (hl : len≤x.length) (hx : x.length≤need)
    (ho : o=(wcheck b d need mem).bind fun (b,d,ok) => if ok then append b d x len else some (b,d,enomem)) :
    Writes b d (x.take len.toNat) len o := by
  obtain ⟨b1,d1,r,h1,hk,hroom⟩ := wcheck_spec hf hb hneed hr mem
  rw [h1] at ho
  simp only [Option.bind_some] at ho
  cases r with
  | true =>
    obtain ⟨b2,d2,h2,hbc⟩ := append_spec hk.fits hk.grows.block h0 hl (by have := hroom rfl; omega)
    rw [hk.readable,hk.slack] at hbc
    exact .inl ⟨b2,d2,ho.trans h2,keeps_then hk hbc⟩
  | false => exact .inr ⟨b1,d1,enomem,ho,.inl (by decide),hk⟩

theorem wfill_spec (hf : Fits b d) (hb : Block d) {len : ℤ} (h0 : 0≤len) (hint : len≤ intMax)
    (hr : refits b len → roomy b d) (v : Byte) (mem : Mem) :
    Writes b d (List.replicate len.toNat v) len (wfill b d len v mem) := by
  have hlen : ((List.replicate len.toNat v).length : ℤ)=len := by simp only [List.length_replicate]; omega
  have h := write_spec (o := wfill b d len v mem) hf hb len len (List.replicate len.toNat v) mem hint hr h0
    (by omega) (by omega) (by simp only [wfill,if_neg (by omega : ¬len<0)])
  rwa [List.take_of_length_le (by omega)] at h

theorem wdata_spec (hf : Fits b d) (hb : Block d) {data : Option (List Byte)} {len : ℤ} (hint : len≤ intMax)
    (h0 : ∀ p∈data,0≤len ∧ len≤p.length) (hr : refits b len → roomy b d) (mem : Mem) :
    Writes b d ((data.getD []).take len.toNat) len (wdata b d data len mem) := by
  cases data with
  | none => exact .inr ⟨b,d,einval,rfl,.inl (by decide),keeps_refl hf hb⟩
  | some p =>
    obtain ⟨h0,hlp⟩ := h0 p rfl
    simp only [wdata,Option.getD_some]
    split
    · exact .inr ⟨b,d,einval,rfl,.inl (by decide),keeps_refl hf hb⟩
    · have hlen : ((p.take len.toNat).length : ℤ)=len := by rw [List.length_take]; omega
      have h := write_spec hf hb len len (p.take len.toNat) mem hint hr h0 (by omega) (by omega) rfl
      rw [List.take_take,min_self] at h
      simpa only [bytes,if_pos (⟨h0,hlp⟩ : 0≤len ∧ len≤p.length),Option.bind_some] using h

theorem wstrv_spec (hf : Fits b d) (hb : Block d) {text : Option (List Byte)} (hint : ∀ x∈text,(x.length : ℤ)< intMax)
    (hr : ∀ x∈text,x≠[] → refits b (x.length+1) → roomy b d) (mem : Mem) :
    Writes b d (text.getD []) (text.getD []).length (wstrv b d text mem) := by
  cases text with
  | none => exact .inr ⟨b,d,einval,rfl,.inl (by decide),keeps_refl hf hb⟩
  | some x =>
    have hx := hint x rfl
    unfold intMax at hx
    simp only [wstrv,Option.getD_some]
    split
    · rename_i hz
      exact .inr ⟨b,d,0,rfl,.inr ⟨rfl,List.length_eq_zero_iff.mp (by omega)⟩,keeps_refl hf hb⟩
    · rename_i hne
      have hw : wrap ((x.length : ℤ)+1)=x.length+1 := (wrap_cases _).2.2.1 (by omega) (by omega)
      rw [hw]
      have h := write_spec hf hb x.length (x.length+1) (x++[0]) mem
        (by unfold intMax; omega) (hr x rfl (by rintro rfl; simp at hne)) (by omega) (by simp) (by simp) rfl
      rwa [Int.toNat_natCast,List.take_left] at h

/-! ### Looking -/

theorem cequalc_spec (hf : Fits b d) (hb : Block d) {sub : List Byte} {len : ℤ} (hp : pointer sub len) :
    ∃ r,cequalc b d sub len=some (b,d,r) := by
  have h0 := hf.rbeg
  have h2 := hf.wbeg
  have h3 := hf.size
  have h4 := hf.maxs
  have h5 := hb.room
  obtain ⟨l,hl,hl0,hlp,-⟩ := pointer_len hp
  simp only [cequalc,hl,Option.bind_some]
  split
  · exact ⟨0,rfl⟩
  · rename_i hc
    unfold Buf.crsize at hc
    rw [bytes,if_pos ⟨hl0,hlp⟩,load_some hl0 h0 (by omega)]
    exact ⟨_,rfl⟩

theorem cstrlen_spec (hf : Fits b d) (hb : Block d) : ∃ r,cstrlen b d=some (b,d,r) := by
  unfold cstrlen Buf.crsize
  rw [load_readable hf hb]
  exact ⟨_,rfl⟩

theorem cbegwith_spec (hf : Fits b d) (hb : Block d) {sub : Option (List Byte)} {len : ℤ} {skip : Bool}
    (hp : ∀ p∈sub,pointer p len) : ∃ r,cbegwith b d sub len skip=some (b,d,r) := by
  have h0 := hf.rbeg
  have h2 := hf.wbeg
  have h3 := hf.size
  have h4 := hf.maxs
  have h5 := hb.room
  have hlr := length_readable hf hb
  cases sub with
  | none => exact ⟨0,rfl⟩
  | some p =>
    obtain ⟨l,hl,hl0,hlp,-⟩ := pointer_len (hp p rfl)
    simp only [cbegwith,hl,Option.bind_some]
    have hcr : b.crsize=b.rend-b.rbeg := rfl
    obtain ⟨n,hn,hn0⟩ : ∃ n : ℤ,(if skip=true then (d.load b.rbeg b.crsize).map
        fun x => ((x.takeWhile isws).length : ℤ) else some 0)=some n ∧ 0≤n := by
      rw [hcr,load_readable hf hb]
      cases skip with
      | true => exact ⟨_,rfl,Int.natCast_nonneg _⟩
      | false => exact ⟨0,rfl,le_rfl⟩
    by_cases he : b.crsize=0
    · rw [if_pos he]
      exact ⟨0,rfl⟩
    · rw [if_neg he]
      by_cases hs : b.crsize<l
      · rw [if_pos hs]
        exact ⟨0,rfl⟩
      · rw [if_neg hs,hn]
        simp only [Option.bind_some]
        by_cases ht : b.crsize-n<l
        · rw [if_pos ht]
          exact ⟨0,rfl⟩
        · rw [if_neg ht,bytes,if_pos ⟨hl0,hlp⟩,load_some hl0 (by omega) (by omega)]
          exact ⟨_,rfl⟩

end Cursors

/-! ### Calls that came back -/

section Back
variable {b : Buf σ} {d : Data} {mem : Mem}

theorem recycleData_roomy {x : Buf σ × Data} (h : recycleData b d=some x) : roomy b d := by
  intro heq hz
  by_contra hn
  unfold spare at hn
  have hout : ¬(0≤b.size-b.wbeg ∧ b.size-b.wbeg+([0] : List Byte).length≤d.data.length) := by
    simp only [List.length_singleton]
    omega
  rw [recycleData,if_pos heq] at h
  simp only [Data.store,if_neg hout,Option.map_none] at h
  cases h

theorem resizew_roomy {s : ℤ} {x : Buf σ × Data × Bool} (h : resizew b d s mem=some x) (hs : 0≤ s)
    (hn : b.norecycle=false) : roomy b d := by
  rw [resizew,if_pos hs,hn] at h
  obtain ⟨y,hy,-⟩ := Option.bind_eq_some_iff.mp h
  exact recycleData_roomy hy

theorem wcheck_roomy (hf : Fits b d) {len : ℤ} {x : Buf σ × Data × Bool} (h : wcheck b d len mem=some x)
    (hr : refits b len) : roomy b d := by
  have := hf.size
  obtain ⟨hlt,hn⟩ := hr
  rw [wcheck,if_pos hlt] at h
  exact resizew_roomy h (by omega) hn

end Back

/-! ### Live buffers -/

/-- A buffer whose cursors are in its storage. -/
structure Live (σ : Type*) where
  b : Buf σ
  d : Data
  fits : Fits b d
  block : Block d

end Dpapp.DpbufSpec
