import Dpapp.AioWrite

/-! # Reading what there is into a dpbuf (dpasc.c)

`dpaio_read_some` on an EFD, and what it shares with `dpaio_read_until`: the slack is made readable first, and then all that
a post function has got. -/

set_option linter.unusedSectionVars false

namespace Dpapp.AioRead
open Dpapp.Machine Dpapp.Ret Dpapp.Segment Dpapp.DpbufSpec Dpapp.AioOp
open Dpapp.Dpbuf (Byte Buf Data CInt intMax wrap wseek eseek resizew)
open Dpapp.StreamIo (Call int32 int32_eq)
open Dpapp.ReadMust (Stm dpeNomem iclamp_mid resizew_keeps)
open Dpapp.AioWrite (Mem valid)

variable {σ : Type*}

def dpaioBatchSize : ℤ := 8192

/-- A read or recv at `buf + off`. -/
def takeIn (mem : Mem σ) (pos off : ℤ) (x : List Byte) : Option (Mem σ) :=
  (mem.2.store (pos+off) x).map fun d => (mem.1,d)

/-- `_dpaio_read_some_prep` -/
def readSomePrep (m : Dpbuf.Mem) (len : CInt) (mem : Mem σ) : Option (Mem σ × (Dpret ⊕ Stm)) :=
  if (len : ℤ)≤0 then some (mem,.inl dpeInval)
  else
    (eseek mem.1 mem.2 0 .end_).bind fun (b,d,esz) =>
      if esz≥len then some ((b,d),.inl esz)
      else
        let bytes := if len-esz>dpaioBatchSize then dpaioBatchSize else len-esz
        (resizew b d bytes m).map fun (b,d,ok) =>
          if ok=false then ((b,d),.inl dpeNomem) else ((b,d),.inr ⟨b.wbeg,b.cwsize,0,len⟩)

/-- `_dpaio_read_some_post`, after `sub->post` -/
def readSomePost (m : Dpbuf.Mem) (mem : Mem σ) (stm : Stm) (ret : Dpret) : Option (Mem σ × Stm × Dpret) :=
  if ret≤0 then some (mem,stm,if 0<stm.total then stm.total else ret)
  else
    let total := int32 (stm.total+ret)
    (wseek mem.1 mem.2 ret .cur).bind fun (b,d,_) =>
      (eseek b d 0 .end_).bind fun (b,d,_) =>
        if ret<stm.ioLen ∨ total≥ stm.len then some ((b,d),{stm with total := total},total)
        else
          let wsz := if stm.len-total>dpaioBatchSize then dpaioBatchSize else stm.len-total
          (resizew b d wsz m).map fun (b,d,ok) =>
            if ok=false then ((b,d),{stm with total := total},if 0<total then total else dpeNomem)
            else ((b,d),⟨b.wbeg,b.cwsize,total,stm.len⟩,dpeWait)

/-- dpaio_read_some -/
def dpaioReadSome : Op Byte (Mem σ) CInt Stm Dpbuf.Mem :=
  ⟨readSomePrep,Stm.ioLen,fun mem stm => takeIn mem stm.pos,readSomePost⟩

abbrev Over (σ : Type*) := Done Byte (Mem σ) CInt Stm Dpbuf.Mem

/-- A positive result is how many of the next bytes have become readable, at most `len`, and the others are kept as slack;
with another result all is where it was. -/
structure Exact (d : Over σ) : Prop where
  pos : 0<d.ret → d.ret≤d.arg ∧
    readable d.after.1 d.after.2=readable d.before.1 d.before.2++(slack d.before.1 d.before.2++d.moved).take d.ret.toNat ∧
    slack d.after.1 d.after.2=(slack d.before.1 d.before.2++d.moved).drop d.ret.toNat
  neg : d.ret≤0 → readable d.after.1 d.after.2=readable d.before.1 d.before.2 ∧
    slack d.after.1 d.after.2=slack d.before.1 d.before.2++d.moved

/-- A call returns 0 behind others of the same post function. -/
def lost {τ ε : Type*} (l : Last (Mem σ) τ ε) : Prop := l.call.res=0 ∧ 0<l.got

/-- The slack is all that is asked for, or there is none and the fd gives no more than that. -/
def fine (d : Over σ) : Prop :=
  (slack d.before.1 d.before.2).length=(d.arg : ℤ) ∨
    slack d.before.1 d.before.2=[] ∧ d.moved.length≤(d.arg : ℤ) ∧ ∀ l∈d.last,¬lost l

/-- All has been made readable, but for the last `m` bytes, which lie behind the cursor. -/
structure Behind (a b : Mem σ) (pos ioLen n : ℤ) (y : List Byte) (m : ℤ) : Prop where
  holds : valid b
  place : pos=b.1.wbeg
  room : ioLen=b.1.size-b.1.wbeg
  total : 0≤n
  count : (y.length : ℤ)=n+m
  front : readable b.1 b.2=readable a.1 a.2++slack a.1 a.2++y.take n.toNat
  empty : slack b.1 b.2=[]
  tail : seg b.2.data b.1.wbeg.toNat (b.1.wbeg+m).toNat=y.drop n.toNat

section Steps
variable {w : CInt} {a b b' : Mem σ} {x y : List Byte} {t t' : Stm} {pos ioLen n m r r' : ℤ} {c : Call} {e : Dpbuf.Mem}

/-- dpbuf_eseek to the end makes the slack readable. -/
theorem eseek_end (hv : valid b) : eseek b.1 b.2 0 .end_=some ({b.1 with rend := b.1.wbeg},b.2,b.1.wbeg-b.1.rend) ∧
    valid ({b.1 with rend := b.1.wbeg},b.2) ∧
    readable {b.1 with rend := b.1.wbeg} b.2=readable b.1 b.2++slack b.1 b.2 ∧ slack {b.1 with rend := b.1.wbeg} b.2=[] := by
  have h1 := hv.1.rbeg
  have h2 := hv.1.rend
  have h3 := hv.1.wbeg
  have h4 := hv.1.size
  have h5 := hv.1.maxs
  have h6 := hv.2.int
  unfold intMax at h6
  have hwrap : wrap b.1.wbeg=b.1.wbeg := (wrap_cases _).2.2.1 (by omega) (by omega)
  have hsplit := seg_append (l := b.2.data) (show b.1.rbeg.toNat≤b.1.rend.toNat by omega)
    (show b.1.rend.toNat≤b.1.wbeg.toNat by omega)
  refine ⟨?_,⟨⟨h1,?_,le_rfl,h4,h5⟩,hv.2⟩,hsplit.symm,seg_self⟩
  · simp only [eseek,add_zero,hwrap,iclamp_mid (show b.1.rbeg≤b.1.wbeg by omega) le_rfl]
  · exact h2.trans h3

theorem length_tail (h : Behind a b pos ioLen n y m) : (y.drop n.toNat).length=m.toNat := by
  have := h.count
  have := h.total
  rw [List.length_drop]
  omega

theorem behind_move (h : Behind a b pos ioLen n y m) (h0 : 0≤ m) (hm : m+x.length≤ ioLen) (hu : takeIn b pos m x=some b') :
    Behind a b' pos ioLen n (y++x) (m+x.length) := by
  obtain ⟨d,hd,rfl⟩ := Option.map_eq_some_iff.mp hu
  have h1 := h.holds.1.rbeg
  have h2 := h.holds.1.rend
  have h3 := h.holds.1.wbeg
  have h4 := h.holds.1.size
  have h5 := h.holds.1.maxs
  have h6 := h.holds.2.room
  have hpos := h.place
  have hio := h.room
  have hcount := h.count
  have htotal := h.total
  have hat : (pos+m).toNat=(b.1.wbeg+m).toNat := by rw [hpos]
  have hfit : (b.1.wbeg+m).toNat+x.length≤b.2.data.length := by omega
  have hstore : b.2.store (pos+m) x=some {b.2 with data := put b.2.data (pos+m).toNat x} :=
    store_some (by omega) (by omega)
  rw [hstore,hat] at hd
  cases hd
  have hbelow (i j : ℕ) (hj : j≤(b.1.wbeg+m).toNat) :
      seg (put b.2.data (b.1.wbeg+m).toNat x) i j=seg b.2.data i j := seg_put_off hfit (.inl hj)
  have htake : (y++x).take n.toNat=y.take n.toNat := List.take_append_of_le_length (by omega)
  have hdrop : (y++x).drop n.toNat=y.drop n.toNat++x := List.drop_append_of_le_length (by omega)
  have hfits : Fits b.1 {b.2 with data := put b.2.data (b.1.wbeg+m).toNat x} := ⟨h1,h2,h3,h4,h5⟩
  refine ⟨⟨hfits,⟨?_,h.holds.2.int⟩⟩,hpos,hio,htotal,?_,?_,?_,?_⟩
  · simp only [length_put hfit]
    exact h6
  · rw [List.length_append]
    push_cast
    omega
  · rw [htake]
    exact (hbelow b.1.rbeg.toNat b.1.rend.toNat (by omega)).trans h.front
  · exact (hbelow b.1.rend.toNat b.1.wbeg.toNat (by omega)).trans h.empty
  · have hend : (b.1.wbeg+(m+x.length)).toNat=(b.1.wbeg+m).toNat+x.length := by omega
    simp only
    rw [hdrop,hend,← seg_append (show b.1.wbeg.toNat≤(b.1.wbeg+m).toNat by omega) (Nat.le_add_right _ _),
      hbelow _ _ le_rfl,seg_put_self hfit,h.tail]

/-- dpbuf_wseek and dpbuf_eseek make readable what a post function has got. -/
theorem behind_seek (h : Behind a b pos ioLen n y m) (h0 : 0≤ m) (hm : m≤ ioLen) :
    ∃ b1 b2 k j,wseek b.1 b.2 m .cur=some (b1,b.2,k) ∧ eseek b1 b.2 0 .end_=some (b2,b.2,j) ∧ valid (b2,b.2) ∧
      b2={b.1 with rend := b.1.wbeg+m, wbeg := b.1.wbeg+m} ∧
      readable b2 b.2=readable a.1 a.2++slack a.1 a.2++y ∧ slack b2 b.2=[] := by
  have h1 := h.holds.1.rbeg
  have h2 := h.holds.1.rend
  have h3 := h.holds.1.wbeg
  have h4 := h.holds.1.size
  have h5 := h.holds.1.maxs
  have h6 := h.holds.2.int
  unfold intMax at h6
  have hio := h.room
  have hwrap : wrap (b.1.wbeg+m)=b.1.wbeg+m := (wrap_cases _).2.2.1 (by omega) (by omega)
  have hseek : wseek b.1 b.2 m .cur=some ({b.1 with wbeg := b.1.wbeg+m},b.2,b.1.wbeg+m-b.1.wbeg) := by
    simp only [wseek,hwrap,iclamp_mid (show b.1.rend≤b.1.wbeg+m by omega) (show b.1.wbeg+m≤b.1.size by omega)]
  have hv : valid ({b.1 with wbeg := b.1.wbeg+m},b.2) :=
    ⟨⟨h1,h2,by simp only; omega,by simp only; omega,h5⟩,h.holds.2⟩
  obtain ⟨he,hv',hr,hs⟩ := eseek_end hv
  refine ⟨_,_,_,_,hseek,he,hv',rfl,?_,hs⟩
  have hslack : slack {b.1 with wbeg := b.1.wbeg+m} b.2=y.drop n.toNat := by
    have hsplit := seg_append (l := b.2.data) (show b.1.rend.toNat≤b.1.wbeg.toNat by omega)
      (show b.1.wbeg.toNat≤(b.1.wbeg+m).toNat by omega)
    rw [show seg b.2.data b.1.rend.toNat b.1.wbeg.toNat=[] from h.empty,h.tail,List.nil_append] at hsplit
    exact hsplit.symm
  have hread : readable {b.1 with wbeg := b.1.wbeg+m} b.2=readable b.1 b.2 := rfl
  simp only at hr
  rw [hr,hread,hslack,h.front,List.append_assoc,List.take_append_drop]

/-- dpbuf_resizew for the next post function. -/
theorem behind_resizew {k : ℤ} {z : Buf σ × Data × Bool} (hv : valid b) (hk : k≤ intMax) (hr : resizew b.1 b.2 k e=some z) :
    valid (z.1,z.2.1) ∧ readable z.1 z.2.1=readable b.1 b.2 ∧ slack z.1 z.2.1=slack b.1 b.2 := by
  obtain ⟨hkeep,-⟩ := resizew_keeps hv.1 hv.2 hk hr
  exact ⟨⟨hkeep.fits,hkeep.grows.block⟩,hkeep.readable,hkeep.slack⟩

theorem behind_start {y : List Byte} (hv : valid b) (hread : readable b.1 b.2=readable a.1 a.2++slack a.1 a.2++y)
    (hslack : slack b.1 b.2=[]) : Behind a b b.1.wbeg b.1.cwsize y.length y 0 := by
  refine ⟨hv,rfl,rfl,Int.natCast_nonneg _,(add_zero _).symm,?_,hslack,?_⟩
  · rw [Int.toNat_natCast,List.take_length]
    exact hread
  · rw [add_zero,seg_self,Int.toNat_natCast,List.drop_length]

theorem behind_size (h : Behind a b pos ioLen n y m) : 0≤ ioLen ∧ ioLen<2^31 := by
  have h1 := h.holds.1.rbeg
  have h2 := h.holds.1.rend
  have h3 := h.holds.1.wbeg
  have h4 := h.holds.1.size
  have h5 := h.holds.1.maxs
  have h6 := h.holds.2.int
  have hroom := h.room
  unfold intMax at h6
  omega

/-- What the buffer has room for is an int. -/
theorem behind_int (h : Behind a b pos ioLen n y m) (h0 : 0≤ m) (hm : m≤ ioLen) : n+m<2^31 := by
  have hread := length_readable h.holds.1 h.holds.2
  rw [h.front] at hread
  simp only [List.length_append,List.length_take] at hread
  have h1 := h.holds.1.rbeg
  have h3 := h.holds.1.wbeg
  have h4 := h.holds.1.size
  have h5 := h.holds.1.maxs
  have h6 := h.holds.2.int
  have hroom := h.room
  have hcount := h.count
  have htotal := h.total
  unfold intMax at h6
  omega

end Steps

/-! ### read_some -/

structure Mid (w : CInt) (a b : Mem σ) (t : Stm) (y : List Byte) (m : ℤ) : Prop where
  len : t.len=w ∧ 0<(w : ℤ)
  short : (slack a.1 a.2).length<(w : ℤ)
  total : t.total<w
  behind : Behind a b t.pos t.ioLen t.total y m

def good (d : Over σ) : Prop := 0<(d.arg : ℤ) → (Exact d ↔ fine d)

section Some
variable {w : CInt} {a b b' : Mem σ} {x y : List Byte} {t t' : Stm} {n m r r' : ℤ} {c : Call} {e : Dpbuf.Mem}

/-- A call has ended the operation, which has counted `n` bytes and made them readable behind the slack. -/
theorem good_end {l : Last (Mem σ) Stm Dpbuf.Mem} (h0 : 0≤n) (hs : (slack a.1 a.2).length<(w : ℤ))
    (hread : readable b.1 b.2=readable a.1 a.2++slack a.1 a.2++y.take n.toNat) (hslack : slack b.1 b.2=[])
    (hr : r=n ∧ 0<n ∨ r<0 ∧ n=0) (hn : n≤y.length) (hl : y.length=n ↔ ¬lost l) : good ⟨w,a,y,r,b,some l⟩ := by
  intro hw
  have hfine : fine ⟨w,a,y,r,b,some l⟩ ↔ slack a.1 a.2=[] ∧ y.length≤(w : ℤ) ∧ y.length=n := by
    rw [hl]
    constructor
    · rintro (heq | ⟨hnil,hle,hlost⟩)
      · exact absurd heq hs.ne
      · exact ⟨hnil,hle,hlost l rfl⟩
    · rintro ⟨hnil,hle,hlost⟩
      refine .inr ⟨hnil,hle,fun l' hl' => ?_⟩
      cases hl'
      exact hlost
  rw [hfine]
  constructor
  · intro h
    rcases hr with ⟨rfl,hpos⟩ | ⟨hneg,rfl⟩
    · have hle : r≤w := (h.pos hpos).1
      have hrest : slack b.1 b.2=(slack a.1 a.2++y).drop r.toNat := (h.pos hpos).2.2
      have hlen := congrArg List.length (hslack.symm.trans hrest)
      rw [List.length_nil,List.length_drop,List.length_append] at hlen
      refine ⟨List.eq_nil_of_length_eq_zero (by omega),by omega,by omega⟩
    · have hrest : slack b.1 b.2=slack a.1 a.2++y := (h.neg hneg.le).2
      have hlen := congrArg List.length (hslack.symm.trans hrest)
      rw [List.length_nil,List.length_append] at hlen
      exact ⟨List.eq_nil_of_length_eq_zero (by omega),by omega,by omega⟩
  · rintro ⟨hnil,hle,hcount⟩
    have hall : n.toNat=y.length := by omega
    rw [hnil,List.append_nil,hall,List.take_length] at hread
    constructor
    · intro hpos
      rcases hr with ⟨rfl,-⟩ | ⟨hneg,-⟩
      · refine ⟨?_,?_,?_⟩
        · change r≤w
          omega
        · change readable b.1 b.2=readable a.1 a.2++(slack a.1 a.2++y).take r.toNat
          rw [hread,hnil,List.nil_append,hall,List.take_length]
        · change slack b.1 b.2=(slack a.1 a.2++y).drop r.toNat
          rw [hslack,hnil,List.nil_append,hall,List.drop_length]
      · exact absurd (show 0<r from hpos) hneg.not_gt
    · intro hneg
      rcases hr with ⟨rfl,hpos⟩ | ⟨-,rfl⟩
      · exact absurd (show r≤0 from hneg) (not_le.mpr hpos)
      · have hy : y=[] := List.eq_nil_of_length_eq_zero (by omega)
        refine ⟨?_,?_⟩
        · change readable b.1 b.2=readable a.1 a.2
          rw [hread,hy,List.append_nil]
        · change slack b.1 b.2=slack a.1 a.2++y
          rw [hslack,hnil,hy,List.append_nil]

theorem prep_cases {z : Mem σ × (Dpret ⊕ Stm)} (hv : valid b) (hu : readSomePrep e w b=some z) :
    ((w : ℤ)≤0 ∧ z=(b,.inl dpeInval)) ∨
    0<(w : ℤ) ∧ valid z.1 ∧ readable z.1.1 z.1.2=readable b.1 b.2++slack b.1 b.2 ∧ slack z.1.1 z.1.2=[] ∧
      (((w : ℤ)≤(slack b.1 b.2).length ∧ z.2=.inl ((slack b.1 b.2).length : ℤ)) ∨
      (slack b.1 b.2).length<(w : ℤ) ∧ (z.2=.inl dpeNomem ∨ z.2=.inr ⟨z.1.1.wbeg,z.1.1.cwsize,0,w⟩)) := by
  have hlen := length_slack hv.1 hv.2
  obtain ⟨he,hv',hread,hslack⟩ := eseek_end hv
  unfold readSomePrep at hu
  split at hu
  · rename_i hneg
    cases hu
    exact .inl ⟨hneg,rfl⟩
  · rename_i hpos
    rw [he] at hu
    simp only [Option.bind_some,← hlen] at hu
    refine .inr ⟨not_le.mp hpos,?_⟩
    split at hu
    · rename_i hge
      cases hu
      exact ⟨hv',hread,hslack,.inl ⟨hge,rfl⟩⟩
    · rename_i hlt
      obtain ⟨x,hx,rfl⟩ := Option.map_eq_some_iff.mp hu
      have hw := w.2.2
      have hbytes : (if (w : ℤ)-(slack b.1 b.2).length>dpaioBatchSize then dpaioBatchSize
          else (w : ℤ)-(slack b.1 b.2).length)≤ intMax := by
        unfold dpaioBatchSize intMax
        split <;> omega
      obtain ⟨hx1,hx2,hx3⟩ := behind_resizew hv' hbytes hx
      refine ⟨?_,?_,?_,.inr ⟨not_le.mp hlt,?_⟩⟩
      all_goals split
      · exact hx1
      · exact hx1
      · exact hx2.trans hread
      · exact hx2.trans hread
      · exact hx3.trans hslack
      · exact hx3.trans hslack
      · exact .inl rfl
      · exact .inr rfl

theorem prep_good (hv : valid b) (hu : readSomePrep e w b=some (b',.inl r)) : valid b' ∧ good ⟨w,b,[],r,b',none⟩ := by
  rcases prep_cases hv hu with ⟨hneg,hz⟩ | ⟨hpos,hv',hread,hslack,hend⟩
  · cases hz
    exact ⟨hv,fun hpos => absurd hpos (not_lt.mpr hneg)⟩
  · refine ⟨hv',fun _ => ?_⟩
    have hfine : fine (⟨w,b,[],r,b',none⟩ : Over σ) ↔ (slack b.1 b.2).length=(w : ℤ) ∨ slack b.1 b.2=[] := by
      constructor
      · rintro (heq | ⟨hnil,-⟩)
        · exact .inl heq
        · exact .inr hnil
      · rintro (heq | hnil)
        · exact .inl heq
        · exact .inr ⟨hnil,hpos.le,fun l hl => by cases hl⟩
    rw [hfine]
    rcases hend with ⟨hge,hr⟩ | ⟨hlt,hr | hr⟩
    · cases hr
      constructor
      · intro h
        have hle : (slack b.1 b.2).length≤(w : ℤ) := (h.pos (hpos.trans_le hge)).1
        exact .inl (le_antisymm hle hge)
      · rintro (heq | hnil)
        · refine ⟨fun _ => ⟨heq.le,?_,?_⟩,fun hneg => absurd (hpos.trans_le hge) (not_lt.mpr hneg)⟩
          · change readable b'.1 b'.2=_
            rw [hread,Int.toNat_natCast,List.append_nil,List.take_length]
          · change slack b'.1 b'.2=_
            rw [hslack,Int.toNat_natCast,List.append_nil,List.drop_length]
        · rw [hnil] at hge
          exact absurd hpos (not_lt.mpr hge)
    · cases hr
      constructor
      · intro h
        have hneg : dpeNomem≤0 := by decide
        have hkeep : slack b'.1 b'.2=slack b.1 b.2++[] := (h.neg hneg).2
        rw [hslack,List.append_nil] at hkeep
        exact .inr hkeep.symm
      · rintro (heq | hnil)
        · exact absurd heq hlt.ne
        · refine ⟨fun hp => absurd (show 0<dpeNomem from hp) (by decide),fun _ => ⟨?_,?_⟩⟩
          · change readable b'.1 b'.2=_
            rw [hread,hnil,List.append_nil]
          · change slack b'.1 b'.2=slack b.1 b.2++[]
            rw [hslack,hnil,List.append_nil]
    · cases hr

theorem prep_mid (hv : valid b) (hu : readSomePrep e w b=some (b',.inr t)) : Mid w b b' t [] 0 := by
  rcases prep_cases hv hu with ⟨hneg,hz⟩ | ⟨hpos,hv',hread,hslack,⟨-,hr⟩ | ⟨hlt,hr | hr⟩⟩
  · cases hz
  · cases hr
  · cases hr
  · have ht : t=⟨b'.1.wbeg,b'.1.cwsize,0,w⟩ := Sum.inr.inj hr
    subst ht
    refine ⟨⟨rfl,hpos⟩,hlt,hpos,behind_start (y := []) hv' ?_ hslack⟩
    rw [List.append_nil]
    exact hread

/-- What a post function has got is counted, and the operation goes on or ends. -/
theorem some_got (h : Mid w a b t y m) (hpos : 0< m) (hm : m≤t.ioLen) (hc : c.res≠0)
    (hu : readSomePost e b t m=some (b',t',r')) :
    if r'=dpeWait then Mid w a b' t' y 0 else valid b' ∧ good ⟨w,a,y,r',b',some ⟨b,t,m,c,e⟩⟩ := by
  have hbehind := h.behind
  have hcount := hbehind.count
  have htotal := hbehind.total
  have hlen := h.len.1
  have hw := w.2.2
  obtain ⟨b1,b2,k,j,hseek,he,hv,-,hread,hslack⟩ := behind_seek hbehind hpos.le hm
  have hsum : int32 (t.total+m)=y.length := by
    rw [int32_eq (by omega) (behind_int hbehind hpos.le hm),hcount]
  have hend (z : Mem σ) (hread : readable z.1 z.2=readable a.1 a.2++slack a.1 a.2++y) (hslack : slack z.1 z.2=[]) :
      good ⟨w,a,y,(y.length : ℤ),z,some ⟨b,t,m,c,e⟩⟩ := by
    have htake : y.take (y.length : ℤ).toNat=y := by rw [Int.toNat_natCast,List.take_length]
    refine good_end (Int.natCast_nonneg _) h.short (by rw [htake]; exact hread) hslack (.inl ⟨rfl,by omega⟩) le_rfl ?_
    exact iff_of_true rfl fun hx => hc hx.1
  have hne : (y.length : ℤ)≠dpeWait := by
    unfold dpeWait
    omega
  unfold readSomePost at hu
  rw [if_neg (not_le.mpr hpos),hseek] at hu
  simp only [Option.bind_some,he,hsum] at hu
  split at hu
  · cases hu
    rw [if_neg hne]
    exact ⟨hv,hend _ hread hslack⟩
  · rename_i hmore
    obtain ⟨z,hz,hu⟩ := Option.map_eq_some_iff.mp hu
    have hwsz : (if t.len-(y.length : ℤ)>dpaioBatchSize then dpaioBatchSize else t.len-(y.length : ℤ))≤ intMax := by
      unfold dpaioBatchSize intMax
      split <;> omega
    obtain ⟨hv',hread',hslack'⟩ := behind_resizew hv hwsz hz
    have hread' := hread'.trans hread
    have hslack' := hslack'.trans hslack
    split at hu
    · cases hu
      have hpart : (if 0<(y.length : ℤ) then (y.length : ℤ) else dpeNomem)=y.length := if_pos (by omega)
      rw [hpart,if_neg hne]
      exact ⟨hv',hend _ hread' hslack'⟩
    · cases hu
      rw [if_pos rfl]
      have hlt : (y.length : ℤ)<w := by
        have := not_or.mp hmore
        omega
      exact ⟨⟨hlen,h.len.2⟩,h.short,hlt,behind_start hv' hread' hslack'⟩

theorem some_post (h : Mid w a b t y m) (h0 : 0≤ m) (hm : m≤t.ioLen) (ho : Outcome t.ioLen m c r)
    (hu : readSomePost e b t r=some (b',t',r')) :
    if r'=dpeWait then Mid w a b' t' y 0 else valid b' ∧ good ⟨w,a,y,r',b',some ⟨b,t,m,c,e⟩⟩ := by
  have hbehind := h.behind
  have hcount := hbehind.count
  have htotal := hbehind.total
  -- nothing more is got
  have hnone : r<0 → (r=dpeWait → m=0) → (m=0 ↔ ¬lost (⟨b,t,m,c,e⟩ : Last (Mem σ) Stm Dpbuf.Mem)) →
      if r'=dpeWait then Mid w a b' t' y 0 else valid b' ∧ good ⟨w,a,y,r',b',some ⟨b,t,m,c,e⟩⟩ := by
    intro hr hwait hlost
    unfold readSomePost at hu
    rw [if_pos hr.le] at hu
    cases hu
    by_cases hw : (if 0<t.total then t.total else r)=dpeWait
    · rw [if_pos hw]
      unfold dpeWait at hw hwait
      have hzero : m=0 := hwait (by split at hw <;> omega)
      rw [hzero] at h
      exact h
    · rw [if_neg hw]
      refine ⟨hbehind.holds,good_end htotal h.short hbehind.front hbehind.empty ?_ (by omega) ?_⟩
      · split <;> omega
      · rw [← hlost]
        omega
  cases ho with
  | full hc hm' hpos => exact some_got h hpos hm hc.ne' hu
  | short hc hpos _ => exact some_got h hpos hm hc.ne hu
  | eof hc =>
    refine hnone (by decide) (fun hw => absurd hw (by decide)) ⟨fun hz hx => ?_,fun hx => ?_⟩
    · exact absurd hz (show 0< m from hx.2).ne'
    · by_contra hne
      exact hx ⟨hc,show 0< m by omega⟩
  | fail hc hm' he =>
    refine hnone (by omega) (fun _ => hm') (iff_of_true hm' fun hx => hc.ne hx.1)

theorem some_spec : Spec (dpaioReadSome (σ := σ)) valid Mid good where
  prep hv hu := prep_good hv hu
  start hv hu := prep_mid hv hu
  size h := behind_size h.behind
  move h h0 hm hu := ⟨h.len,h.short,h.total,behind_move h.behind h0 hm hu⟩
  post h h0 hm ho hu := some_post h h0 hm ho hu

end Some

theorem read_some {mem : Mem σ} {s : Sys Byte (Mem σ) CInt Stm Dpbuf.Mem} (hv : valid mem)
    (h : Reach (step dpaioReadSome) (proper valid) (start mem) s) : ∀ d∈ s.done,0<(d.arg : ℤ) → (Exact d ↔ fine d) :=
  (run_inv some_spec hv h).done

def block : Data := {data := [1,2,3,0,0,0,0,0,0], maxs := 8}

def empty : Mem Unit := ({data := (), size := 8},block)

theorem empty_valid : valid empty := ⟨⟨by decide,by decide,by decide,by decide,by decide⟩,⟨by decide,by decide⟩⟩

/-- Three bytes come, and no more. -/
def three : List (Act Byte (Mem Unit) CInt Dpbuf.Mem) :=
  [.add 4 none,.post,.call ⟨3,0⟩ [7,8,9] none,.call ⟨-1,11⟩ [] none]

theorem read_some_three : ∃ d : Over Unit,d.ret=3 ∧ readable d.after.1 d.after.2=[7,8,9] ∧ Exact d := by
  have hrun : (exec (step dpaioReadSome) (start empty) three).any (fun s => s.done.any fun d =>
      decide (d.ret=3 ∧ readable d.after.1 d.after.2=[7,8,9] ∧ (d.arg : ℤ)=4 ∧ slack d.before.1 d.before.2=[] ∧
        d.moved=[7,8,9]) && d.last.all fun l => decide (l.call.res<0))=true := by decide +kernel
  obtain ⟨s,hs,hend⟩ := (Option.any_eq_true _ _).mp hrun
  obtain ⟨d,hd,hend⟩ := List.any_eq_true.mp hend
  obtain ⟨hend,hlast⟩ := Bool.and_eq_true_iff.mp hend
  obtain ⟨hret,hread,harg,hslack,hmoved⟩ := of_decide_eq_true hend
  have hreach : Reach (step dpaioReadSome) (proper valid) (start empty) s := exec_proper (by decide) hs
  refine ⟨d,hret,hread,(read_some empty_valid hreach d hd (by rw [harg]; decide)).mpr (.inr ⟨hslack,?_,fun l hl hlost => ?_⟩)⟩
  · rw [hmoved,harg]
    decide
  · have hneg := of_decide_eq_true ((Option.all_eq_true _ _).mp hlast l hl)
    exact hneg.ne hlost.1

def withSlack : Mem Unit := ({data := (), wbeg := 3, size := 8},block)

theorem withSlack_valid : valid withSlack := ⟨⟨by decide,by decide,by decide,by decide,by decide⟩,⟨by decide,by decide⟩⟩

/-- Two bytes are asked for, and three are in the slack. -/
def two : List (Act Byte (Mem Unit) CInt Dpbuf.Mem) := [.add 2 none]

theorem read_some_two : ¬∀ (mem : Mem Unit) (s : Sys Byte (Mem Unit) CInt Stm Dpbuf.Mem),valid mem →
    Reach (step dpaioReadSome) (proper valid) (start mem) s → ∀ d∈ s.done,0<(d.arg : ℤ) → Exact d := by
  intro hall
  have hrun : (exec (step dpaioReadSome) (start withSlack) two).any (fun s => s.done.any fun d =>
      decide (d.ret=3 ∧ (d.arg : ℤ)=2))=true := by decide +kernel
  obtain ⟨s,hs,hend⟩ := (Option.any_eq_true _ _).mp hrun
  obtain ⟨d,hd,hend⟩ := List.any_eq_true.mp hend
  obtain ⟨hret,harg⟩ := of_decide_eq_true hend
  have hreach : Reach (step dpaioReadSome) (proper valid) (start withSlack) s := exec_proper (by decide) hs
  obtain ⟨hle,-⟩ := (hall withSlack s withSlack_valid hreach d hd (by rw [harg]; decide)).pos (by rw [hret]; decide)
  rw [hret,harg] at hle
  exact absurd hle (by decide)

end Dpapp.AioRead
