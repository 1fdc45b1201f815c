import Dpapp.AioData

/-! # Writing the readable bytes of a dpbuf (dpasc.c)

`dpaio_write_some` and `dpaio_write_must` on an EFD. -/

set_option linter.unusedSectionVars false

namespace Dpapp.AioWrite
open Dpapp.Machine Dpapp.Ret Dpapp.Segment Dpapp.Dpbuf Dpapp.DpbufSpec Dpapp.AioOp
open Dpapp.StreamIo (Call int32 int32_eq)
open Dpapp.ReadMust (Stm iclamp_mid)
open Dpapp.AioData (eagain ends)

variable {σ : Type*}

/-- A buffer that is not NULL, with its storage. -/
abbrev Mem (σ : Type*) := Buf σ × Data

/-- A write or send at `buf + off`. -/
def giveOut (mem : Mem σ) (stm : Stm) (off : ℤ) (x : List Byte) : Option (Mem σ) :=
  (mem.2.load (stm.pos+off) x.length).bind fun y => if y=x then some mem else none

/-- `_dpaio_write_some_prep` -/
def writeSomePrep (_ : Unit) (len : CInt) (mem : Mem σ) : Option (Mem σ × (Dpret ⊕ Stm)) :=
  if (len : ℤ)≤0 then some (mem,.inl dpeInval) else some (mem,.inr ⟨mem.1.rbeg,mem.1.crsize,0,len⟩)

/-- `_dpaio_write_some_post`, after `sub->post` -/
def writeSomePost (_ : Unit) (mem : Mem σ) (stm : Stm) (ret : Dpret) : Option (Mem σ × Stm × Dpret) :=
  if ret≤0 then some (mem,stm,if stm.total≥ stm.len then stm.total else ret)
  else
    let total := int32 (stm.total+ret)
    (rseek mem.1 mem.2 ret .cur).map fun x =>
      if total≥ stm.len then ((x.1,x.2.1),{stm with total := total},total)
      else ((x.1,x.2.1),{stm with total := total, pos := stm.pos+ret, ioLen := stm.ioLen-ret},dpeWait)

/-- `_dpaio_write_must_prep` -/
def writeMustPrep (_ : Unit) (len : CInt) (mem : Mem σ) : Option (Mem σ × (Dpret ⊕ Stm)) :=
  if (len : ℤ)≤0 then some (mem,.inl dpeInval) else some (mem,.inr ⟨mem.1.rbeg,len,0,len⟩)

/-- `_dpaio_write_must_post`, after `sub->post` -/
def writeMustPost (_ : Unit) (mem : Mem σ) (stm : Stm) (ret : Dpret) : Option (Mem σ × Stm × Dpret) :=
  if ret≤0 then some (mem,stm,if 0<stm.total then stm.total else ret)
  else
    let total := int32 (stm.total+ret)
    (rseek mem.1 mem.2 ret .cur).map fun x =>
      -- io.len is what was left before this post function
      if total≥ stm.ioLen then ((x.1,x.2.1),{stm with total := total},total)
      else ((x.1,x.2.1),{stm with total := total, pos := stm.pos+ret, ioLen := stm.ioLen-ret},dpeWait)

inductive Kind | some | must
  deriving DecidableEq

/-- dpaio_write_some -/
def dpaioWriteSome : Op Byte (Mem σ) CInt Stm Unit := ⟨writeSomePrep,Stm.ioLen,giveOut,writeSomePost⟩

/-- dpaio_write_must -/
def dpaioWriteMust : Op Byte (Mem σ) CInt Stm Unit := ⟨writeMustPrep,Stm.ioLen,giveOut,writeMustPost⟩

def writeOp : Kind → Op Byte (Mem σ) CInt Stm Unit
  | .some => dpaioWriteSome
  | .must => dpaioWriteMust

abbrev Over (σ : Type*) := Done Byte (Mem σ) CInt Stm Unit

def valid (mem : Mem σ) : Prop := Fits mem.1 mem.2 ∧ Block mem.2

/-- What the kernel has accepted is a front part of the readable window, and the read cursor has gone past it; a
write_must that has written something but not all has met an end or a failure. -/
structure Exact (kind : Kind) (d : Over σ) : Prop where
  front : d.moved<+:readable d.before.1 d.before.2
  cursor : d.after=({d.before.1 with rbeg := d.before.1.rbeg+d.moved.length},d.before.2)
  whole : kind=.must → 0<d.ret → d.ret<d.arg → ∃ l∈d.last,ends l.call

/-- A call returns 0 behind others of the same post function. -/
def lost (l : Last (Mem σ) Stm Unit) : Prop := l.call.res=0 ∧ 0<l.got

/-- The fd is full, after more than half of the request or at the first call of a later post function. -/
def early (l : Last (Mem σ) Stm Unit) : Prop :=
  l.call.res<0 ∧ l.call.errno=eagain ∧ if l.got=0 then 0<l.stm.total else l.stm.len≤2*l.stm.total+l.got

/-- Bytes behind the readable window have been written. -/
def beyond (d : Over σ) : Prop := d.before.1.crsize<d.moved.length

def slips (kind : Kind) (d : Over σ) : Prop := ∃ l∈d.last,lost l ∨ (kind=.must ∧ (early l ∨ beyond d))

/-- The request as the prep functions take it. -/
def Kind.request (kind : Kind) (b : Buf σ) (len : ℤ) : ℤ :=
  match kind with
  | .some => b.crsize
  | .must => len

/-- The read cursor has gone past so many bytes, if the window has them. -/
def Past (a : Mem σ) (n : ℤ) (b : Mem σ) : Prop :=
  ∃ rbeg,b=({a.1 with rbeg := rbeg},a.2) ∧ 0≤rbeg ∧ rbeg≤a.1.rend ∧ (a.1.rbeg+n≤a.1.rend → rbeg=a.1.rbeg+n)

structure Mid (kind : Kind) (w : CInt) (a b : Mem σ) (t : Stm) (y : List Byte) (m : ℤ) : Prop where
  valid : valid a
  len : t.len=w ∧ 0<(w : ℤ)
  pos : t.pos=a.1.rbeg+t.total
  ioLen : t.ioLen=kind.request a.1 w-t.total
  total : 0≤t.total ∧ t.total<w ∧ 0≤t.ioLen
  count : (y.length : ℤ)=t.total+m
  cursor : Past a t.total b
  front : y=seg a.2.data a.1.rbeg.toNat (a.1.rbeg.toNat+y.length) ∧ a.1.rbeg.toNat+y.length≤a.2.data.length

section Steps
variable {kind : Kind} {w : CInt} {a b b' : Mem σ} {x y : List Byte} {t t' : Stm} {m r r' : ℤ} {c : Call} {e : Unit}

theorem writeOp_ioLen : (writeOp (σ := σ) kind).ioLen=Stm.ioLen := by cases kind <;> rfl

theorem writeOp_move : (writeOp (σ := σ) kind).move=giveOut := by cases kind <;> rfl

theorem mid_move (h : Mid kind w a b t y m) (hu : giveOut b t m x=some b') : Mid kind w a b' t (y++x) (m+x.length) := by
  obtain ⟨z,hz,hu⟩ := Option.bind_eq_some_iff.mp hu
  split at hu
  · rename_i hzx
    cases hu
    subst hzx
    have hpos := h.pos
    have hcount := h.count
    have htotal := h.total.1
    have hrbeg := h.valid.1.rbeg
    obtain ⟨rbeg,hb,-,-,-⟩ := h.cursor
    have hdata : b.2=a.2 := by rw [hb]
    unfold Data.load at hz
    split at hz
    · rename_i hin
      have hz := Option.some.inj hz
      rw [hdata] at hin hz
      have hat : (t.pos+m).toNat=a.1.rbeg.toNat+y.length := by omega
      have hend : (t.pos+m+z.length).toNat=a.1.rbeg.toNat+(y++z).length := by
        rw [List.length_append]
        omega
      refine ⟨h.valid,h.len,h.pos,h.ioLen,h.total,?_,h.cursor,?_,?_⟩
      · rw [List.length_append]
        push_cast
        omega
      · rw [hat,hend] at hz
        rw [← seg_append (Nat.le_add_right _ y.length) (by rw [List.length_append]; omega),← h.front.1,hz]
      · rw [← hend]
        omega
    · cases hz
  · cases hu

theorem past_rseek {n : ℤ} (hv : valid a) (hn : 0≤n) (h0 : 0≤ m) (hb : Past a n b) :
    ∃ x,rseek b.1 b.2 m .cur=some x ∧ Past a (n+m) (x.1,x.2.1) := by
  obtain ⟨rbeg,rfl,-,-,hin⟩ := hb
  have h1 := hv.1.rbeg
  have hr := hv.1.rend
  have h2 := hv.1.wbeg
  have h3 := hv.1.size
  have h4 := hv.1.maxs
  have h5 := hv.2.int
  unfold intMax at h5
  obtain ⟨hlo,hhi⟩ := iclamp_le (v := wrap (rbeg+m)) (h1.trans hr)
  refine ⟨_,rfl,_,rfl,hlo,hhi,fun hle => ?_⟩
  have hrbeg := hin (by omega)
  have hwrap : wrap (rbeg+m)=rbeg+m := (wrap_cases _).2.2.1 (by omega) (by omega)
  change iclamp (wrap (rbeg+m)) 0 a.1.rend=a.1.rbeg+(n+m)
  rw [hwrap,iclamp_mid (by omega) (by omega)]
  omega

/-- What is promised of an operation that a call has ended. -/
theorem good_iff {n : ℤ} {l : Last (Mem σ) Stm Unit} (hv : valid a) (hn : n≤y.length) (hb : Past a n b)
    (hy : y=seg a.2.data a.1.rbeg.toNat (a.1.rbeg.toNat+y.length)) :
    (Exact kind ⟨w,a,y,r,b,some l⟩ ↔ ¬slips kind ⟨w,a,y,r,b,some l⟩) ↔
      (y.length≤a.1.rend-a.1.rbeg ∧ n=y.length ∧ (kind=.must → 0<r → r<w → ends l.call) ↔
        ¬(lost l ∨ kind=.must ∧ (early l ∨ a.1.rend-a.1.rbeg<y.length))) := by
  have h1 := hv.1.rbeg
  have h2 := hv.1.rend
  have hlen := length_readable hv.1 hv.2
  have hexact : Exact kind ⟨w,a,y,r,b,some l⟩ ↔
      y.length≤a.1.rend-a.1.rbeg ∧ n=y.length ∧ (kind=.must → 0<r → r<w → ends l.call) := by
    obtain ⟨rbeg,rfl,-,-,hin⟩ := hb
    constructor
    · intro h
      have hle : y.length≤a.1.rend-a.1.rbeg := by
        rw [← hlen]
        exact_mod_cast h.front.length_le
      have hcursor : rbeg=a.1.rbeg+y.length := congrArg (fun b => b.1.rbeg) h.cursor
      refine ⟨hle,?_,fun hk h0 hr => ?_⟩
      · have := hin (by omega)
        omega
      · obtain ⟨l',hl,hends⟩ := h.whole hk h0 hr
        cases hl
        exact hends
    · rintro ⟨hle,hcount,hwhole⟩
      refine ⟨?_,?_,fun hk h0 hr => ⟨l,rfl,hwhole hk h0 hr⟩⟩
      · change y<+:readable a.1 a.2
        have hfront : (readable a.1 a.2).take y.length=y := by
          rw [readable,take_seg (by omega)]
          exact hy.symm
        rw [← hfront]
        exact List.take_prefix ..
      · rw [hin (by omega),hcount]
  have hslips : slips kind ⟨w,a,y,r,b,some l⟩ ↔ lost l ∨ kind=.must ∧ (early l ∨ a.1.rend-a.1.rbeg<y.length) := by
    constructor
    · rintro ⟨l',hl,h⟩
      cases hl
      exact h
    · exact fun h => ⟨l,rfl,h⟩
  rw [hexact,hslips]

/-- An operation is over. -/
def good (kind : Kind) (d : Over σ) : Prop := Exact kind d ↔ ¬slips kind d

theorem prep_good (hv : valid b) (hu : (writeOp kind).prep e w b=some (b',.inl r)) :
    valid b' ∧ good kind ⟨w,b,[],r,b',none⟩ := by
  have hb : b'=b ∧ r=dpeInval := by
    cases kind <;> simp only [writeOp,dpaioWriteSome,dpaioWriteMust,writeSomePrep,writeMustPrep] at hu <;> split at hu <;>
      cases hu
    all_goals exact ⟨rfl,rfl⟩
  obtain ⟨rfl,rfl⟩ := hb
  refine ⟨hv,iff_of_true ⟨List.nil_prefix,?_,fun _ (hpos : 0<dpeInval) => absurd hpos (by decide)⟩ ?_⟩
  · simp
  · rintro ⟨l,hl,-⟩
    cases hl

theorem prep_mid (hv : valid b) (hu : (writeOp kind).prep e w b=some (b',.inr t)) : Mid kind w b b' t [] 0 := by
  have hb : b'=b ∧ t=⟨b.1.rbeg,kind.request b.1 w,0,w⟩ ∧ 0<(w : ℤ) := by
    cases kind <;> simp only [writeOp,dpaioWriteSome,dpaioWriteMust,writeSomePrep,writeMustPrep] at hu <;> split at hu <;>
      cases hu
    all_goals
      rename_i hpos
      exact ⟨rfl,rfl,not_le.mp hpos⟩
  obtain ⟨rfl,rfl,hpos⟩ := hb
  have h1 := hv.1.rbeg
  have h2 := hv.1.rend
  have h3 := hv.1.wbeg
  have h4 := hv.1.size
  have h5 := hv.1.maxs
  have h6 := hv.2.room
  have hrequest : 0≤kind.request b'.1 w := by
    cases kind with
    | some =>
      change 0≤b'.1.rend-b'.1.rbeg
      omega
    | must => exact hpos.le
  refine ⟨hv,⟨rfl,hpos⟩,?_,?_,⟨le_rfl,hpos,hrequest⟩,rfl,⟨b'.1.rbeg,rfl,h1,h2,fun _ => ?_⟩,?_,?_⟩
  · exact (Int.add_zero _).symm
  · exact (Int.sub_zero _).symm
  · exact (Int.add_zero _).symm
  · simp
  · simp only [List.length_nil]
    omega

theorem size_mid (h : Mid kind w a b t y m) : 0≤t.ioLen ∧ t.ioLen<2^31 := by
  have hio := h.ioLen
  have htotal := h.total
  have h1 := h.valid.1.rbeg
  have h3 := h.valid.1.wbeg
  have h4 := h.valid.1.size
  have h5 := h.valid.1.maxs
  have h6 := h.valid.2.int
  have h7 := w.2.2
  unfold intMax at h6
  refine ⟨htotal.2.2,?_⟩
  cases kind with
  | some =>
    simp only [Kind.request,Buf.crsize] at hio
    omega
  | must =>
    simp only [Kind.request] at hio
    omega

/-- The operation goes on behind what has been accepted. -/
theorem next_mid (h : Mid kind w a b t y m) (hm : m≤t.ioLen) (hlt : t.total+m<w) (hb : Past a (t.total+m) b') :
    Mid kind w a b' {t with total := t.total+m, pos := t.pos+m, ioLen := t.ioLen-m} y 0 := by
  have hpos := h.pos
  have hio := h.ioLen
  have hcount := h.count
  have htotal := h.total.1
  refine ⟨h.valid,h.len,?_,?_,⟨?_,hlt,?_⟩,?_,hb,h.front⟩
  all_goals simp only
  all_goals omega

theorem valid_past {n : ℤ} (hv : valid a) (hb : Past a n b) : valid b := by
  obtain ⟨rbeg,rfl,hlo,hhi,-⟩ := hb
  exact ⟨⟨hlo,hhi,hv.1.wbeg,hv.1.size,hv.1.maxs⟩,hv.2⟩

theorem crsize_int (hv : valid a) : a.1.rend-a.1.rbeg≤2147483647 := by
  have h1 := hv.1.rbeg
  have h3 := hv.1.wbeg
  have h4 := hv.1.size
  have h5 := hv.1.maxs
  have h6 := hv.2.int
  unfold intMax at h6
  omega

theorem some_post (h : Mid .some w a b t y m) (h0 : 0≤ m) (hm : m≤t.ioLen) (ho : Outcome t.ioLen m c r)
    (hu : writeSomePost e b t r=some (b',t',r')) :
    if r'=dpeWait then Mid .some w a b' t' y 0 else valid b' ∧ good .some ⟨w,a,y,r',b',some ⟨b,t,m,c,e⟩⟩ := by
  have hio : t.ioLen=a.1.rend-a.1.rbeg-t.total := h.ioLen
  have htotal := h.total
  have hcount := h.count
  have hlen := h.len
  have hint := crsize_int h.valid
  -- nothing more is accepted
  have hnone : r≤0 → r'=r ∧ b'=b ∧ t'=t := by
    intro hr
    unfold writeSomePost at hu
    rw [if_pos hr,if_neg (by omega)] at hu
    cases hu
    exact ⟨rfl,rfl,rfl⟩
  have hgot : r=m → 0< m → c.res≠0 →
      if r'=dpeWait then Mid .some w a b' t' y 0 else valid b' ∧ good .some ⟨w,a,y,r',b',some ⟨b,t,m,c,e⟩⟩ := by
    rintro rfl hpos hc
    obtain ⟨x,hx,hpast⟩ := past_rseek h.valid htotal.1 h0 h.cursor
    unfold writeSomePost at hu
    rw [if_neg (not_le.mpr hpos),hx,int32_eq (by omega) (by omega)] at hu
    simp only [Option.map_some] at hu
    split at hu
    · rename_i hge
      cases hu
      have hne : t.total+r≠dpeWait := by
        unfold dpeWait
        omega
      rw [if_neg hne]
      refine ⟨valid_past h.valid hpast,?_⟩
      refine (good_iff h.valid (by omega) hpast h.front.1).mpr (iff_of_true ⟨by omega,by omega,fun hk => by cases hk⟩ ?_)
      rintro (⟨hz,-⟩ | ⟨hk,-⟩)
      · exact hc hz
      · cases hk
    · rename_i hge
      cases hu
      rw [if_pos rfl]
      exact next_mid h hm (by omega) hpast
  cases ho with
  | full hc hm' hpos => exact hgot rfl hpos hc.ne'
  | short hc hm' _ => exact hgot rfl hm' hc.ne
  | eof hc =>
    obtain ⟨rfl,rfl,rfl⟩ := hnone (by decide)
    rw [if_neg (by decide)]
    refine ⟨valid_past h.valid h.cursor,(good_iff h.valid (by omega) h.cursor h.front.1).mpr ?_⟩
    constructor
    · rintro ⟨-,hall,-⟩ (⟨-,hgot⟩ | ⟨hk,-⟩)
      · simp only at hgot
        omega
      · cases hk
    · intro hno
      have hm0 : ¬0< m := fun hgot => hno (.inl ⟨hc,hgot⟩)
      exact ⟨by omega,by omega,fun hk => by cases hk⟩
  | fail hc hm' he =>
    obtain ⟨rfl,rfl,rfl⟩ := hnone (by omega)
    subst hm'
    split
    · exact ⟨h.valid,h.len,h.pos,h.ioLen,h.total,h.count,h.cursor,h.front⟩
    · refine ⟨valid_past h.valid h.cursor,?_⟩
      refine (good_iff h.valid (by omega) h.cursor h.front.1).mpr (iff_of_true ⟨by omega,by omega,fun hk => by cases hk⟩ ?_)
      rintro (⟨hz,-⟩ | ⟨hk,-⟩)
      · exact hc.ne hz
      · cases hk

theorem must_post (h : Mid .must w a b t y m) (h0 : 0≤ m) (hm : m≤t.ioLen) (ho : Outcome t.ioLen m c r)
    (hu : writeMustPost e b t r=some (b',t',r')) :
    if r'=dpeWait then Mid .must w a b' t' y 0 else valid b' ∧ good .must ⟨w,a,y,r',b',some ⟨b,t,m,c,e⟩⟩ := by
  have hio : t.ioLen=w-t.total := h.ioLen
  have htotal := h.total
  have hcount := h.count
  have hlen := h.len
  have hint := w.2.2
  -- nothing more is accepted
  have hnone : r≤0 → r'=(if 0<t.total then t.total else r) ∧ b'=b ∧ t'=t := by
    intro hr
    unfold writeMustPost at hu
    rw [if_pos hr] at hu
    cases hu
    exact ⟨rfl,rfl,rfl⟩
  have hgot : r=m → 0< m → (0<c.res ∧ m=t.ioLen ∨ c.res<0 ∧ m<t.ioLen) →
      if r'=dpeWait then Mid .must w a b' t' y 0 else valid b' ∧ good .must ⟨w,a,y,r',b',some ⟨b,t,m,c,e⟩⟩ := by
    rintro rfl hpos hc
    obtain ⟨x,hx,hpast⟩ := past_rseek h.valid htotal.1 h0 h.cursor
    unfold writeMustPost at hu
    rw [if_neg (not_le.mpr hpos),hx,int32_eq (by omega) (by omega)] at hu
    simp only [Option.map_some] at hu
    split at hu
    · rename_i hge
      cases hu
      have hne : t.total+r≠dpeWait := by
        unfold dpeWait
        omega
      rw [if_neg hne]
      refine ⟨valid_past h.valid hpast,(good_iff h.valid (by omega) hpast h.front.1).mpr ?_⟩
      simp only [lost,early,ends,true_and,forall_const]
      rw [if_neg hpos.ne']
      omega
    · rename_i hge
      cases hu
      rw [if_pos rfl]
      exact next_mid h hm (by omega) hpast
  cases ho with
  | full hc hm' hpos => exact hgot rfl hpos (.inl ⟨hc,hm'⟩)
  | short hc hm' hlt => exact hgot rfl hm' (.inr ⟨hc,hlt⟩)
  | eof hc =>
    obtain ⟨rfl,rfl,rfl⟩ := hnone (by decide)
    have hne : (if 0<t'.total then t'.total else dpeEof)≠dpeWait := by
      unfold dpeEof dpeWait
      split <;> omega
    rw [if_neg hne]
    refine ⟨valid_past h.valid h.cursor,(good_iff h.valid (by omega) h.cursor h.front.1).mpr ?_⟩
    have hends : ends c := .inl hc
    have hearly : ¬early (⟨b',t',m,c,e⟩ : Last (Mem σ) Stm Unit) := fun hx => hx.1.ne hc
    simp only [lost,hc,hends,hearly,true_and,forall_const,false_or,implies_true,and_true]
    omega
  | fail hc hm' he =>
    obtain ⟨rfl,rfl,rfl⟩ := hnone (by omega)
    subst hm'
    by_cases hw : (if 0<t'.total then t'.total else -(c.errno : ℤ))=dpeWait
    · rw [if_pos hw]
      exact ⟨h.valid,h.len,h.pos,h.ioLen,h.total,h.count,h.cursor,h.front⟩
    · rw [if_neg hw]
      refine ⟨valid_past h.valid h.cursor,(good_iff h.valid (by omega) h.cursor h.front.1).mpr ?_⟩
      unfold dpeWait at hw
      simp only [lost,early,ends,eagain,true_and,forall_const,↓reduceIte]
      split at hw <;> rename_i htot
      · rw [if_pos htot]
        omega
      · rw [if_neg htot]
        omega

theorem write_spec : Spec (writeOp (σ := σ) kind) valid (Mid kind) (good kind) where
  prep hv hu := prep_good hv hu
  start hv hu := prep_mid hv hu
  size h := by
    rw [writeOp_ioLen]
    exact size_mid h
  move h _ _ hu := by
    rw [writeOp_move] at hu
    exact mid_move h hu
  post h h0 hm ho hu := by
    cases kind with
    | some => exact some_post h h0 hm ho hu
    | must => exact must_post h h0 hm ho hu

end Steps

theorem aio_write {kind : Kind} {mem : Mem σ} {s : Sys Byte (Mem σ) CInt Stm Unit} (hv : valid mem)
    (h : Reach (step (writeOp kind)) (proper valid) (start mem) s) : ∀ d∈ s.done,Exact kind d ↔ ¬slips kind d :=
  (run_inv write_spec hv h).done

def six : Mem Unit := ({data := (), rend := 6, wbeg := 6, size := 8},{data := [1,2,3,4,5,6,0,0,0], maxs := 8})

theorem six_valid : valid six :=
  ⟨⟨by decide,by decide,by decide,by decide,by decide⟩,⟨by decide,by decide⟩⟩

/-- The fd takes four of the bytes, then the others. -/
def rest : List (Act Byte (Mem Unit) CInt Unit) :=
  [.add 6 (),.post,.call ⟨4,0⟩ [1,2,3,4] (),.call ⟨-1,eagain⟩ [] (),.post,.call ⟨2,0⟩ [5,6] ()]

theorem aio_write_rest : ∃ d : Over Unit,d.ret=6 ∧ d.moved=[1,2,3,4,5,6] ∧ Exact .must d := by
  have hrun : (exec (step dpaioWriteMust) (start six) rest).any (fun s => s.done.any fun d =>
      decide (d.ret=6 ∧ d.moved=[1,2,3,4,5,6] ∧ d.before.1.crsize=6) && d.last.all fun l => decide (l.call.res=2))=true := by
    decide +kernel
  obtain ⟨s,hs,hend⟩ := (Option.any_eq_true _ _).mp hrun
  obtain ⟨d,hd,hend⟩ := List.any_eq_true.mp hend
  obtain ⟨hend,hlast⟩ := Bool.and_eq_true_iff.mp hend
  obtain ⟨hret,hmoved,hsize⟩ := of_decide_eq_true hend
  have hreach : Reach (step (writeOp .must)) (proper valid) (start six) s := exec_proper (by decide) hs
  refine ⟨d,hret,hmoved,(aio_write six_valid hreach d hd).mpr ?_⟩
  rintro ⟨l,hl,hslip⟩
  have hres := of_decide_eq_true ((Option.all_eq_true _ _).mp hlast l hl)
  rcases hslip with ⟨hz,-⟩ | ⟨-,⟨hneg,-⟩ | hbeyond⟩
  · omega
  · omega
  · rw [beyond,hsize,hmoved] at hbeyond
    exact absurd hbeyond (by decide)

/-- The fd takes four of the bytes, then one. -/
def one : List (Act Byte (Mem Unit) CInt Unit) :=
  [.add 6 (),.post,.call ⟨4,0⟩ [1,2,3,4] (),.call ⟨-1,eagain⟩ [] (),.post,.call ⟨1,0⟩ [5] (),
    .call ⟨-1,eagain⟩ [] ()]

theorem aio_write_one : ¬∀ (kind : Kind) (mem : Mem Unit) (s : Sys Byte (Mem Unit) CInt Stm Unit),valid mem →
    Reach (step (writeOp kind)) (proper valid) (start mem) s → ∀ d∈ s.done,Exact kind d := by
  intro hall
  have hrun : (exec (step dpaioWriteMust) (start six) one).any (fun s => s.done.any fun d =>
      decide (d.ret=5 ∧ (d.arg : ℤ)=6) && d.last.all fun l => decide (¬ends l.call))=true := by decide +kernel
  obtain ⟨s,hs,hend⟩ := (Option.any_eq_true _ _).mp hrun
  obtain ⟨d,hd,hend⟩ := List.any_eq_true.mp hend
  obtain ⟨hend,hlast⟩ := Bool.and_eq_true_iff.mp hend
  obtain ⟨hret,harg⟩ := of_decide_eq_true hend
  have hexact := hall .must six s six_valid (exec_proper (by decide) hs) d hd
  obtain ⟨l,hl,hends⟩ := hexact.whole rfl (by rw [hret]; decide) (by rw [hret,harg]; decide)
  exact of_decide_eq_true ((Option.all_eq_true _ _).mp hlast l hl) hends

end Dpapp.AioWrite
