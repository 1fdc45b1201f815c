import Dpapp.AioOp
import Dpapp.ReadMust

/-! # Reading and writing so many bytes of plain memory (dpasc.c)

`dpaio_read_data` and `dpaio_write_data` on an EFD. -/

set_option linter.unusedSectionVars false

namespace Dpapp.AioData
open Dpapp.Machine Dpapp.Ret Dpapp.Segment Dpapp.AioOp
open Dpapp.Dpbuf (CInt)
open Dpapp.StreamIo (Call Dir int32 int32_eq)
open Dpapp.ReadMust (Stm)

def eagain : ℕ := 11

variable {α : Type*} [DecidableEq α]

/-- The arguments; a null pointer is 0. -/
structure Arg where
  buf : ℕ
  len : CInt

/-- The prep function of read, recv2, write or send2, and the rest of that of read_data or write_data. -/
def dataPrep (_ : Unit) (w : Arg) (mem : List α) : Option (List α × (Dpret ⊕ Stm)) :=
  if w.buf=0 ∨ (w.len : ℤ)≤0 then some (mem,.inl dpeInval) else some (mem,.inr ⟨w.buf,w.len,0,w.len⟩)

/-- What follows `sub->post`. -/
def dataPost (_ : Unit) (mem : List α) (stm : Stm) (ret : Dpret) : Option (List α × Stm × Dpret) :=
  if ret≤0 then some (mem,stm,if 0<stm.total then stm.total else ret)
  else
    let total := int32 (stm.total+ret)
    if total≥ stm.len then some (mem,{stm with total := total},total)
    else some (mem,{stm with total := total, pos := stm.pos+ret, ioLen := stm.ioLen-ret},dpeWait)

/-- A read or recv at `buf + off`. -/
def takeIn (mem : List α) (stm : Stm) (off : ℤ) (x : List α) : Option (List α) :=
  if 0≤ stm.pos+off ∧ stm.pos+off+x.length≤ mem.length then some (put mem (stm.pos+off).toNat x) else none

/-- A write or send from there. -/
def giveOut (mem : List α) (stm : Stm) (off : ℤ) (x : List α) : Option (List α) :=
  if 0≤ stm.pos+off ∧ stm.pos+off+x.length≤ mem.length ∧
      seg mem (stm.pos+off).toNat ((stm.pos+off).toNat+x.length)=x then some mem
  else none

/-- dpaio_read_data -/
def dpaioReadData : Op α (List α) Arg Stm Unit := ⟨dataPrep,Stm.ioLen,takeIn,dataPost⟩

/-- dpaio_write_data -/
def dpaioWriteData : Op α (List α) Arg Stm Unit := ⟨dataPrep,Stm.ioLen,giveOut,dataPost⟩

def dataOp : Dir → Op α (List α) Arg Stm Unit
  | .inp => dpaioReadData
  | .out => dpaioWriteData

abbrev Over (α : Type*) := Done α (List α) Arg Stm Unit

/-- The bytes lie in their order from `p` on, and the rest of the memory is as it was. -/
def Placed (dir : Dir) (p : ℕ) (a b y : List α) : Prop :=
  match dir with
  | .inp => b=put a p y
  | .out => b=a ∧ y=seg a p (p+y.length)

/-- The connection has ended or failed. -/
def ends (c : Call) : Prop := c.res=0 ∨ c.res<0 ∧ c.errno≠eagain

instance (c : Call) : Decidable (ends c) := inferInstanceAs (Decidable (_ ∨ _))

/-- What an operation promises that is over: all of the bytes, or those before an end of file or an error. -/
structure Exact (dir : Dir) (d : Over α) : Prop where
  placed : Placed dir d.arg.buf d.before d.after d.moved
  count : d.ret=d.arg.len ∧ d.moved.length=(d.arg.len : ℤ) ∨
    (d.ret=d.moved.length ∧ 0<d.ret ∧ d.ret<d.arg.len ∨ d.ret<0 ∧ d.moved=[]) ∧ ∃ l∈d.last,ends l.call

/-- A call returns 0 behind others of the same post function, or the first call of a later one finds nothing. -/
def slips (d : Over α) : Prop :=
  ∃ l∈d.last,(l.call.res=0 ∧ 0<l.got) ∨ (l.call.res<0 ∧ l.call.errno=eagain ∧ l.got=0 ∧ 0<l.stm.total)

/-- An operation goes on: these bytes have been moved, `m` of them by the post function that runs. -/
structure Mid (dir : Dir) (w : Arg) (a b : List α) (t : Stm) (y : List α) (m : ℤ) : Prop where
  arg : w.buf≠0
  len : t.len=w.len
  pos : t.pos=w.buf+t.total
  ioLen : t.ioLen=w.len-t.total
  total : 0≤t.total ∧ t.total<w.len
  count : (y.length : ℤ)=t.total+m
  placed : Placed dir w.buf a b y
  room : y=[] ∨ w.buf+y.length≤a.length

section Steps
variable {dir : Dir} {w : Arg} {a b b' x y : List α} {t t' : Stm} {m r r' : ℤ} {c : Call} {e : Unit}

theorem move_some (hu : (dataOp dir).move b t m x=some b') : t.pos+m+x.length≤b.length ∧
    match dir with
    | .inp => b'=put b (t.pos+m).toNat x
    | .out => b'=b ∧ seg b (t.pos+m).toNat ((t.pos+m).toNat+x.length)=x := by
  cases dir with
  | inp =>
    simp only [dataOp,dpaioReadData,takeIn] at hu
    split at hu
    · rename_i hin
      cases hu
      exact ⟨hin.2,rfl⟩
    · cases hu
  | out =>
    simp only [dataOp,dpaioWriteData,giveOut] at hu
    split at hu
    · rename_i hin
      cases hu
      exact ⟨hin.2.1,rfl,hin.2.2⟩
    · cases hu

theorem length_placed (h : Placed dir w.buf a b y) (hroom : y=[] ∨ w.buf+y.length≤a.length) : b.length=a.length := by
  cases dir with
  | inp =>
    rw [show b=put a w.buf y from h]
    rcases hroom with hnil | hroom
    · subst hnil
      simp [put]
    · exact length_put hroom
  | out => rw [(show b=a ∧ _ from h).1]

theorem mid_move (h : Mid dir w a b t y m) (hu : (dataOp dir).move b t m x=some b') :
    Mid dir w a b' t (y++x) (m+x.length) := by
  obtain ⟨hin,hmove⟩ := move_some hu
  have hpos := h.pos
  have hcount := h.count
  have hat : (t.pos+m).toNat=w.buf+y.length := by
    have := h.total.1
    omega
  have hlen : ((y++x).length : ℤ)=t.total+(m+x.length) := by
    rw [List.length_append]
    push_cast
    omega
  have hroom : w.buf+(y++x).length≤a.length := by
    rw [← length_placed h.placed h.room]
    omega
  refine ⟨h.arg,h.len,h.pos,h.ioLen,h.total,hlen,?_,.inr hroom⟩
  rw [hat] at hmove
  cases dir with
  | inp =>
    have hb : b=put a w.buf y := h.placed
    change b'=put a w.buf (y++x)
    rw [show b'=put b _ x from hmove,hb]
    refine put_put ?_
    rw [List.length_append] at hroom
    omega
  | out =>
    obtain ⟨hb,hy⟩ : b=a ∧ y=seg a w.buf (w.buf+y.length) := h.placed
    obtain ⟨hb',hx⟩ := hmove
    subst hb
    refine ⟨hb',?_⟩
    rw [List.length_append,← Nat.add_assoc,← seg_append (Nat.le_add_right w.buf y.length) (Nat.le_add_right _ x.length),
      hx,← hy]

/-- The operation is over once `r` is all of the bytes, or what an end or a failure leaves. -/
def good (dir : Dir) (d : Over α) : Prop := d.arg.buf≠0 → 0<(d.arg.len : ℤ) → (Exact dir d ↔ ¬slips d)

theorem prep_good (hu : (dataOp dir).prep e w b=some (b',.inl r)) : good dir ⟨w,b,[],r,b',none⟩ := by
  intro hbuf hlen
  cases dir <;> simp only [dataOp,dpaioReadData,dpaioWriteData,dataPrep] at hu <;> split at hu <;> cases hu
  all_goals
    rename_i hno
    rcases hno with hno | hno
    · exact absurd hno hbuf
    · exact absurd hlen (not_lt.mpr hno)

theorem prep_mid (hu : (dataOp dir).prep e w b=some (b',.inr t)) : Mid dir w b b' t [] 0 := by
  have h : dataPrep () w b=some (b',.inr t) := by
    cases dir <;> exact hu
  unfold dataPrep at h
  split at h
  · cases h
  · rename_i hok
    cases h
    obtain ⟨hbuf,hlen⟩ := not_or.mp hok
    refine ⟨hbuf,rfl,?_,?_,⟨le_rfl,not_le.mp hlen⟩,rfl,?_,.inl rfl⟩
    · exact (Int.add_zero _).symm
    · exact (Int.sub_zero _).symm
    · cases dir with
      | inp => simp [Placed,put]
      | out => simp [Placed]

theorem size_mid (h : Mid dir w a b t y m) : 0≤t.ioLen ∧ t.ioLen<2^31 := by
  have := h.ioLen
  have := h.total
  have := w.len.2.2
  omega

/-- What is promised of an operation that a call has ended. -/
theorem good_iff {l : Last (List α) Stm Unit} (hp : Placed dir w.buf a b y) :
    (Exact dir ⟨w,a,y,r,b,some l⟩ ↔ ¬slips (⟨w,a,y,r,b,some l⟩ : Over α)) ↔
      ((r=w.len ∧ y.length=(w.len : ℤ) ∨ (r=y.length ∧ 0<r ∧ r<w.len ∨ r<0 ∧ y.length=0) ∧
        (l.call.res=0 ∨ l.call.res<0 ∧ l.call.errno≠eagain)) ↔
      ¬(l.call.res=0 ∧ 0<l.got ∨ l.call.res<0 ∧ l.call.errno=eagain ∧ l.got=0 ∧ 0<l.stm.total)) := by
  have hexact : Exact dir ⟨w,a,y,r,b,some l⟩ ↔ r=w.len ∧ y.length=(w.len : ℤ) ∨
      (r=y.length ∧ 0<r ∧ r<w.len ∨ r<0 ∧ y.length=0) ∧ (l.call.res=0 ∨ l.call.res<0 ∧ l.call.errno≠eagain) := by
    rw [List.length_eq_zero_iff]
    constructor
    · intro h
      rcases h.count with hall | ⟨hpart,l',hl,hends⟩
      · exact .inl hall
      · cases hl
        exact .inr ⟨hpart,hends⟩
    · rintro (hall | ⟨hpart,hends⟩)
      · exact ⟨hp,.inl hall⟩
      · exact ⟨hp,.inr ⟨hpart,l,rfl,hends⟩⟩
  have hslips : slips (⟨w,a,y,r,b,some l⟩ : Over α) ↔
      l.call.res=0 ∧ 0<l.got ∨ l.call.res<0 ∧ l.call.errno=eagain ∧ l.got=0 ∧ 0<l.stm.total := by
    constructor
    · rintro ⟨l',hl,h⟩
      cases hl
      exact h
    · exact fun h => ⟨l,rfl,h⟩
  rw [hexact,hslips]

/-- The operation goes on with the rest, or ends. -/
theorem post_mid (h : Mid dir w a b t y m) (h0 : 0≤ m) (hm : m≤t.ioLen) (ho : Outcome t.ioLen m c r)
    (hu : dataPost e b t r=some (b',t',r')) :
    if r'=dpeWait then Mid dir w a b' t' y 0 else good dir ⟨w,a,y,r',b',some ⟨b,t,m,c,e⟩⟩ := by
  obtain ⟨harg,hlen,hpos,hio,⟨htotal,hlt⟩,hcount,hplaced,hroom⟩ := h
  have hint := w.len.2.2
  -- what is got is counted
  have hgot : r=m → 0< m → 0<c.res ∨ c.res<0 →
      if r'=dpeWait then Mid dir w a b' t' y 0 else good dir ⟨w,a,y,r',b',some ⟨b,t,m,c,e⟩⟩ := by
    rintro rfl hpos' hc
    unfold dataPost at hu
    rw [if_neg (not_le.mpr hpos'),int32_eq (by omega) (by omega)] at hu
    simp only at hu
    split at hu
    · rename_i hge
      cases hu
      have hne : t.total+r≠dpeWait := by
        unfold dpeWait
        omega
      rw [if_neg hne]
      intro _ _
      rw [good_iff hplaced]
      simp only
      omega
    · rename_i hge
      cases hu
      rw [if_pos rfl]
      refine ⟨harg,hlen,?_,?_,⟨?_,?_⟩,?_,hplaced,hroom⟩
      all_goals simp only
      all_goals omega
  cases ho with
  | full hc hm' hpos' => exact hgot rfl hpos' (.inl hc)
  | short hc hm' _ => exact hgot rfl hm' (.inr hc)
  | eof hc =>
    unfold dataPost at hu
    rw [if_pos (by decide)] at hu
    cases hu
    have hne : (if 0<t.total then t.total else dpeEof)≠dpeWait := by
      unfold dpeEof dpeWait
      split <;> omega
    rw [if_neg hne]
    intro _ _
    rw [good_iff hplaced]
    unfold dpeEof
    simp only
    split <;> omega
  | fail hc hm' he =>
    have hneg : -(c.errno : ℤ)≤0 := by omega
    unfold dataPost at hu
    rw [if_pos hneg] at hu
    cases hu
    subst hm'
    by_cases hw : (if 0<t.total then t.total else -(c.errno : ℤ))=dpeWait
    · rw [if_pos hw]
      exact ⟨harg,hlen,hpos,hio,⟨htotal,hlt⟩,hcount,hplaced,hroom⟩
    · rw [if_neg hw]
      intro _ _
      rw [good_iff hplaced]
      unfold dpeWait at hw
      unfold eagain
      simp only [true_and]
      split at hw <;> rename_i htot
      · rw [if_pos htot]
        omega
      · rw [if_neg htot]
        omega

theorem dataOp_ioLen : (dataOp (α := α) dir).ioLen=Stm.ioLen := by cases dir <;> rfl

theorem dataOp_post : (dataOp (α := α) dir).post=dataPost := by cases dir <;> rfl

theorem data_spec : Spec (dataOp dir) (fun _ : List α => True) (Mid dir) (good dir) where
  prep _ hu := ⟨trivial,prep_good hu⟩
  start _ hu := prep_mid hu
  size h := by
    rw [dataOp_ioLen]
    exact size_mid h
  move h _ _ hu := mid_move h hu
  post h h0 hm ho hu := by
    rw [dataOp_ioLen] at hm ho
    rw [dataOp_post] at hu
    have hend := post_mid h h0 hm ho hu
    split
    · rename_i hw
      rwa [if_pos hw] at hend
    · rename_i hw
      rw [if_neg hw] at hend
      exact ⟨trivial,hend⟩

end Steps

theorem aio_data {dir : Dir} {mem : List α} {s : Sys α (List α) Arg Stm Unit}
    (h : Reach (step (dataOp dir)) (proper fun _ => True) (start mem) s) :
    (∀ d∈ s.done,d.arg.buf≠0 → 0<(d.arg.len : ℤ) → (Exact dir d ↔ ¬slips d)) ∧
      ∀ p,s.pend=some p → Placed dir p.arg.buf p.before s.mem p.moved ∧ (p.run=none → p.moved.length<(p.arg.len : ℤ)) := by
  have hinv := run_inv data_spec trivial h
  refine ⟨hinv.done,fun p hp => ?_⟩
  obtain ⟨hmid,-⟩ := hinv.pend p hp
  refine ⟨hmid.placed,fun hrun => ?_⟩
  have hcount := hmid.count
  have htotal := hmid.total
  rw [hrun] at hcount
  simp only [Option.getD_none,add_zero] at hcount
  omega

def memory : List UInt8 := [0,0,0,0,0,0]

/-- Four bytes come in two pieces. -/
def pieces : List (Act UInt8 (List UInt8) Arg Unit) :=
  [.add ⟨1,4⟩ (),.post,.call ⟨2,0⟩ [7,8] (),.call ⟨-1,eagain⟩ [] (),.post,.call ⟨2,0⟩ [9,10] ()]

theorem aio_data_pieces :
    ∃ d : Over UInt8,d.after=[0,7,8,9,10,0] ∧ d.ret=4 ∧ Exact .inp d := by
  have hrun : (exec (step dpaioReadData) (start memory) pieces).any (fun s => s.done.any fun d =>
      decide (d.arg.buf=1 ∧ (d.arg.len : ℤ)=4 ∧ d.after=[0,7,8,9,10,0] ∧ d.ret=4) &&
        d.last.all fun l => decide (l.call.res=2))=true := by decide +kernel
  obtain ⟨s,hs,hend⟩ := (Option.any_eq_true _ _).mp hrun
  obtain ⟨d,hd,hend⟩ := List.any_eq_true.mp hend
  obtain ⟨hend,hlast⟩ := Bool.and_eq_true_iff.mp hend
  obtain ⟨hbuf,hlen,hafter,hret⟩ := of_decide_eq_true hend
  have hreach : Reach (step (dataOp .inp)) (proper fun _ => True) (start memory) s :=
    (exec_reach hs).mono fun _ _ _ => proper_any
  refine ⟨d,hafter,hret,((aio_data hreach).1 d hd (by omega) (by omega)).mpr ?_⟩
  rintro ⟨l,hl,hslip⟩
  have hres := of_decide_eq_true ((Option.all_eq_true _ _).mp hlast l hl)
  omega

/-- The element is woken although nothing has come. -/
def woken : List (Act UInt8 (List UInt8) Arg Unit) :=
  [.add ⟨1,4⟩ (),.post,.call ⟨2,0⟩ [7,8] (),.call ⟨-1,eagain⟩ [] (),.post,.call ⟨-1,eagain⟩ [] ()]

theorem aio_data_woken : ¬∀ (dir : Dir) (mem : List UInt8) (s : Sys UInt8 (List UInt8) Arg Stm Unit),
    Reach (step (dataOp dir)) (proper fun _ => True) (start mem) s →
      ∀ d∈ s.done,d.arg.buf≠0 → 0<(d.arg.len : ℤ) → Exact dir d := by
  intro hall
  have hrun : (exec (step dpaioReadData) (start memory) woken).any (fun s => s.done.any fun d =>
      decide (d.arg.buf=1 ∧ (d.arg.len : ℤ)=4 ∧ d.ret=2) && d.last.all fun l => decide (¬ends l.call))=true := by
    decide +kernel
  obtain ⟨s,hs,hend⟩ := (Option.any_eq_true _ _).mp hrun
  obtain ⟨d,hd,hend⟩ := List.any_eq_true.mp hend
  obtain ⟨hend,hlast⟩ := Bool.and_eq_true_iff.mp hend
  obtain ⟨hbuf,hlen,hret⟩ := of_decide_eq_true hend
  have hexact := hall .inp memory s ((exec_reach hs).mono fun _ _ _ => proper_any) d hd (by omega) (by omega)
  rcases hexact.count with ⟨heq,-⟩ | ⟨-,l,hl,hends⟩
  · exact absurd (heq.symm.trans hret) (by rw [hlen]; decide)
  · exact of_decide_eq_true ((Option.all_eq_true _ _).mp hlast l hl) hends

end Dpapp.AioData
