import Dpapp.AioRead

/-! # Reading up to a delimiter (dpasc.c)

`dpaio_read_until` on an EFD. -/

set_option linter.unusedSectionVars false

namespace Dpapp.AioReadUntil
open Dpapp.Machine Dpapp.Ret Dpapp.Segment Dpapp.DpbufSpec Dpapp.AioOp Dpapp.AioRead
open Dpapp.Dpbuf (Byte Buf Data CInt intMax wrap bytes cfind wseek eseek resizew)
open Dpapp.StreamIo (Call int32 int32_eq)
open Dpapp.ReadMust (dpeNomem iclamp_mid)
open Dpapp.AioWrite (Mem valid)

variable {σ : Type*}

/-- The arguments; `until_` is what the pointer leads to. -/
structure Arg where
  until_ : Option (List Byte)
  untilLen : CInt
  maxLen : CInt

/-- `_dpaio_stm_t`; `flag` is io.flag, how much has been searched. -/
structure Stm where
  pos : ℤ
  ioLen : ℤ
  total : ℤ
  len : ℤ
  flag : ℤ
  until_ : Option (List Byte)
  untilLen : ℤ

/-- dpbuf_cfind, and dpbuf_eseek behind what it has found. -/
def seekUntil (mem : Mem σ) (until_ : Option (List Byte)) (untilLen left : ℤ) : Option (Mem σ × Option Dpret) :=
  (cfind mem.1 mem.2 until_ untilLen left).bind fun idx =>
    if 0≤ idx then (eseek mem.1 mem.2 (idx+untilLen) .set).map fun x => ((x.1,x.2.1),some (idx+untilLen))
    else some (mem,none)

/-- The bytes of the next batch. -/
def batch (n : ℤ) : ℤ := if n>dpaioBatchSize then dpaioBatchSize else n

/-- The slack is made readable and searched; the last part is how much has been searched without success. -/
def searchSlack (w : Arg) (mem : Mem σ) : Option (Mem σ × Option Dpret × ℤ) :=
  if 0< mem.1.cesize then
    (eseek mem.1 mem.2 0 .end_).bind fun (b,d,_) =>
      (seekUntil (b,d) w.until_ w.untilLen 0).map fun x => (x.1,x.2,x.1.1.crsize)
  else some (mem,none,0)

/-- `_dpaio_read_until_prep` -/
def readUntilPrep (m : Dpbuf.Mem) (w : Arg) (mem : Mem σ) : Option (Mem σ × (Dpret ⊕ Stm)) :=
  if w.until_=none ∨ (w.untilLen : ℤ)<1 ∨ (w.maxLen : ℤ)≤0 then some (mem,.inl dpeInval)
  else
    (searchSlack w mem).bind fun (mem,hit,flag) =>
      match hit with
      | some n => some (mem,.inl n)
      | none =>
          (resizew mem.1 mem.2 (batch w.maxLen) m).map fun (b,d,ok) =>
            if ok=false then ((b,d),.inl dpeNomem)
            else ((b,d),.inr ⟨b.wbeg,b.cwsize,0,w.maxLen,flag,w.until_,w.untilLen⟩)

/-- `_dpaio_read_until_post`, after `sub->post` -/
def readUntilPost (m : Dpbuf.Mem) (mem : Mem σ) (stm : Stm) (ret : Dpret) : Option (Mem σ × Stm × Dpret) :=
  if ret≤0 then some (mem,stm,if 0<stm.total then stm.total else ret)
  else
    let total := int32 (stm.total+ret)
    (wseek mem.1 mem.2 ret .cur).bind fun (b,d,_) =>
      (eseek b d 0 .end_).bind fun (b,d,_) =>
        let left := if stm.flag-stm.untilLen+1<0 then 0 else stm.flag-stm.untilLen+1
        (seekUntil (b,d) stm.until_ stm.untilLen left).bind fun (mem,hit) =>
          match hit with
          | some n => some (mem,{stm with total := total},n)
          | none =>
              if total≥ stm.len then some (mem,{stm with total := total, flag := total},dpeContinue)
              else
                (resizew mem.1 mem.2 (batch (stm.len-total)) m).map fun (b,d,ok) =>
                  if ok=false then ((b,d),{stm with total := total, flag := total},if 0<total then total else dpeNomem)
                  else ((b,d),{stm with total := total, flag := total, pos := b.wbeg, ioLen := b.cwsize},dpeWait)

/-- dpaio_read_until -/
def dpaioReadUntil : Op Byte (Mem σ) Arg Stm Dpbuf.Mem :=
  ⟨readUntilPrep,Stm.ioLen,fun mem stm => takeIn mem stm.pos,readUntilPost⟩

abbrev Over (σ : Type*) := Done Byte (Mem σ) Arg Stm Dpbuf.Mem

/-- The bytes of the delimiter. -/
def Arg.delim (w : Arg) : List Byte := (w.until_.getD []).take (w.untilLen : ℤ).toNat

/-- All that the operation has seen, from the read cursor on. -/
def seen (d : Over σ) : List Byte := readable d.before.1 d.before.2++slack d.before.1 d.before.2++d.moved

/-- Where the delimiter first ends. -/
def ends (n h : List Byte) : Option ℕ := (find n h).map (·+n.length)

/-- The delimiter is not empty, the pointer leads to it, and it is not in what is readable already. -/
def proper (w : Arg) (a : Mem σ) : Prop :=
  0<(w.maxLen : ℤ) ∧ 1≤(w.untilLen : ℤ) ∧ (∃ p,w.until_=some p ∧ (w.untilLen : ℤ)≤p.length) ∧
    ends w.delim (readable a.1 a.2)=none

/-- The result is where the delimiter first ends, up to there all is readable, and nothing behind it; or it is negative. -/
structure Exact (d : Over σ) : Prop where
  hit : ∀ n,ends d.arg.delim (seen d)=some n → d.ret=n ∧ readable d.after.1 d.after.2=(seen d).take n ∧
    slack d.after.1 d.after.2=(seen d).drop n
  miss : ends d.arg.delim (seen d)=none → d.ret<0

/-- Nothing has come for a post function, but for an earlier one. -/
def partly (l : Last (Mem σ) Stm Dpbuf.Mem) : Prop :=
  0<l.stm.total ∧ (l.call.res=0 ∨ l.call.res<0 ∧ l.got=0)

/-- There is no memory for the next batch. -/
def starved (d : Over σ) (l : Last (Mem σ) Stm Dpbuf.Mem) : Prop :=
  0<l.got ∧ l.call.res≠0 ∧ ends d.arg.delim (seen d)=none ∧ l.stm.total+l.got<d.arg.maxLen ∧
    ∃ x,resizew {l.mem.1 with rend := l.mem.1.wbeg+l.got, wbeg := l.mem.1.wbeg+l.got} l.mem.2
      (batch (d.arg.maxLen-(l.stm.total+l.got))) l.env=some x ∧ x.2.2=false

/-- The stream ends behind the delimiter before the post function has returned. -/
def dropped (d : Over σ) (l : Last (Mem σ) Stm Dpbuf.Mem) : Prop :=
  l.call.res=0 ∧ l.stm.total=0 ∧ ends d.arg.delim (seen d)≠none

def slips (d : Over σ) : Prop := ∃ l∈d.last,partly l ∨ starved d l ∨ dropped d l

/-- Neither a failed call nor the end of the stream has ended the operation, nor a lack of memory. -/
def settled (d : Over σ) : Prop := (0<d.ret ∨ d.ret=dpeContinue) ∧ ∀ l∈d.last,0<l.got ∧ l.call.res≠0

/-- The same operation on the same input, which may come in other chunks. -/
structure Alike (d d' : Over σ) : Prop where
  delim : d.arg.delim=d'.arg.delim
  maxLen : (d.arg.maxLen : ℤ)=d'.arg.maxLen
  window : readable d.before.1 d.before.2++slack d.before.1 d.before.2=readable d'.before.1 d'.before.2++slack d'.before.1 d'.before.2
  stream : d.moved<+:d'.moved ∨ d'.moved<+:d.moved

/-- The delimiter ends in bytes that have been read behind the limit. -/
def beyond (d : Over σ) : Prop :=
  ∃ n : ℕ,ends d.arg.delim (seen d)=some n ∧ (readable d.before.1 d.before.2++slack d.before.1 d.before.2).length+(d.arg.maxLen : ℤ)<n

section Search
variable {b b' : Mem σ} {until_ : Option (List Byte)} {p : List Byte} {n left : ℤ} {h : Option Dpret} {k : ℕ}

/-- dpbuf_eseek from the read cursor, when all is readable. -/
theorem eseek_set (hv : valid b) (hslack : slack b.1 b.2=[]) (hk : k≤(readable b.1 b.2).length) :
    ∃ b1 r,eseek b.1 b.2 k .set=some (b1,b.2,r) ∧ valid (b1,b.2) ∧ readable b1 b.2=(readable b.1 b.2).take k ∧
      slack b1 b.2=(readable b.1 b.2).drop k := by
  have hlen := length_readable hv.1 hv.2
  have hslen := length_slack hv.1 hv.2
  rw [hslack,List.length_nil] at hslen
  obtain ⟨b1,r,he,hbec⟩ := eseek_spec hv.1 hv.2 k .set
  have h1 := hv.1.rbeg
  have h3 := hv.1.wbeg
  have h4 := hv.1.size
  have h5 := hv.1.maxs
  have h6 := hv.2.int
  unfold intMax at h6
  have hwrap : wrap (b.1.rbeg+k)=b.1.rbeg+k := (wrap_cases _).2.2.1 (by omega) (by omega)
  have hr : ((readable b.1 b.2).length+r).toNat=k := by
    simp only [eseek,hwrap,iclamp_mid (show b.1.rbeg≤b.1.rbeg+k by omega) (show b.1.rbeg+k≤b.1.wbeg by omega),
      Option.some.injEq,Prod.mk.injEq] at he
    omega
  have hread := hbec.readable
  have hrest := hbec.slack
  rw [hr,hslack,List.append_nil] at hread hrest
  exact ⟨b1,r,he,⟨hbec.fits,hv.2⟩,hread,hrest⟩

/-- dpbuf_cfind in the readable window. -/
theorem cfind_readable (hv : valid b) (hn : 1≤n) (hp : n≤p.length) (h0 : 0≤left) (hleft : left≤b.1.crsize) :
    ∃ r,cfind b.1 b.2 (some p) n left=some r ∧
      match find (p.take n.toNat) ((readable b.1 b.2).drop left.toNat) with
      | none => r<0
      | some i => r=left+i := by
  have hlen := length_readable hv.1 hv.2
  have h1 := hv.1.rbeg
  have h2 := hv.1.rend
  have h3 := hv.1.wbeg
  have h4 := hv.1.size
  have h5 := hv.1.maxs
  have h6 := hv.2.room
  have htake : (p.take n.toNat).length=n.toNat := List.length_take_of_le (by omega)
  unfold cfind
  simp only [if_neg (show ¬n<0 by omega),Option.bind_some]
  unfold Dpbuf.Buf.crsize at hleft ⊢
  split
  · rename_i hshort
    refine ⟨_,rfl,?_⟩
    cases hf : find (p.take n.toNat) ((readable b.1 b.2).drop left.toNat) with
    | none =>
      change Dpbuf.enodata<0
      decide
    | some i =>
      have hle := find_le hf
      rw [htake,List.length_drop] at hle
      omega
  · rename_i hfits
    have hbytes : bytes p n=some (p.take n.toNat) := if_pos ⟨by omega,hp⟩
    have hload : b.2.load (b.1.rbeg+left) (b.1.rend-b.1.rbeg-left)=
        some (seg b.2.data (b.1.rbeg+left).toNat (b.1.rbeg+left+(b.1.rend-b.1.rbeg-left)).toNat) :=
      load_some (by omega) (by omega) (by omega)
    have hseg : seg b.2.data (b.1.rbeg+left).toNat (b.1.rbeg+left+(b.1.rend-b.1.rbeg-left)).toNat=
        (readable b.1 b.2).drop left.toNat := by
      rw [readable,drop_seg]
      congr 1 <;> omega
    rw [hbytes,hload,hseg]
    simp only [Option.bind_some,Option.map_some]
    refine ⟨_,rfl,?_⟩
    cases find (p.take n.toNat) ((readable b.1 b.2).drop left.toNat) with
    | none =>
      change Dpbuf.eperm<0
      decide
    | some i => rfl

/-- The readable window is searched, where nothing begins before `left`. -/
theorem seekUntil_spec {h : Option Dpret} (hv : valid b) (hslack : slack b.1 b.2=[]) (hn : 1≤n) (hp : n≤p.length) (h0 : 0≤left)
    (hleft : left≤b.1.crsize) (hno : ∀ j<left.toNat,¬p.take n.toNat<+:(readable b.1 b.2).drop j)
    (hu : seekUntil b (some p) n left=some (b',h)) :
    match ends (p.take n.toNat) (readable b.1 b.2) with
    | none => h=none ∧ b'=b
    | some k => h=some (k : ℤ) ∧ valid b' ∧ readable b'.1 b'.2=(readable b.1 b.2).take k ∧
        slack b'.1 b'.2=(readable b.1 b.2).drop k := by
  have htake : (p.take n.toNat).length=n.toNat := List.length_take_of_le (by omega)
  obtain ⟨r,hr,hfound⟩ := cfind_readable hv hn hp h0 hleft
  unfold seekUntil at hu
  rw [hr,Option.bind_some] at hu
  unfold ends
  rw [find_drop hno,Option.map_map]
  cases hf : find (p.take n.toNat) ((readable b.1 b.2).drop left.toNat) with
  | none =>
    rw [hf] at hfound
    rw [if_neg (not_le.mpr hfound)] at hu
    cases hu
    exact ⟨rfl,rfl⟩
  | some i =>
    rw [hf] at hfound
    have hfound : r=left+i := hfound
    have hle := find_le hf
    rw [htake,List.length_drop] at hle
    have hk : r+n=((left.toNat+i+n.toNat : ℕ) : ℤ) := by omega
    have hlen := length_readable hv.1 hv.2
    unfold Dpbuf.Buf.crsize at hleft
    obtain ⟨b1,j,he,hv1,hread,hrest⟩ := eseek_set (k := left.toNat+i+n.toNat) hv hslack (by omega)
    rw [if_pos (by omega),hk,he] at hu
    cases hu
    simp only [Option.map_some,Function.comp_apply,htake]
    exact ⟨trivial,hv1,hread,hrest⟩

theorem valid_seekUntil {h : Option Dpret} (hv : valid b) (hu : seekUntil b until_ n left=some (b',h)) :
    valid b' ∧ (h=none → b'=b) ∧ ∀ k,h=some k → n≤k := by
  obtain ⟨r,-,hu⟩ := Option.bind_eq_some_iff.mp hu
  split at hu
  · rename_i hr
    obtain ⟨b1,j,he,hbec⟩ := eseek_spec hv.1 hv.2 (r+n) .set
    rw [he] at hu
    cases hu
    refine ⟨⟨hbec.fits,hv.2⟩,fun hnone => (by cases hnone),fun k hk => ?_⟩
    cases hk
    omega
  · cases hu
    exact ⟨hv,fun _ => rfl,fun k hk => by cases hk⟩

end Search

/-- An operation goes on: the delimiter is not in what has been made readable. -/
structure Mid (w : Arg) (a b : Mem σ) (t : Stm) (y : List Byte) (m : ℤ) : Prop where
  len : t.len=w.maxLen
  until_ : t.until_=w.until_ ∧ t.untilLen=w.untilLen ∧ 1≤(w.untilLen : ℤ)
  total : t.total<w.maxLen
  behind : Behind a b t.pos t.ioLen t.total y m
  flag : 0≤t.flag ∧ t.flag≤(readable a.1 a.2++slack a.1 a.2).length+t.total
  clean : proper w a → ends w.delim (readable a.1 a.2++slack a.1 a.2++y.take t.total.toNat)=none

def good (d : Over σ) : Prop :=
  proper d.arg d.before → (Exact d ↔ ¬slips d) ∧ (d.ret=dpeContinue → settled d → d.arg.maxLen≤(d.moved.length : ℤ))

section Steps
variable {w : Arg} {a b b' : Mem σ} {x y : List Byte} {t t' : Stm} {flag m r r' : ℤ} {c : Call} {e : Dpbuf.Mem} {h h' : Option Dpret}

theorem delim_eq {p : List Byte} (hp : w.until_=some p) : w.delim=p.take (w.untilLen : ℤ).toNat := by
  unfold Arg.delim
  rw [hp]
  rfl

theorem ends_none {n h : List Byte} : ends n h=none ↔ find n h=none := Option.map_eq_none_iff

theorem batch_int {n : ℤ} (hn : n≤2147483647) : batch n≤ intMax := by
  unfold batch dpaioBatchSize intMax
  split <;> omega

/-- What the first search makes of the buffer. -/
theorem searchSlack_spec (hv : valid b) (hu : searchSlack w b=some (b',h,flag)) :
    valid b' ∧ (h=none → readable b'.1 b'.2=readable b.1 b.2++slack b.1 b.2 ∧ slack b'.1 b'.2=[] ∧ 0≤flag ∧
        flag≤(readable b.1 b.2++slack b.1 b.2).length) ∧
      (proper w b → match ends w.delim (readable b.1 b.2++slack b.1 b.2) with
        | none => h=none
        | some k => h=some (k : ℤ) ∧ readable b'.1 b'.2=(readable b.1 b.2++slack b.1 b.2).take k ∧
            slack b'.1 b'.2=(readable b.1 b.2++slack b.1 b.2).drop k) := by
  have hslen := length_slack hv.1 hv.2
  unfold searchSlack at hu
  split at hu
  · obtain ⟨he,hv1,hread,hslack⟩ := eseek_end hv
    rw [he,Option.bind_some] at hu
    obtain ⟨⟨b2,h2⟩,hseek,hu⟩ := Option.map_eq_some_iff.mp hu
    cases hu
    obtain ⟨hv2,hsame,-⟩ := valid_seekUntil hv1 hseek
    have h1 : b.1.rbeg≤b.1.wbeg := hv1.1.rend
    have hsize : ((readable {b.1 with rend := b.1.wbeg} b.2).length : ℤ)=b.1.wbeg-b.1.rbeg := length_readable hv1.1 hv1.2
    refine ⟨hv2,fun hnone => ?_,fun ⟨hmax,hlen,⟨p,hp,hple⟩,hclean⟩ => ?_⟩
    · rw [hsame hnone]
      refine ⟨hread,hslack,?_,?_⟩
      · change 0≤b.1.wbeg-b.1.rbeg
        omega
      · rw [← hread]
        exact hsize.ge
    · rw [delim_eq hp,← hread]
      rw [hp] at hseek
      have hcr : (0 : ℤ)≤({b.1 with rend := b.1.wbeg} : Buf σ).crsize := by
        change 0≤b.1.wbeg-b.1.rbeg
        omega
      have hspec := seekUntil_spec hv1 hslack hlen hple le_rfl hcr (fun j hj => absurd hj (Nat.not_lt_zero j)) hseek
      simp only at hspec ⊢
      cases hends : ends (p.take (w.untilLen : ℤ).toNat) (readable {b.1 with rend := b.1.wbeg} b.2) with
      | none =>
        rw [hends] at hspec
        exact hspec.1
      | some k =>
        rw [hends] at hspec
        exact ⟨hspec.1,hspec.2.2⟩
  · rename_i hempty
    cases hu
    have hnil : slack b.1 b.2=[] := List.eq_nil_of_length_eq_zero (by
      unfold Dpbuf.Buf.cesize at hempty
      omega)
    refine ⟨hv,fun _ => ?_,fun hp => ?_⟩
    · rw [hnil,List.append_nil]
      exact ⟨rfl,rfl,le_rfl,Int.natCast_nonneg _⟩
    · rw [hnil,List.append_nil,hp.2.2.2]

theorem prep_cases {z : Dpret ⊕ Stm} (hv : valid b) (hu : readUntilPrep e w b=some (b',z)) :
    valid b' ∧ (¬proper w b ∧ z=.inl dpeInval ∨ 0<(w.maxLen : ℤ) ∧ 1≤(w.untilLen : ℤ) ∧
      ((∃ n : ℤ,z=.inl n ∧ (proper w b → ∃ k : ℕ,n=k ∧ ends w.delim (readable b.1 b.2++slack b.1 b.2)=some k ∧
          readable b'.1 b'.2=(readable b.1 b.2++slack b.1 b.2).take k ∧
          slack b'.1 b'.2=(readable b.1 b.2++slack b.1 b.2).drop k)) ∨
        (proper w b → ends w.delim (readable b.1 b.2++slack b.1 b.2)=none) ∧ (z=.inl dpeNomem ∨
          readable b'.1 b'.2=readable b.1 b.2++slack b.1 b.2 ∧ slack b'.1 b'.2=[] ∧
          ∃ flag,z=.inr ⟨b'.1.wbeg,b'.1.cwsize,0,w.maxLen,flag,w.until_,w.untilLen⟩ ∧ 0≤flag ∧
            flag≤(readable b.1 b.2++slack b.1 b.2).length))) := by
  unfold readUntilPrep at hu
  split at hu
  · rename_i hbad
    cases hu
    refine ⟨hv,.inl ⟨fun hp => ?_,rfl⟩⟩
    obtain ⟨hmax,hlen,⟨p,hp,-⟩,-⟩ := hp
    rcases hbad with hnone | hlt | hle
    · rw [hp] at hnone
      cases hnone
    · omega
    · omega
  · rename_i hok
    obtain ⟨-,hok⟩ := not_or.mp hok
    obtain ⟨hlen,hmax⟩ := not_or.mp hok
    obtain ⟨⟨b1,h,flag⟩,hsearch,hu⟩ := Option.bind_eq_some_iff.mp hu
    obtain ⟨hv1,hnone,hfound⟩ := searchSlack_spec hv hsearch
    cases h with
    | some n =>
      cases hu
      refine ⟨hv1,.inr ⟨not_le.mp hmax,not_lt.mp hlen,.inl ⟨n,rfl,fun hp => ?_⟩⟩⟩
      have hfound := hfound hp
      cases hends : ends w.delim (readable b.1 b.2++slack b.1 b.2) with
      | none =>
        rw [hends] at hfound
        cases hfound
      | some k =>
        rw [hends] at hfound
        exact ⟨k,Option.some.inj hfound.1,rfl,hfound.2⟩
    | none =>
      obtain ⟨⟨b2,d2,ok⟩,hx,hu⟩ := Option.map_eq_some_iff.mp hu
      obtain ⟨hread,hslack,hflag⟩ := hnone rfl
      obtain ⟨hv2,hread2,hslack2⟩ := behind_resizew hv1 (batch_int w.maxLen.2.2) hx
      have hclean : proper w b → ends w.delim (readable b.1 b.2++slack b.1 b.2)=none := by
        intro hp
        have hfound := hfound hp
        cases hends : ends w.delim (readable b.1 b.2++slack b.1 b.2) with
        | none => rfl
        | some k =>
          rw [hends] at hfound
          cases hfound.1
      cases ok with
      | false =>
        cases hu
        exact ⟨hv2,.inr ⟨not_le.mp hmax,not_lt.mp hlen,.inr ⟨hclean,.inl rfl⟩⟩⟩
      | true =>
        cases hu
        exact ⟨hv2,.inr ⟨not_le.mp hmax,not_lt.mp hlen,.inr ⟨hclean,.inr ⟨hread2.trans hread,hslack2.trans hslack,flag,rfl,
          hflag⟩⟩⟩⟩

theorem prep_good (hv : valid b) (hu : readUntilPrep e w b=some (b',.inl r)) : valid b' ∧ good ⟨w,b,[],r,b',none⟩ := by
  obtain ⟨hv',hz⟩ := prep_cases hv hu
  refine ⟨hv',fun hp => ?_⟩
  have hp : proper w b := hp
  have hseen : seen (⟨w,b,[],r,b',none⟩ : Over σ)=readable b.1 b.2++slack b.1 b.2 := List.append_nil _
  refine ⟨iff_of_true ⟨fun n hn => ?_,fun hn => ?_⟩ fun ⟨l,hl,_⟩ => (by cases hl),fun hcont _ => ?_⟩
  rotate_right
  · have hcont : r=dpeContinue := hcont
    rcases hz with ⟨hno,-⟩ | ⟨-,-,⟨k,hk,hfound⟩ | ⟨-,hz | ⟨-,-,flag,hz,-⟩⟩⟩
    · exact absurd hp hno
    · cases hk
      obtain ⟨j,hj,-⟩ := hfound hp
      unfold dpeContinue at hcont
      omega
    · cases hz
      exact absurd hcont (by decide)
    · cases hz
  all_goals
    rw [hseen] at hn
    have hn : ends w.delim _=_ := hn
  · rcases hz with ⟨hno,-⟩ | ⟨-,-,⟨k,hk,hfound⟩ | ⟨hclean,-⟩⟩
    · exact absurd hp hno
    · cases hk
      obtain ⟨j,hj,hends,hread,hrest⟩ := hfound hp
      rw [hends] at hn
      cases hn
      rw [hseen]
      exact ⟨hj,hread,hrest⟩
    · rw [hclean hp] at hn
      cases hn
  · rcases hz with ⟨hno,-⟩ | ⟨-,-,⟨k,hk,hfound⟩ | ⟨-,hz | ⟨-,-,flag,hz,-⟩⟩⟩
    · exact absurd hp hno
    · obtain ⟨j,-,hends,-⟩ := hfound hp
      rw [hends] at hn
      cases hn
    · cases hz
      change dpeNomem<0
      decide
    · cases hz

theorem prep_mid (hv : valid b) (hu : readUntilPrep e w b=some (b',.inr t)) : Mid w b b' t [] 0 := by
  obtain ⟨hv',hz⟩ := prep_cases hv hu
  rcases hz with ⟨-,hz⟩ | ⟨hmax,hlen,⟨k,hz,-⟩ | ⟨hclean,hz | ⟨hread,hslack,flag,hz,hflag⟩⟩⟩
  · cases hz
  · cases hz
  · cases hz
  · have ht : t=⟨b'.1.wbeg,b'.1.cwsize,0,w.maxLen,flag,w.until_,w.untilLen⟩ := Sum.inr.inj hz
    subst ht
    refine ⟨rfl,⟨rfl,rfl,hlen⟩,hmax,behind_start (y := []) hv' ?_ hslack,⟨hflag.1,?_⟩,fun hp => ?_⟩
    · rw [List.append_nil]
      exact hread
    · simp only [add_zero]
      exact hflag.2
    · rw [List.take_nil,List.append_nil]
      exact hclean hp

/-- The delimiter lies before where it ends. -/
theorem ends_take {n h : List Byte} {k : ℕ} (hk : ends n h=some k) : ends n (h.take k)≠none := by
  intro hnone
  obtain ⟨i,hi,rfl⟩ := Option.map_eq_some_iff.mp hk
  have hle := find_le hi
  refine find_none (ends_none.mp hnone) (show i≤(h.take (i+n.length)).length by rw [List.length_take]; omega) ?_
  have hpre := find_at hi
  rw [List.drop_take,Nat.add_sub_cancel_left]
  exact List.prefix_take_iff.mpr ⟨hpre,le_rfl⟩

/-- A post function looks for the delimiter in all that has become readable. -/
theorem searched (h : Mid w a b t y m) (hp : proper w a) (h0 : 0≤ m) {z z' : Mem σ} (hv : valid z)
    (hread : readable z.1 z.2=readable a.1 a.2++slack a.1 a.2++y) (hslack : slack z.1 z.2=[])
    (hu : seekUntil z t.until_ t.untilLen (if t.flag-t.untilLen+1<0 then 0 else t.flag-t.untilLen+1)=some (z',h')) :
    match ends w.delim (readable a.1 a.2++slack a.1 a.2++y) with
    | none => h'=none
    | some k => h'=some (k : ℤ) ∧ readable z'.1 z'.2=(readable a.1 a.2++slack a.1 a.2++y).take k ∧
        slack z'.1 z'.2=(readable a.1 a.2++slack a.1 a.2++y).drop k := by
  obtain ⟨hmax,hlen,⟨p,hsome,hple⟩,-⟩ := id hp
  have hclean := ends_none.mp (h.clean hp)
  obtain ⟨huntil,huntilLen,-⟩ := h.until_
  have hcount := h.behind.count
  have htotal := h.behind.total
  have hflag := h.flag
  have hsize := length_readable hv.1 hv.2
  have hdelim : w.delim.length=(w.untilLen : ℤ).toNat := by
    rw [delim_eq hsome]
    exact List.length_take_of_le (by omega)
  rw [hread,List.length_append] at hsize
  generalize hleft : (if t.flag-t.untilLen+1<0 then 0 else t.flag-t.untilLen+1)=left at hu
  have hle : 0≤left ∧ (0<left → left=t.flag-w.untilLen+1) := by
    rw [← hleft,huntilLen]
    split <;> omega
  have hno : ∀ j<left.toNat,¬(p.take (w.untilLen : ℤ).toNat)<+:(readable z.1 z.2).drop j := by
    intro j hj
    rw [hread,← delim_eq hsome]
    have hsplit : readable a.1 a.2++slack a.1 a.2++y=
        (readable a.1 a.2++slack a.1 a.2++y.take t.total.toNat)++y.drop t.total.toNat := by
      rw [List.append_assoc _ (y.take _),List.take_append_drop]
    rw [hsplit]
    refine find_later hclean ?_
    rw [hdelim,List.length_append,List.length_take]
    omega
  have hcr : left≤z.1.crsize := by
    unfold Dpbuf.Buf.crsize
    omega
  rw [huntil,huntilLen,hsome] at hu
  have hspec := seekUntil_spec hv hslack hlen hple hle.1 hcr hno hu
  rw [hread,← delim_eq hsome] at hspec
  cases hends : ends w.delim (readable a.1 a.2++slack a.1 a.2++y) with
  | none =>
    rw [hends] at hspec
    exact hspec.1
  | some k =>
    rw [hends] at hspec
    exact ⟨hspec.1,hspec.2.2⟩

/-- What a post function has got is searched, and the operation goes on or ends. -/
theorem until_got (h : Mid w a b t y m) (hpos : 0< m) (hm : m≤t.ioLen) (hc : c.res≠0)
    (hu : readUntilPost e b t m=some (b',t',r')) :
    if r'=dpeWait then Mid w a b' t' y 0 else valid b' ∧ good ⟨w,a,y,r',b',some ⟨b,t,m,c,e⟩⟩ := by
  have hbehind := h.behind
  have hcount := hbehind.count
  have htotal := hbehind.total
  obtain ⟨b1,b2,k,j,hseek,he,hv,hb2,hread,hslack⟩ := behind_seek hbehind hpos.le hm
  have hsum : int32 (t.total+m)=y.length := by
    rw [int32_eq (by omega) (behind_int hbehind hpos.le hm),hcount]
  -- the call has not ended the operation
  have hlast : ∀ d : Over σ,d.last=some ⟨b,t,m,c,e⟩ → (slips d ↔ starved d ⟨b,t,m,c,e⟩) := by
    intro d hd
    constructor
    · rintro ⟨l,hl,hslip⟩
      rw [hd] at hl
      cases hl
      rcases hslip with ⟨-,hz | ⟨-,hz⟩⟩ | hslip | ⟨hz,-⟩
      · exact absurd hz hc
      · exact absurd hz hpos.ne'
      · exact hslip
      · exact absurd hz hc
    · intro hslip
      exact ⟨_,hd,.inr (.inl hslip)⟩
  unfold readUntilPost at hu
  rw [if_neg (not_le.mpr hpos),hseek] at hu
  simp only [Option.bind_some,he,hsum] at hu
  obtain ⟨⟨b3,hit⟩,hfound,hu⟩ := Option.bind_eq_some_iff.mp hu
  obtain ⟨hv3,hsame,hge⟩ := valid_seekUntil hv hfound
  have hspec (hp : proper w a) := searched h hp hpos.le hv hread hslack hfound
  cases hit with
  | some n =>
    cases hu
    have hn := hge r' rfl
    rw [h.until_.2.1] at hn
    have hlen := h.until_.2.2
    rw [if_neg (by unfold dpeWait; omega)]
    refine ⟨hv3,fun hp => ?_⟩
    have hspec := hspec hp
    cases hends : ends w.delim (readable a.1 a.2++slack a.1 a.2++y) with
    | none =>
      rw [hends] at hspec
      cases hspec
    | some k =>
      rw [hends] at hspec
      refine ⟨iff_of_true ⟨fun n hn => ?_,fun hn => ?_⟩ fun hslip => ?_,fun hcont => ?_⟩
      · cases hends.symm.trans hn
        exact ⟨Option.some.inj hspec.1,hspec.2⟩
      · cases hends.symm.trans hn
      · obtain ⟨-,-,hn,-⟩ := (hlast _ rfl).mp hslip
        cases hends.symm.trans hn
      · have hcont : r'=dpeContinue := hcont
        unfold dpeContinue at hcont
        omega
  | none =>
    have hmiss (hp : proper w a) : ends w.delim (readable a.1 a.2++slack a.1 a.2++y)=none := by
      have hspec := hspec hp
      cases hends : ends w.delim (readable a.1 a.2++slack a.1 a.2++y) with
      | none => rfl
      | some k =>
        rw [hends] at hspec
        cases hspec.1
    have hlen := h.len
    rw [hsame rfl] at hu
    simp only at hu
    split at hu
    · rename_i hlimit
      cases hu
      rw [if_neg (show dpeContinue≠dpeWait by decide)]
      refine ⟨hv,fun hp => ⟨iff_of_true ⟨fun n hn => ?_,fun _ => ?_⟩ fun hslip => ?_,fun _ _ => ?_⟩⟩
      · cases (hmiss hp).symm.trans hn
      · change dpeContinue<0
        decide
      · obtain ⟨-,-,-,hlt,-⟩ := (hlast _ rfl).mp hslip
        have hlt : t.total+m<w.maxLen := hlt
        omega
      · change (w.maxLen : ℤ)≤y.length
        omega
    · rename_i hmore
      obtain ⟨⟨b4,d4,ok⟩,hx,hu⟩ := Option.map_eq_some_iff.mp hu
      have hmax := w.maxLen.2.2
      obtain ⟨hv4,hread4,hslack4⟩ := behind_resizew hv (batch_int (by omega)) hx
      cases ok with
      | false =>
        cases hu
        have hret : (if 0<(y.length : ℤ) then (y.length : ℤ) else dpeNomem)=y.length := if_pos (by omega)
        rw [hret,if_neg (by unfold dpeWait; omega)]
        refine ⟨hv4,fun hp => ⟨iff_of_false (fun hex => ?_) (not_not.mpr ((hlast _ rfl).mpr ?_)),fun hcont => ?_⟩⟩
        · have hneg : (y.length : ℤ)<0 := hex.miss (hmiss hp)
          omega
        · refine ⟨hpos,hc,hmiss hp,?_,(b4,d4,false),?_,rfl⟩
          · change t.total+m<w.maxLen
            omega
          · simp only
            rw [hb2,hlen,hcount] at hx
            exact hx
        · exact absurd (show (y.length : ℤ)=dpeContinue from hcont) (by unfold dpeContinue; omega)
      | true =>
        cases hu
        rw [if_pos rfl]
        have hlt : (y.length : ℤ)<w.maxLen := by omega
        refine ⟨hlen,h.until_,hlt,behind_start hv4 (hread4.trans hread) (hslack4.trans hslack),⟨?_,?_⟩,fun hp => ?_⟩
        · exact Int.natCast_nonneg _
        · simp only
          omega
        · simp only
          rw [Int.toNat_natCast,List.take_length]
          exact hmiss hp

theorem until_post (h : Mid w a b t y m) (hm : m≤t.ioLen) (ho : Outcome t.ioLen m c r)
    (hu : readUntilPost e b t r=some (b',t',r')) :
    if r'=dpeWait then Mid w a b' t' y 0 else valid b' ∧ good ⟨w,a,y,r',b',some ⟨b,t,m,c,e⟩⟩ := by
  have hbehind := h.behind
  have hcount := hbehind.count
  have htotal := hbehind.total
  -- an earlier post function has got something, and this one nothing
  have hpart : 0<t.total → r<0 → partly (⟨b,t,m,c,e⟩ : Last (Mem σ) Stm Dpbuf.Mem) →
      if r'=dpeWait then Mid w a b' t' y 0 else valid b' ∧ good ⟨w,a,y,r',b',some ⟨b,t,m,c,e⟩⟩ := by
    intro htot hr hslip
    unfold readUntilPost at hu
    rw [if_pos hr.le,if_pos htot] at hu
    cases hu
    rw [if_neg (by unfold dpeWait; omega)]
    refine ⟨hbehind.holds,fun hp => ⟨iff_of_false (fun hex => ?_) (not_not.mpr ⟨_,rfl,.inl hslip⟩),fun hcont => ?_⟩⟩
    rotate_right
    · exact absurd (show t.total=dpeContinue from hcont) (by unfold dpeContinue; omega)
    cases hends : ends w.delim (readable a.1 a.2++slack a.1 a.2++y) with
    | none =>
      have hneg : t.total<0 := hex.miss hends
      omega
    | some k =>
      obtain ⟨-,hread,-⟩ := hex.hit k hends
      have hread : readable b.1 b.2=(readable a.1 a.2++slack a.1 a.2++y).take k := hread
      refine ends_take hends ?_
      rw [← hread,hbehind.front]
      exact h.clean hp
  cases ho with
  | full hc hm' hpos => exact until_got h hpos hm hc.ne' hu
  | short hc hpos _ => exact until_got h hpos hm hc.ne hu
  | eof hc =>
    by_cases htot : 0<t.total
    · exact hpart htot (by decide) ⟨htot,.inl hc⟩
    · have hzero : t.total=0 := by omega
      unfold readUntilPost at hu
      rw [if_pos (by decide),if_neg htot] at hu
      cases hu
      rw [if_neg (by decide)]
      refine ⟨hbehind.holds,fun hp => ⟨?_,fun hcont => absurd hcont (show dpeEof≠dpeContinue by decide)⟩⟩
      constructor
      · rintro hex ⟨l,hl,hslip⟩
        cases hl
        rcases hslip with ⟨hpos,-⟩ | ⟨-,hne,-⟩ | ⟨-,-,hne⟩
        · exact htot hpos
        · exact hne hc
        · obtain ⟨k,hk⟩ := Option.ne_none_iff_exists'.mp hne
          have hret : dpeEof=(k : ℤ) := (hex.hit k hk).1
          exact absurd hret (show dpeEof<(k : ℤ) from (show dpeEof<0 by decide).trans_le (Int.natCast_nonneg k)).ne
      · intro hno
        have hmiss : ends w.delim (readable a.1 a.2++slack a.1 a.2++y)=none := by
          by_contra hne
          exact hno ⟨_,rfl,.inr (.inr ⟨hc,hzero,hne⟩)⟩
        refine ⟨fun n hn => ?_,fun _ => ?_⟩
        · cases hmiss.symm.trans hn
        · change dpeEof<0
          decide
  | fail hc hm' he =>
    by_cases htot : 0<t.total
    · exact hpart htot (by omega) ⟨htot,.inr ⟨hc,hm'⟩⟩
    · have hzero : t.total=0 := by omega
      have hy : y=[] := List.eq_nil_of_length_eq_zero (by omega)
      have hneg : -(c.errno : ℤ)<0 := by omega
      unfold readUntilPost at hu
      rw [if_pos hneg.le,if_neg htot] at hu
      cases hu
      split
      · rw [hm'] at h
        exact h
      · refine ⟨hbehind.holds,fun hp => ⟨iff_of_true ⟨fun n hn => ?_,fun _ => ?_⟩ ?_,
          fun _ hset => absurd hm' (hset.2 _ rfl).1.ne'⟩⟩
        · have hmiss := h.clean hp
          rw [hy,List.take_nil] at hmiss
          have hn : ends w.delim (readable a.1 a.2++slack a.1 a.2++y)=some n := hn
          rw [hy,hmiss] at hn
          cases hn
        · exact hneg
        · rintro ⟨l,hl,hslip⟩
          cases hl
          rcases hslip with ⟨hpos,-⟩ | ⟨hpos,-⟩ | ⟨hz,-⟩
          · exact htot hpos
          · exact absurd hm' (show 0< m from hpos).ne'
          · exact absurd hz (show c.res≠0 from hc.ne)

theorem until_spec : Spec (dpaioReadUntil (σ := σ)) valid Mid good where
  prep hv hu := prep_good hv hu
  start hv hu := prep_mid hv hu
  size h := behind_size h.behind
  move h h0 hm hu := ⟨h.len,h.until_,h.total,behind_move h.behind h0 hm hu,h.flag,fun hp => by
    have hcount := h.behind.count
    have htotal := h.behind.total
    rw [List.take_append_of_le_length (by omega)]
    exact h.clean hp⟩
  post h _ hm ho hu := until_post h hm ho hu

end Steps

section Chunking
variable {d d' : Over σ} {n n' : ℕ}

theorem Alike.symm (hs : Alike d d') : Alike d' d := ⟨hs.delim.symm,hs.maxLen.symm,hs.window.symm,hs.stream.symm⟩

theorem result_cases (hd : Exact d) (hset : settled d) :
    (∃ n : ℕ,ends d.arg.delim (seen d)=some n ∧ d.ret=n) ∨ ends d.arg.delim (seen d)=none ∧ d.ret=dpeContinue := by
  cases hends : ends d.arg.delim (seen d) with
  | none =>
    have hneg := hd.miss hends
    exact .inr ⟨rfl,hset.1.resolve_left hneg.not_gt⟩
  | some n => exact .inl ⟨n,rfl,(hd.hit n hends).1⟩

/-- Bytes that come later do not change where the delimiter first ends. -/
theorem ends_append {n h x : List Byte} {k : ℕ} (hk : ends n h=some k) : ends n (h++x)=some k := by
  obtain ⟨i,hi,rfl⟩ := Option.map_eq_some_iff.mp hk
  unfold ends
  rw [find_append hi]
  rfl

/-- The delimiter ends within the limit, and all up to the limit has been read without a hit. -/
theorem not_missed (hs : Alike d d') (hk : ends d.arg.delim (seen d)=some n) (hmiss : ends d'.arg.delim (seen d')=none)
    (hlim : d'.arg.maxLen≤(d'.moved.length : ℤ)) :
    (readable d.before.1 d.before.2++slack d.before.1 d.before.2).length+(d.arg.maxLen : ℤ)<n := by
  by_contra hle
  unfold seen at hk hmiss
  rw [hs.delim,hs.window] at hk
  rw [hs.maxLen,hs.window] at hle
  rcases hs.stream with ⟨x,hx⟩ | ⟨x,hx⟩
  · rw [← hx,← List.append_assoc,ends_append hk] at hmiss
    cases hmiss
  · obtain ⟨i,hi,rfl⟩ := Option.map_eq_some_iff.mp hk
    rw [← hx,← List.append_assoc] at hi
    refine find_later (ends_none.mp hmiss) ?_ (find_at hi)
    rw [List.length_append]
    omega

theorem same_hit (hs : Alike d d') (hk : ends d.arg.delim (seen d)=some n) (hk' : ends d'.arg.delim (seen d')=some n') : n=n' := by
  unfold seen at hk hk'
  rw [hs.delim,hs.window] at hk
  rcases hs.stream with ⟨x,hx⟩ | ⟨x,hx⟩
  · rw [← hx,← List.append_assoc,ends_append hk] at hk'
    exact Option.some.inj hk'
  · rw [← hx,← List.append_assoc,ends_append hk'] at hk
    exact (Option.some.inj hk).symm

theorem beyond_hit (hk : ends d.arg.delim (seen d)=some n) :
    beyond d ↔ (readable d.before.1 d.before.2++slack d.before.1 d.before.2).length+(d.arg.maxLen : ℤ)<n := by
  constructor
  · rintro ⟨k,hk',hlt⟩
    cases hk.symm.trans hk'
    exact hlt
  · exact fun hlt => ⟨n,hk,hlt⟩

theorem beyond_miss (hk : ends d.arg.delim (seen d)=none) : ¬beyond d := by
  rintro ⟨k,hk',-⟩
  cases hk.symm.trans hk'

/-- One operation hits where another reports the limit: it has read behind the limit, and the other has not. -/
theorem hit_miss (hs : Alike d d') (hk : ends d.arg.delim (seen d)=some n) (hr : d.ret=n)
    (hmiss : ends d'.arg.delim (seen d')=none) (hr' : d'.ret=dpeContinue) (hlim : d'.arg.maxLen≤(d'.moved.length : ℤ)) :
    d.ret≠d'.ret ∧ beyond d ∧ ¬beyond d' := by
  refine ⟨?_,(beyond_hit hk).mpr (not_missed hs hk hmiss hlim),beyond_miss hmiss⟩
  have hneg : dpeContinue<0 := by decide
  rw [hr,hr']
  exact (hneg.trans_le (Int.natCast_nonneg n)).ne'

/-- The results of two operations on the same input are the same, unless one of them alone has read the delimiter behind
the limit. -/
theorem same_result (hs : Alike d d') (hd : Exact d) (hd' : Exact d') (hset : settled d) (hset' : settled d')
    (hlim : d.ret=dpeContinue → d.arg.maxLen≤(d.moved.length : ℤ))
    (hlim' : d'.ret=dpeContinue → d'.arg.maxLen≤(d'.moved.length : ℤ)) : d.ret=d'.ret ↔ (beyond d ↔ beyond d') := by
  rcases result_cases hd hset with ⟨n,hk,hr⟩ | ⟨hk,hr⟩ <;> rcases result_cases hd' hset' with ⟨n',hk',hr'⟩ | ⟨hk',hr'⟩
  · have hn := same_hit hs hk hk'
    subst hn
    refine iff_of_true (hr.trans hr'.symm) ?_
    rw [beyond_hit hk,beyond_hit hk',hs.window,hs.maxLen]
  · obtain ⟨hne,hb,hb'⟩ := hit_miss hs hk hr hk' hr' (hlim' hr')
    exact iff_of_false hne fun hiff => hb' (hiff.mp hb)
  · obtain ⟨hne,hb,hb'⟩ := hit_miss hs.symm hk' hr' hk hr (hlim hr)
    exact iff_of_false hne.symm fun hiff => hb' (hiff.mpr hb)
  · exact iff_of_true (hr.trans hr'.symm) (iff_of_false (beyond_miss hk) (beyond_miss hk'))

end Chunking

def text : Option (List Byte) := some [13,10]

def sixteen : Mem Unit := ({data := (), size := 16},{data := List.replicate 17 0, maxs := 16})

theorem sixteen_valid : valid sixteen :=
  ⟨⟨by decide,by decide,by decide,by decide,by decide⟩,⟨by decide,by decide⟩⟩

/-- The delimiter comes in two chunks, and with a byte behind it. -/
def split : List (Act Byte (Mem Unit) Arg Dpbuf.Mem) :=
  [.add ⟨text,2,9⟩ none,.post,.call ⟨2,0⟩ [7,13] none,.call ⟨-1,11⟩ [] none,
    .post,.call ⟨2,0⟩ [10,8] none,.call ⟨-1,11⟩ [] none]

/-- The same bytes in one chunk. -/
def whole : List (Act Byte (Mem Unit) Arg Dpbuf.Mem) :=
  [.add ⟨text,2,9⟩ none,.post,.call ⟨4,0⟩ [7,13,10,8] none,.call ⟨-1,11⟩ [] none]

/-- What the witness looks at. -/
def shows (d : Over Unit) : Bool :=
  decide (d.ret=3 ∧ d.moved=[7,13,10,8] ∧ d.arg.delim=[13,10] ∧ (d.arg.maxLen : ℤ)=9 ∧ (d.arg.untilLen : ℤ)=2 ∧ d.arg.until_=text ∧
    readable d.before.1 d.before.2=[] ∧ slack d.before.1 d.before.2=[]) &&
  d.last.all fun l => decide (l.call.res= -1 ∧ l.got=2 ∨ l.call.res= -1 ∧ l.got=4)

theorem shows_spec {d : Over Unit} (h : shows d=true) :
    proper d.arg d.before ∧ ¬slips d ∧ settled d ∧ ends d.arg.delim (seen d)=some 3 ∧ (d.arg.maxLen : ℤ)=9 := by
  obtain ⟨h,hlast⟩ := Bool.and_eq_true_iff.mp h
  obtain ⟨hret,hmoved,hdelim,hmax,hlen,huntil,hread,hslack⟩ := of_decide_eq_true h
  have hcall : ∀ l∈d.last,l.call.res= -1 ∧ (l.got=2 ∨ l.got=4) := fun l hl => by
    rcases of_decide_eq_true ((Option.all_eq_true _ _).mp hlast l hl) with ⟨hres,hgot⟩ | ⟨hres,hgot⟩
    · exact ⟨hres,.inl hgot⟩
    · exact ⟨hres,.inr hgot⟩
  have hends : ends d.arg.delim (seen d)=some 3 := by
    unfold seen
    rw [hdelim,hread,hslack,hmoved]
    decide
  refine ⟨⟨by omega,by omega,⟨_,huntil,by rw [hlen]; decide⟩,?_⟩,?_,⟨.inl (by rw [hret]; decide),fun l hl => ?_⟩,hends,hmax⟩
  · rw [hread,hdelim]
    decide
  · rintro ⟨l,hl,hslip⟩
    obtain ⟨hres,hgot⟩ := hcall l hl
    rcases hslip with ⟨-,hz | ⟨-,hz⟩⟩ | ⟨-,-,hn,-⟩ | ⟨hz,-⟩
    · omega
    · omega
    · cases hends.symm.trans hn
    · omega
  · obtain ⟨hres,hgot⟩ := hcall l hl
    omega

/-- A run of one operation that shows as the witness wants it. -/
theorem shown {acts : List (Act Byte (Mem Unit) Arg Dpbuf.Mem)} (hno : acts.all (fun a => !a.isUse)=true)
    (hrun : (exec (step dpaioReadUntil) (start sixteen) acts).any (fun s => s.done.any shows)=true) :
    ∃ s d,Reach (step dpaioReadUntil) (AioOp.proper valid) (start sixteen) s ∧ d∈ s.done ∧ shows d=true := by
  obtain ⟨s,hs,hend⟩ := (Option.any_eq_true _ _).mp hrun
  obtain ⟨d,hd,hend⟩ := List.any_eq_true.mp hend
  exact ⟨s,d,exec_proper hno hs,hd,hend⟩

theorem shows_eq {d : Over Unit} (h : shows d=true) : d.arg.delim=[13,10] ∧ d.moved=[7,13,10,8] ∧
    readable d.before.1 d.before.2=[] ∧ slack d.before.1 d.before.2=[] := by
  obtain ⟨-,hmoved,hdelim,-,-,-,hread,hslack⟩ := of_decide_eq_true (Bool.and_eq_true_iff.mp h).1
  exact ⟨hdelim,hmoved,hread,hslack⟩

/-- One byte comes, and then the stream ends. -/
def cut : List (Act Byte (Mem Unit) Arg Dpbuf.Mem) :=
  [.add ⟨text,2,9⟩ none,.post,.call ⟨1,0⟩ [7] none,.call ⟨-1,11⟩ [] none,.post,.call ⟨0,0⟩ [] none]

end Dpapp.AioReadUntil
