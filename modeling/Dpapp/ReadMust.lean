import Dpapp.DpbufSpec
import Dpapp.StreamIo

/-! # Reading exactly so many bytes into a dpbuf (dpasc.c)

`dpaio_read_must` over `read` and `recv`, whose post function is `_dpaio_buf_post`, call by call. -/

set_option linter.unusedSectionVars false

namespace Dpapp.ReadMust
open Dpapp.Machine Dpapp.Ret Dpapp.Segment Dpapp.Dpbuf Dpapp.DpbufSpec
open Dpapp.StreamIo (Call dpaioBufPost int32)

def dpeNomem : Dpret := -12

/-- `_dpaio_stm_t`; `pos` is io.buf as a place in the storage. -/
structure Stm where
  pos : ℤ
  ioLen : ℤ
  total : ℤ
  len : ℤ

variable {σ : Type*}

/-- `_dpaio_read_must_prep` on a buffer that is not NULL: a result, or the operation goes on. -/
def readMustPrep (b : Buf σ) (d : Data) (len : ℤ) (mem : Mem) : Option (Buf σ×Data×(Dpret⊕Stm)) :=
  if len≤0 then some (b,d,.inl dpeInval)
  else if b.cesize≥len then (eseek b d len .cur).map fun x => (x.1,x.2.1,.inl x.2.2)
  else
    let bytes := len-b.cesize
    (resizew b d bytes mem).map fun x =>
      if x.2.2=false then (x.1,x.2.1,.inl dpeNomem) else (x.1,x.2.1,.inr ⟨x.1.wbeg,bytes,0,len⟩)

/-- `_dpaio_read_must_post`, after `sub->post` has returned `ret`. -/
def readMustPost (b : Buf σ) (d : Data) (stm : Stm) (ret : Dpret) : Option (Buf σ×Data×Stm×Dpret) :=
  if ret≤0 then some (b,d,stm,if 0<stm.total then stm.total else ret)
  else
    let total := int32 (stm.total+ret)
    (wseek b d ret .cur).map fun x =>
      if total≥ stm.ioLen then (x.1,x.2.1,{stm with total := total},total)
      else (x.1,x.2.1,{stm with total := total, pos := x.1.wbeg, ioLen := stm.ioLen-ret},dpeWait)

/-- The buffer, the fd and the operation; `run` is the local `total` of `_dpaio_buf_post` while it runs. `fed` is all that
the fd has had since the operation began, and `got` what the calls have taken of it. -/
structure Sys (σ : Type*) where
  buf : Buf σ
  data : Data
  input : List Byte
  stm : Option Stm := none
  run : Option ℤ := none
  result : Option Dpret := none
  stopped : Bool := false
  fed : List Byte
  got : List Byte := []

inductive Act
  | arrive (x : List Byte)
  | post
  | call (c : Call)
  | stop (e : Dpret)

def start (b : Buf σ) (d : Data) (input : List Byte) (len : ℤ) (mem : Mem) : Option (Sys σ) :=
  (readMustPrep b d len mem).map fun x =>
    match x.2.2 with
    | .inl r => {buf := x.1, data := x.2.1, input := input, result := some r, fed := input}
    | .inr stm => {buf := x.1, data := x.2.1, input := input, stm := some stm, fed := input}

/-- `read(fd, buf + off, len - off)` -/
def Sys.read (s : Sys σ) (stm : Stm) (off : ℤ) (n : ℕ) : Option (Sys σ) :=
  (s.data.store (stm.pos+off) (s.input.take n)).map fun d =>
    {s with data := d, input := s.input.drop n, got := s.got++s.input.take n}

/-- The engine takes the result of the post function. -/
def Sys.posted (s : Sys σ) (x : Buf σ×Data×Stm×Dpret) : Sys σ :=
  if x.2.2.2=dpeWait then {s with buf := x.1, data := x.2.1, stm := some x.2.2.1, run := none}
  else {s with buf := x.1, data := x.2.1, stm := none, run := none, result := some x.2.2.2}

/-- The fd gives no more than has been asked for and is there; the engine ends an operation that waits with a negative
code, when its time is over or the connection is. -/
def step (s : Sys σ) : Act → Option (Sys σ)
  | .arrive x => if s.result=none then some {s with input := s.input++x, fed := s.fed++x} else none
  | .post =>
      match s.stm,s.run with
      | some _,none => some {s with run := some 0}
      | _,_ => none
  | .call c =>
      match s.stm,s.run with
      | some stm,some total =>
          if c.res≤ stm.ioLen-total ∧ c.res≤ s.input.length ∧ (c.res<0 → 0<c.errno) then
            (s.read stm total c.res.toNat).bind fun s =>
              match dpaioBufPost stm.ioLen ∅ total c with
              | (total,none) => some {s with run := some total}
              | (_,some p) => (readMustPost s.buf s.data stm p.ret).map s.posted
          else none
      | _,_ => none
  | .stop e =>
      if e<0 ∧ s.run=none ∧ s.stm.isSome then some {s with stm := none, result := some e, stopped := true} else none

/-- What the operation promises with its result: a positive one comes with `len` more readable bytes, the next ones of the
slack and the fd, and none of the others is lost; with another one, all is where it was. -/
structure Kept (b : Buf σ) (d : Data) (len : ℤ) (s : Sys σ) (r : Dpret) : Prop where
  pos : 0<r → r=len ∧ readable s.buf s.data=readable b d++(slack b d++s.fed).take len.toNat ∧
    slack s.buf s.data++s.input=(slack b d++s.fed).drop len.toNat
  neg : r≤0 → readable s.buf s.data=readable b d ∧ slack s.buf s.data++s.input=slack b d++s.fed

/-- The operation goes on: `m` bytes of this post function's calls lie behind the slack. -/
structure Has (b : Buf σ) (d : Data) (len : ℤ) (s : Sys σ) (t : Stm) (m : ℤ) : Prop where
  fits : Fits s.buf s.data
  block : Block s.data
  same : readable s.buf s.data=readable b d
  place : t.pos=s.buf.wbeg
  total : 0≤t.total
  sum : t.total+t.ioLen≤ intMax
  room : t.ioLen≤ s.buf.size-s.buf.wbeg
  run : 0≤ m ∧ m≤t.ioLen
  short : (slack b d).length<len
  tail : ∃ g,slack s.buf s.data=slack b d++g ∧ (g.length : ℤ)=t.total ∧
    s.got=g++seg s.data.data s.buf.wbeg.toNat (s.buf.wbeg+m).toNat
  fed : s.got++s.input=s.fed

/-- The operation is over: it did not wait, it has been ended, or its post function has ended it. -/
def Ended (b : Buf σ) (d : Data) (len : ℤ) (s : Sys σ) (r : Dpret) : Prop :=
  (len≤(slack b d).length ∨ s.stopped=true ∨ s.got=[]) ∧ Kept b d len s r ∨
    (slack b d).length<len ∧ s.stopped=false ∧ s.got≠[] ∧ ¬Kept b d len s r

def Inv (b : Buf σ) (d : Data) (len : ℤ) (s : Sys σ) : Prop :=
  match s.result with
  | some r => s.stm=none ∧ Ended b d len s r
  | none => s.stopped=false ∧ ∃ t,s.stm=some t ∧ Has b d len s t (s.run.getD 0) ∧ s.run.getD 0<t.ioLen

section Steps
variable {b : Buf σ} {d : Data} {len : ℤ} {s u : Sys σ} {t : Stm} {m : ℤ} {r : Dpret} {c : Call}

/-- resizew leaves the windows as they are where it stays in the storage. -/
theorem resizew_keeps {n : ℤ} {mem : Mem} {x : Buf σ×Data×Bool} (hf : Fits b d) (hb : Block d) (hn : n≤ intMax)
    (h : resizew b d n mem=some x) : Keeps b d x.1 x.2.1 ∧ (x.2.2=true → n≤x.1.size-x.1.wbeg) := by
  have hr : 0≤n → b.norecycle=false → roomy b d := by
    intro h0 hno hempty hzero
    by_contra hspare
    have hstore : d.store (b.size-b.wbeg) [0]=none := by
      refine if_neg fun hin => hspare ?_
      have := hin.2
      simp only [List.length_singleton] at this
      unfold spare
      omega
    unfold resizew at h
    rw [if_pos h0,hno,if_neg (by decide),recycleData,if_pos hempty] at h
    simp only [hstore,Option.map_none,Option.bind_none] at h
    cases h
  obtain ⟨b',d',r,he,hk,hroom⟩ := resizew_spec hf hb hn hr mem
  rw [he] at h
  cases h
  exact ⟨hk,hroom⟩

theorem iclamp_mid {v l h : ℤ} (hl : l≤v) (hh : v≤h) : iclamp v l h=v := by
  unfold iclamp
  simp only
  rw [if_neg (not_lt.mpr hl)]
  split
  · rfl
  · omega

/-- There is slack enough. -/
theorem eseek_len (hf : Fits b d) (hb : Block d) (h0 : 0≤len) (hlen : len≤b.cesize) :
    ∃ b',eseek b d len .cur=some (b',d,len) ∧ readable b' d=readable b d++(slack b d).take len.toNat ∧
      slack b' d=(slack b d).drop len.toNat := by
  obtain ⟨b',r,he,hbec⟩ := eseek_spec hf hb len .cur
  have hint := hb.int
  have h1 := hf.rbeg
  have h2 := hf.rend
  have h3 := hf.wbeg
  have h4 := hf.size
  have h5 := hf.maxs
  unfold Buf.cesize at hlen
  unfold intMax at hint
  have hwrap : wrap (b.rend+len)=b.rend+len := (wrap_cases _).2.2.1 (by omega) (by omega)
  have hr : r=len := by
    unfold eseek at he
    simp only [hwrap,iclamp_mid (show b.rbeg≤b.rend+len by omega) (show b.rend+len≤b.wbeg by omega),Option.some.injEq,
      Prod.mk.injEq] at he
    omega
  subst hr
  have htoNat : ((readable b d).length+r).toNat=(readable b d).length+r.toNat := by omega
  refine ⟨b',he,?_,?_⟩
  · rw [hbec.readable,htoNat,List.take_length_add_append]
  · rw [hbec.slack,htoNat,List.drop_length_add_append]

/-- The fast path, or the first state of the slow one. -/
theorem start_inv {input : List Byte} {mem : Mem} (hf : Fits b d) (hb : Block d) (hlen : len≤ intMax)
    (h : start b d input len mem=some s) : Inv b d len s := by
  unfold start readMustPrep at h
  obtain ⟨x,hx,rfl⟩ := Option.map_eq_some_iff.mp h
  have hslack := length_slack hf hb
  split at hx
  · rename_i hneg
    cases hx
    exact ⟨rfl,.inl ⟨.inr (.inr rfl),fun hpos => absurd hpos (by decide),fun _ => ⟨rfl,rfl⟩⟩⟩
  · rename_i hpos
    split at hx
    · rename_i hge
      obtain ⟨b',he,hread,htail⟩ := eseek_len hf hb (not_le.mp hpos).le hge
      rw [he] at hx
      cases hx
      have hle : len.toNat≤(slack b d).length := by
        unfold Buf.cesize at hge
        omega
      refine ⟨rfl,.inl ⟨.inr (.inr rfl),fun _ => ⟨rfl,?_,?_⟩,fun hneg => (hpos hneg).elim⟩⟩
      · rw [List.take_append_of_le_length hle]
        exact hread
      · rw [List.drop_append_of_le_length hle]
        exact congrArg (·++input) htail
    · rename_i hlt
      obtain ⟨y,hy,rfl⟩ := Option.map_eq_some_iff.mp hx
      unfold Buf.cesize at hlt hy
      have hshort : (slack b d).length<len := by omega
      obtain ⟨hk,hroom⟩ := resizew_keeps hf hb (show len-(b.wbeg-b.rend)≤ intMax by omega) hy
      cases hres : y.2.2 with
      | false =>
        rw [if_pos rfl]
        refine ⟨rfl,.inl ⟨.inr (.inr rfl),fun hpos => absurd hpos (by decide),fun _ => ⟨hk.readable,?_⟩⟩⟩
        exact congrArg (·++input) hk.slack
      | true =>
        have hroom := hroom hres
        rw [if_neg (by decide)]
        refine ⟨rfl,_,rfl,⟨hk.fits,hk.grows.block,hk.readable,rfl,le_rfl,?_,hroom,⟨le_rfl,?_⟩,hshort,⟨[],?_,rfl,?_⟩,
          rfl⟩,?_⟩
        · change 0+(len-(b.wbeg-b.rend))≤ intMax
          omega
        · change 0≤len-(b.wbeg-b.rend)
          omega
        · rw [List.append_nil]
          exact hk.slack
        · change []=[]++seg _ _ (y.1.wbeg+0).toNat
          rw [add_zero,seg_self]
          rfl
        · change 0<len-(b.wbeg-b.rend)
          omega

theorem read_has {n : ℕ} (h : Has b d len s t m) (hn : m+n≤t.ioLen) (hin : n≤ s.input.length) :
    ∃ u,s.read t m n=some u ∧ Has b d len u t (m+n) ∧ u.stopped=s.stopped ∧ u.result=s.result ∧ u.stm=s.stm := by
  have h1 := h.fits.rbeg
  have h2 := h.fits.rend
  have h3 := h.fits.wbeg
  have h4 := h.fits.size
  have h5 := h.fits.maxs
  have h6 := h.block.room
  have h7 := h.run
  have h8 := h.room
  have hlen : (s.input.take n).length=n := List.length_take_of_le hin
  have hpos : (t.pos+m).toNat=(s.buf.wbeg+m).toNat := by rw [h.place]
  have hfit : (s.buf.wbeg+m).toNat+(s.input.take n).length≤ s.data.data.length := by omega
  have hplace := h.place
  have hbelow (a c : ℕ) (hc : c≤ s.buf.wbeg.toNat) :
      seg (put s.data.data (s.buf.wbeg+m).toNat (s.input.take n)) a c=seg s.data.data a c :=
    seg_put_off hfit (.inl (by omega))
  unfold Sys.read
  rw [store_some (by omega) (by omega),hpos]
  refine ⟨_,rfl,⟨⟨h1,h2,h3,h4,h5⟩,⟨?_,h.block.int⟩,?_,h.place,h.total,h.sum,h.room,⟨by omega,hn⟩,h.short,?_,?_⟩,
    rfl,rfl,rfl⟩
  · simp only [length_put hfit]
    exact h6
  · exact (hbelow s.buf.rbeg.toNat s.buf.rend.toNat (by omega)).trans h.same
  · obtain ⟨g,hg,hgl,hgot⟩ := h.tail
    refine ⟨g,(hbelow s.buf.rend.toNat s.buf.wbeg.toNat le_rfl).trans hg,hgl,?_⟩
    · have hend : (s.buf.wbeg+(m+n)).toNat=(s.buf.wbeg+m).toNat+(s.input.take n).length := by omega
      simp only
      rw [hend,← seg_append (by omega : s.buf.wbeg.toNat≤(s.buf.wbeg+m).toNat) (Nat.le_add_right _ _),
        seg_put_off hfit (.inl le_rfl),seg_put_self hfit,hgot,List.append_assoc]
  · simp only
    rw [List.append_assoc,List.take_append_drop]
    exact h.fed

/-- A positive result of the slow path: nothing has become readable. -/
theorem ended_pos (hsame : readable s.buf s.data=readable b d) (hshort : (slack b d).length<len) (hs : s.stopped=false)
    (hgot : s.got≠[]) (hfed : s.got++s.input=s.fed) (hr : 0<r) : Ended b d len s r := by
  refine .inr ⟨hshort,hs,hgot,fun hk => ?_⟩
  obtain ⟨-,hread,-⟩ := hk.pos hr
  rw [hsame] at hread
  have hnil := List.self_eq_append_right.mp hread
  rcases List.take_eq_nil_iff.mp hnil with hzero | hnil
  · omega
  · rw [← hfed] at hnil
    exact hgot (List.append_eq_nil_iff.mp (List.append_eq_nil_iff.mp hnil).2).1

theorem posted_neg (h : Has b d len s t m) (hs : s.stopped=false) (hnone : s.result=none) (hr : r<0)
    (hw : r=dpeWait → m=0 ∧ 0<t.ioLen) :
    ∃ x,readMustPost s.buf s.data t r=some x ∧ Inv b d len (s.posted x) := by
  refine ⟨_,if_pos hr.le,?_⟩
  obtain ⟨g,hg,hgl,hgot⟩ := h.tail
  unfold Sys.posted
  by_cases hpos : 0<t.total
  · simp only [if_pos hpos]
    have hne : t.total≠dpeWait := fun hw => by
      rw [hw] at hpos
      exact absurd hpos (by decide)
    rw [if_neg hne]
    refine ⟨rfl,ended_pos h.same h.short hs (fun hnil => ?_) h.fed hpos⟩
    rw [show s.got=[] from hnil] at hgot
    rw [(List.append_eq_nil_iff.mp hgot.symm).1] at hgl
    simp only [List.length_nil] at hgl
    omega
  · simp only [if_neg hpos]
    have hzero : g=[] := List.length_eq_zero_iff.mp (by have := h.total; omega)
    rw [hzero,List.append_nil] at hg
    rw [hzero,List.nil_append] at hgot
    split
    · rename_i hwait
      obtain ⟨rfl,hlen⟩ := hw hwait
      simp only [Inv,hnone]
      exact ⟨hs,t,rfl,⟨h.fits,h.block,h.same,h.place,h.total,h.sum,h.room,h.run,h.short,h.tail,h.fed⟩,hlen⟩
    · refine ⟨rfl,?_⟩
      by_cases hnil : s.got=[]
      · refine .inl ⟨.inr (.inr hnil),fun hp => absurd hp (not_lt.mpr hr.le),fun _ => ⟨h.same,?_⟩⟩
        have hfed := h.fed
        rw [hnil,List.nil_append] at hfed
        rw [← hfed]
        exact congrArg (·++s.input) hg
      · refine .inr ⟨h.short,hs,hnil,fun hk => hnil ?_⟩
        obtain ⟨-,heq⟩ := hk.neg hr.le
        simp only [hg,← h.fed] at heq
        have hlen := congrArg List.length heq
        simp only [List.length_append] at hlen
        exact List.length_eq_zero_iff.mp (by omega)

theorem posted_pos (h : Has b d len s t m) (hs : s.stopped=false) (hnone : s.result=none) (hm : 0< m) :
    ∃ x,readMustPost s.buf s.data t m=some x ∧ Inv b d len (s.posted x) := by
  have h1 := h.fits.rbeg
  have h2 := h.fits.rend
  have h3 := h.fits.wbeg
  have h4 := h.fits.size
  have h5 := h.fits.maxs
  have h6 := h.block.int
  have h7 := h.run
  have h8 := h.room
  have h9 := h.total
  have h10 := h.sum
  have h11 := h.block.room
  unfold intMax at h6 h10
  obtain ⟨g,hg,hgl,hgot⟩ := h.tail
  have hwrap : wrap (s.buf.wbeg+m)=s.buf.wbeg+m := (wrap_cases _).2.2.1 (by omega) (by omega)
  have hint : int32 (t.total+m)=t.total+m := (wrap_cases _).2.2.1 (by omega) (by omega)
  have hseek : wseek s.buf s.data m .cur=some ({s.buf with wbeg := s.buf.wbeg+m},s.data,m) := by
    unfold wseek
    have hmid : iclamp (s.buf.wbeg+m) s.buf.rend s.buf.size=s.buf.wbeg+m := iclamp_mid (by omega) (by omega)
    simp [hwrap,hmid]
  have hgl' : (seg s.data.data s.buf.wbeg.toNat (s.buf.wbeg+m).toNat).length=m.toNat := by
    rw [length_seg (by omega)]
    omega
  have hgotne : s.got≠[] := fun hnil => by
    rw [hnil] at hgot
    have := (List.append_eq_nil_iff.mp hgot.symm).2
    rw [this] at hgl'
    simp only [List.length_nil] at hgl'
    omega
  have ha : s.buf.rend.toNat≤ s.buf.wbeg.toNat := by omega
  have hc : s.buf.wbeg.toNat≤(s.buf.wbeg+m).toNat := by omega
  have hslack : slack {s.buf with wbeg := s.buf.wbeg+m} s.data=slack b d++s.got := by
    rw [hgot,← List.append_assoc,← hg]
    exact (seg_append ha hc).symm
  have hpos : 0<t.total+m := by omega
  unfold readMustPost
  rw [if_neg (not_le.mpr hm)]
  simp only [hint,hseek,Option.map_some]
  refine ⟨_,rfl,?_⟩
  unfold Sys.posted
  by_cases hge : t.total+m≥t.ioLen
  · simp only [if_pos hge]
    have hne : t.total+m≠dpeWait := fun hw => by
      rw [hw] at hpos
      exact absurd hpos (by decide)
    rw [if_neg hne]
    exact ⟨rfl,ended_pos h.same h.short hs hgotne h.fed hpos⟩
  · simp only [if_neg hge,↓reduceIte]
    simp only [Inv,hnone]
    have hlen : (s.got.length : ℤ)=t.total+m := by
      rw [hgot,List.length_append,hgl']
      omega
    have hfits : Fits {s.buf with wbeg := s.buf.wbeg+m} s.data := ⟨h1,h2,by simp only; omega,by simp only; omega,h5⟩
    refine ⟨hs,_,rfl,⟨hfits,h.block,h.same,rfl,hpos.le,?_,?_,⟨le_rfl,?_⟩,h.short,⟨s.got,hslack,hlen,?_⟩,h.fed⟩,?_⟩
    · change t.total+m+(t.ioLen-m)≤2147483647
      omega
    · change t.ioLen-m≤ s.buf.size-(s.buf.wbeg+m)
      omega
    · change 0≤t.ioLen-m
      omega
    · simp
    · change 0<t.ioLen-m
      omega

/-- One call of `_dpaio_buf_post`, and what the two post functions make of it. -/
theorem call_inv (h : Has b d len s t m) (hlt : m<t.ioLen) (hs : s.stopped=false) (hnone : s.result=none)
    (ht : s.stm=some t) (hg : c.res≤t.ioLen-m ∧ c.res≤ s.input.length ∧ (c.res<0 → 0<c.errno))
    (hu : ((s.read t m c.res.toNat).bind fun s =>
      match dpaioBufPost t.ioLen ∅ m c with
      | (total,none) => some {s with run := some total}
      | (_,some p) => (readMustPost s.buf s.data t p.ret).map s.posted)=some u) : Inv b d len u := by
  obtain ⟨hroom,hin,herr⟩ := hg
  have hrun := h.run
  obtain ⟨v,hv,hhas,hstop,hres,hstm⟩ := read_has (n := c.res.toNat) h (by omega) (by omega)
  rw [hv,Option.bind_some] at hu
  have hs := hstop.trans hs
  have hnone := hres.trans hnone
  -- what the post function has returned
  have hpost (p : Dpret) (hx : ∃ x,readMustPost v.buf v.data t p=some x ∧ Inv b d len (v.posted x))
      (hu : (readMustPost v.buf v.data t p).map v.posted=some u) : Inv b d len u := by
    obtain ⟨x,hx,hinv⟩ := hx
    rw [hx] at hu
    cases hu
    exact hinv
  unfold dpaioBufPost StreamIo.loopTurn at hu
  rcases lt_trichotomy c.res 0 with hneg | hzero | hpos
  · have hn : c.res.toNat=0 := Int.toNat_of_nonpos hneg.le
    rw [hn,Nat.cast_zero,add_zero] at hhas
    rw [if_neg (not_lt.mpr hneg.le),if_neg hneg.ne] at hu
    by_cases hm : 0< m
    · rw [if_pos hm] at hu
      exact hpost m (posted_pos hhas hs hnone hm) hu
    · rw [if_neg hm] at hu
      have hr : -(c.errno : ℤ)<0 := by
        have := herr hneg
        omega
      have hzero : m=0 := by omega
      exact hpost _ (posted_neg hhas hs hnone hr fun _ => ⟨hzero,hzero▸hlt⟩) hu
  · have hn : c.res.toNat=0 := by rw [hzero]; rfl
    rw [hn,Nat.cast_zero,add_zero] at hhas
    rw [if_neg (by omega),if_pos hzero] at hu
    exact hpost dpeEof (posted_neg hhas hs hnone (by decide) fun hw => absurd hw (by decide)) hu
  · have hn : ((c.res.toNat : ℕ) : ℤ)=c.res := Int.toNat_of_nonneg hpos.le
    have hsum := h.sum
    have htotal := h.total
    unfold intMax at hsum
    have hint : int32 (m+c.res)=m+c.res := (wrap_cases _).2.2.1 (by omega) (by omega)
    rw [hn] at hhas
    rw [if_pos hpos,hint] at hu
    by_cases hfull : m+c.res=t.ioLen
    · rw [if_pos hfull] at hu
      exact hpost _ (posted_pos hhas hs hnone (by omega)) hu
    · rw [if_neg hfull] at hu
      cases hu
      simp only [Inv,hnone]
      refine ⟨hs,t,hstm.trans ht,⟨hhas.fits,hhas.block,hhas.same,hhas.place,hhas.total,hhas.sum,hhas.room,hhas.run,
        hhas.short,hhas.tail,hhas.fed⟩,?_⟩
      change m+c.res<t.ioLen
      omega

theorem inv_step {a : Act} (h : Inv b d len s) (hu : step s a=some u) : Inv b d len u := by
  unfold Inv at h
  cases hres : s.result with
  | some r =>
    rw [hres] at h
    obtain ⟨hstm,hend⟩ := h
    cases a with
    | arrive x =>
      simp only [step,hres] at hu
      cases hu
    | post =>
      simp only [step,hstm] at hu
      cases hu
    | call c =>
      simp only [step,hstm] at hu
      cases hu
    | stop e =>
      simp [step,hstm] at hu
  | none =>
    rw [hres] at h
    obtain ⟨hs,t,hstm,hhas,hlt⟩ := h
    cases a with
    | arrive x =>
      simp only [step,hres,↓reduceIte] at hu
      cases hu
      refine ⟨hs,t,hstm,?_,hlt⟩
      exact ⟨hhas.fits,hhas.block,hhas.same,hhas.place,hhas.total,hhas.sum,hhas.room,hhas.run,hhas.short,hhas.tail,
        by rw [← hhas.fed,List.append_assoc]⟩
    | post =>
      cases hrun : s.run with
      | some m =>
        simp only [step,hstm,hrun] at hu
        cases hu
      | none =>
        simp only [step,hstm,hrun] at hu
        cases hu
        rw [hrun] at hhas hlt
        simp only [Inv,hres]
        exact ⟨hs,t,rfl,⟨hhas.fits,hhas.block,hhas.same,hhas.place,hhas.total,hhas.sum,hhas.room,hhas.run,hhas.short,
          hhas.tail,hhas.fed⟩,hlt⟩
    | call c =>
      cases hrun : s.run with
      | none =>
        simp only [step,hstm,hrun] at hu
        cases hu
      | some m =>
        simp only [step,hstm,hrun] at hu
        split at hu
        · rename_i hg
          rw [hrun] at hhas hlt
          exact call_inv hhas hlt hs hres hstm hg hu
        · cases hu
    | stop e =>
      simp only [step] at hu
      split at hu
      · rename_i hg
        obtain ⟨hneg,hrun,-⟩ := hg
        cases hu
        rw [hrun] at hhas
        obtain ⟨g,hg,-,hgot⟩ := hhas.tail
        refine ⟨rfl,.inl ⟨.inr (.inl rfl),fun hp => absurd hp (not_lt.mpr hneg.le),fun _ => ⟨hhas.same,?_⟩⟩⟩
        simp only [Option.getD_none,add_zero,seg_self,List.append_nil] at hgot
        simp only
        rw [hg,← hhas.fed,hgot,List.append_assoc]
      · cases hu

theorem read_must {s0 : Sys σ} {input : List Byte} {mem : Mem} (hf : Fits b d) (hb : Block d) (hlen : len≤ intMax)
    (h0 : start b d input len mem=some s0) (h : Reach step anyStep s0 s) (hr : s.result=some r) :
    Kept b d len s r ↔ (len≤(slack b d).length ∨ s.stopped=true ∨ s.got=[]) := by
  have hinv : Inv b d len s := h.invariant (start_inv hf hb hlen h0) fun _ _ _ hi _ hu => inv_step hi hu
  simp only [Inv,hr] at hinv
  rcases hinv.2 with ⟨hc,hk⟩ | ⟨hshort,hstop,hgot,hk⟩
  · exact iff_of_true hk hc
  · refine iff_of_false hk ?_
    rintro (hle | hs | hg)
    · omega
    · rw [hstop] at hs
      cases hs
    · exact hgot hg

end Steps

/-- A block of eight bytes with four of them in it. -/
def block : Data := {data := [1,2,3,4,0,0,0,0,0], maxs := 8}

theorem block_ok : Block block := ⟨by decide,by decide⟩

def allSlack : Buf Unit := {data := (), wbeg := 4, size := 8}

/-- The four bytes are slack. -/
theorem read_must_slack :
    ∃ s : Sys Unit,s.result=some 3 ∧ readable s.buf s.data=[1,2,3] ∧ Kept allSlack block 3 s 3 := by
  have hf : Fits allSlack block := ⟨by decide,by decide,by decide,by decide,by decide⟩
  have hstart : start allSlack block [5] 3 none=some
      {buf := {data := (), rend := 3, wbeg := 4, size := 8}, data := block, input := [5], result := some 3, fed := [5]} := rfl
  exact ⟨_,rfl,by decide,(read_must hf block_ok (by decide) hstart .refl rfl).mpr (.inl (by decide))⟩

def noSlack : Buf Unit := {data := (), size := 8}

/-- Four bytes come through the fd. -/
def waits : List Act := [.arrive [5,6,7,8],.post,.call ⟨4,0⟩]

theorem read_must_waits : ¬∀ (b : Buf Unit) (d : Data) (input : List Byte) (len : ℤ) (mem : Mem) (s0 s : Sys Unit)
    (r : Dpret),Fits b d → Block d → 0<len → len≤ intMax → start b d input len mem=some s0 →
      Reach step anyStep s0 s → s.result=some r → Kept b d len s r := by
  intro hall
  have hf : Fits noSlack block := ⟨by decide,by decide,by decide,by decide,by decide⟩
  have hrun : ((start noSlack block [] 4 none).bind fun s0 => exec step s0 waits).any (fun s =>
      decide (s.result=some 4) && decide (readable s.buf s.data=[]) && decide (s.fed=[5,6,7,8]))=true := by decide +kernel
  obtain ⟨s,hs,hend⟩ := (Option.any_eq_true _ _).mp hrun
  obtain ⟨s0,h0,hs⟩ := Option.bind_eq_some_iff.mp hs
  obtain ⟨hend,hfed⟩ := Bool.and_eq_true_iff.mp hend
  obtain ⟨hres,hread⟩ := Bool.and_eq_true_iff.mp hend
  have hkept := hall noSlack block [] 4 none s0 s 4 hf block_ok (by decide) (by decide) h0 (exec_reach hs)
    (of_decide_eq_true hres)
  obtain ⟨-,hfour,-⟩ := hkept.pos (by decide)
  rw [of_decide_eq_true hread,of_decide_eq_true hfed] at hfour
  exact absurd hfour (by decide)

end Dpapp.ReadMust
