import Dpapp.WindowQueue
import Dpapp.DpbufFits

/-! # A dpbuf that owns its storage is a queue of bytes -/

set_option linter.unusedSectionVars false

namespace Dpapp.DpbufQueue
open Dpapp.Machine Dpapp.Segment Dpapp.Dpbuf Dpapp.DpbufSpec Dpapp.DpbufFits
open Dpapp.WindowQueue (Queue Op)

variable {β σ : Type*} [DecidableEq β] [DecidableEq σ]

/-! ### The two windows -/

def queue (b : Buf σ) (d : Data) : Queue Byte := ⟨readable b d,slack b d⟩

def view (h : Heap β σ) (i : β) : Option (Queue Byte) := (h.buf i).bind fun b => (h.store b.data).map fun d => queue b d

def queueOf (h : Heap β σ) (i : β) : Queue Byte := (view h i).getD {}

/-- No other live buffer has the storage of `i`. -/
def Alone (h : Heap β σ) (i : β) : Prop := ∀ b∈h.buf i,∀ j,∀ c∈h.buf j,c.data=b.data → j=i

section Views
variable {h : Heap β σ} {i j : β} {b b' c : Buf σ} {d d' e : Data}

theorem view_some (hb : h.buf i=some b) (hd : h.store b.data=some d) : view h i=some (queue b d) := by
  simp only [view,hb,hd,Option.bind_some,Option.map_some]

theorem queueOf_some (hb : h.buf i=some b) (hd : h.store b.data=some d) : queueOf h i=queue b d := by
  rw [queueOf,view_some hb hd,Option.getD_some]

theorem view_putBuf (h : Heap β σ) (i : β) (b : Buf σ) (d : Data) : view (putBuf h i b d) i=some (queue b d) :=
  view_some (putBuf_buf ..) (putBuf_store ..)

/-- The storage that a buffer of its own does not have. -/
theorem store_putBuf (ha : Alone h i) (hij : j≠i) (hc : h.buf i=some c) (hb : h.buf j=some b) (hh : b'.data=b.data) :
    (putBuf h j b' d').store c.data=h.store c.data := by
  have hne : c.data≠b'.data := fun he => hij (ha c hc j b hb (hh.symm.trans he.symm))
  exact Function.update_of_ne hne ..

theorem view_putBuf_ne (ha : Alone h i) (hij : j≠i) (hb : h.buf j=some b) (hh : b'.data=b.data) :
    view (putBuf h j b' d') i=view h i := by
  have hbuf : (putBuf h j b' d').buf i=h.buf i := putBuf_ne b' d' hij.symm
  cases hc : h.buf i with
  | none => simp only [view,hbuf,hc,Option.bind_none]
  | some c => simp only [view,hbuf,hc,Option.bind_some,store_putBuf ha hij hc hb hh]

theorem alone_putBuf (ha : Alone h i) (hb : h.buf j=some b) (hh : b'.data=b.data) : Alone (putBuf h j b' d') i := by
  have hold (k : β) (c : Buf σ) (hc : (putBuf h j b' d').buf k=some c) : ∃ c0,h.buf k=some c0 ∧ c0.data=c.data := by
    by_cases hk : k=j
    · subst hk
      rw [putBuf_buf] at hc
      cases hc
      exact ⟨b,hb,hh.symm⟩
    · rw [putBuf_ne b' d' hk] at hc
      exact ⟨c,hc,rfl⟩
  intro c hc k o ho hoc
  obtain ⟨c0,hc0,hc1⟩ := hold i c hc
  obtain ⟨o0,ho0,ho1⟩ := hold k o ho
  exact ha c0 hc0 k o0 ho0 (by rw [ho1,hoc,hc1])

end Views

/-! ### What each call does to the queue -/

/-- dpbuf_wbuf and dpbuf_readto: no more than there is, and all of it for a length that is not positive. -/
def copied (x : List Byte) (len : ℤ) : List Byte := if len≤0 then x else x.take len.toNat

/-- The bytes a call writes or reads. -/
def bytesOf (h : Heap β σ) : Act β σ → List Byte
  | .wdata _ data len _ => (data.getD []).take len.1.toNat
  | .wfill _ len v _ => List.replicate len.1.toNat v
  | .wstrv _ text _ => text.getD []
  | .wbuf _ j len _ _ => copied (queueOf h j).window len
  | .rdata i len => if len.1<0 then (queueOf h i).rest else (queueOf h i).rest.take len.1.toNat
  | .rmust i len => (queueOf h i).rest.take len.1.toNat
  | .rall i => (queueOf h i).rest
  | .readto i _ size _ => copied (queueOf h i).rest size
  | .rws i => (queueOf h i).rest.takeWhile isws
  | _ => []

def only (j i : β) (l : List (Op Byte)) : List (Op Byte) := if j=i then l else []

/-- The operations a call that returned `r` makes on the queue of `i`; dpbuf_eseek returns how far the
border has moved. -/
def effect (h : Heap β σ) (i : β) (a : Act β σ) (r : ℤ) : List (Op Byte) :=
  match a with
  | .wdata j _ _ _ | .wfill j _ _ _ | .wstrv j _ _ | .wbuf j _ _ _ _ => only j i [.write (bytesOf h a)]
  | .rdata j _ | .rmust j _ | .rall j | .rws j => only j i [.read (bytesOf h a).length]
  | .readto j k _ _ => only j i [.take (bytesOf h a).length]++
      only k i [.write (bytesOf h a),.border ((queueOf h k).window++(queueOf h k).rest++bytesOf h a).length]
  | .eseek j _ _ => only j i [.border ((queueOf h j).window.length+r).toNat]
  | _ => []

/-- The calls of a queue, and the arguments they are made for. -/
def valid : Act β σ → Prop
  | .wbuf _ _ _ consume _ => consume=false
  | .wstrv _ text _ => ∀ x∈text,x.length< intMax
  | .readto i j _ _ => i≠j
  | .wdata .. | .wfill .. | .rdata .. | .rmust .. | .rall .. | .rws .. | .eseek .. | .recycle .. | .resizew .. => True
  | _ => False

/-- What a call returns when it has not failed. -/
def succeeds (a : Act β σ) (r : ℤ) : Prop :=
  match a with
  | .eseek .. => True
  | _ => 0≤r

/-- A heap, and for each buffer the operations that have been made on its queue. -/
structure Traced (β σ : Type*) where
  heap : Heap β σ
  log : β → List (Op Byte) := fun _ => []

instance (a : Act β σ) (r : ℤ) : Decidable (succeeds a r) := by
  induction a using Act.casesOn <;> (dsimp only [succeeds]; infer_instance)

instance (a : Act β σ) : Decidable (valid a) := by
  induction a using Act.casesOn <;> (dsimp only [valid]; infer_instance)

def tstep (t : Traced β σ) (a : Act β σ) : Option (Traced β σ) :=
  (step t.heap a).bind fun (h,r) =>
    if succeeds a r then some {heap := h, log := fun i => t.log i++effect t.heap i a r} else none

section Single
variable {h h' : Heap β σ} {i j : β} {q : Queue Byte}

/-- The queue of `i` after a call: sound, still alone, and moved by `l`. -/
structure Moves (h h' : Heap β σ) (i : β) (l : List (Op Byte)) : Prop where
  sound : Sound h'
  alone : Alone h' i
  view : ∀ q,view h i=some q → view h' i=some (WindowQueue.run q l)

theorem moves_putBuf {b b' : Buf σ} {d d' : Data} (hs : Sound h) (ha : Alone h i) (hb : h.buf j=some b)
    (hd : h.store b.data=some d) (l : List (Op Byte))
    (hbc : Becomes b d b' d' (WindowQueue.run (queue b d) l).window (WindowQueue.run (queue b d) l).rest) :
    Moves h (putBuf h j b' d') i (only j i l) := by
  refine ⟨sound_putBuf hs hb hd hbc.fits hbc.grows hbc.home,alone_putBuf ha hb hbc.home,fun q hq => ?_⟩
  by_cases hj : j=i
  · subst hj
    rw [view_some hb hd] at hq
    cases hq
    rw [view_putBuf,only,if_pos rfl,queue,hbc.readable,hbc.slack]
  · rw [view_putBuf_ne ha hj hb hbc.home,hq,only,if_neg hj]
    rfl

theorem moves_refl (hs : Sound h) (ha : Alone h i) : Moves h h i [] := ⟨hs,ha,fun _ hq => hq⟩

theorem on_back {γ : Type*} {f : Buf σ → Data → Option (Buf σ × Data × γ)} {r : γ} (he : h.on j f=some (h',r)) :
    ∃ b d b' d',h.buf j=some b ∧ h.store b.data=some d ∧ f b d=some (b',d',r) ∧
      (b'.data=b.data → h'=putBuf h j b' d') := by
  obtain ⟨b,hb,h1⟩ := Option.bind_eq_some_iff.mp he
  obtain ⟨d,hd,h2⟩ := Option.bind_eq_some_iff.mp h1
  obtain ⟨⟨b',d',r'⟩,hf,h3⟩ := Option.map_eq_some_iff.mp h2
  cases h3
  exact ⟨b,d,b',d',hb,hd,hf,fun hh => by rw [putBuf,hh]⟩

/-- A call on one buffer. -/
theorem single {f : Buf σ → Data → Option (Buf σ × Data × ℤ)} {r : ℤ} (hs : Sound h) (ha : Alone h i)
    (he : h.on j f=some (h',r)) (l : List (Op Byte)) (hf : ∀ b d b' d',h.buf j=some b → queueOf h j=queue b d →
      Fits b d → Block d → f b d=some (b',d',r) →
      Becomes b d b' d' (WindowQueue.run (queue b d) l).window (WindowQueue.run (queue b d) l).rest) :
    Moves h h' i (only j i l) := by
  obtain ⟨b,d,b',d',hb,hd,hfb,hh⟩ := on_back he
  obtain ⟨d0,hd0,hfit⟩ := hs.fits j b hb
  rw [hd] at hd0
  cases hd0
  have hbc := hf b d b' d' hb (queueOf_some hb hd) hfit (hs.block _ _ hd) hfb
  rw [hh hbc.home]
  exact moves_putBuf hs ha hb hd l hbc

/-- A write that has not failed. -/
theorem wrote {b b' : Buf σ} {d d' : Data} {x : List Byte} {n r : ℤ} {o : Dpbuf.Step σ} (hw : Writes b d x n o)
    (ho : o=some (b',d',r)) (hr : 0≤r) : Becomes b d b' d' (readable b d) (slack b d++x) := by
  obtain ⟨b1,d1,h1,hb⟩ | ⟨b1,d1,r1,h1,hr1,hk⟩ := hw
  · rw [h1] at ho
    cases ho
    exact hb
  · rw [h1] at ho
    cases ho
    obtain hneg | ⟨-,rfl⟩ := hr1
    · omega
    · rw [List.append_nil]
      exact hk

end Single

/-! ### Two buffers -/

section Two
variable {h h' : Heap β σ} {i j k : β}

theorem copied_take {x : List Byte} {o : Buf σ} (hx : (x.length : ℤ)=o.crsize) (len : ℤ) :
    x.take (wlen o len).toNat=copied x len := by
  unfold wlen copied
  split
  · rw [List.take_of_length_le (by omega)]
  · by_cases hl : len≤o.crsize
    · rw [min_eq_right hl]
    · rw [min_eq_left (by omega),List.take_of_length_le (by omega),List.take_of_length_le (by omega)]

theorem read_take {b : Buf σ} {d : Data} {n : ℤ} {x : List Byte} (hb : h.buf i=some b) (hd : h.store b.data=some d)
    (hf : Fits b d) (hn : n≤b.crsize) (hr : h.read i n=some x) : x=(readable b d).take n.toNat := by
  have h0 := hf.rbeg
  have h1 := hf.rend
  simp only [Heap.read,hb,hd,Option.bind_some,Data.load] at hr
  split at hr
  · cases hr
    unfold Buf.crsize at hn
    rw [readable,take_seg (by omega)]
    congr 1
    omega
  · cases hr

/-- dpbuf_wbuf, when it has not failed. -/
theorem wbuf_back {len r : ℤ} {mem : Mem} (hs : Sound h) (he : wbuf h j k len false mem=some (h',r)) (hr : 0≤r) :
    ∃ b d b' d' x,h.buf j=some b ∧ h.store b.data=some d ∧ h'=putBuf h j b' d' ∧ r=(x.length : ℤ) ∧
      x.length≤(queueOf h k).window.length ∧ Becomes b d b' d' (readable b d) (slack b d++x) ∧
      (j=k ∨ Alone h j → x=copied (queueOf h k).window len) ∧ (j≠k → Alone h k → x=copied (queueOf h k).window len) := by
  obtain ⟨o,ho,h1⟩ := Option.bind_eq_some_iff.mp he
  obtain ⟨⟨h2,ok⟩,h3,-⟩ := Option.bind_eq_some_iff.mp h1
  obtain ⟨b,d,b1',d1',hb,hd,hw,-⟩ := on_back h3
  obtain ⟨d0,hd0,hf⟩ := hs.fits j b hb
  rw [hd] at hd0
  cases hd0
  obtain ⟨e,hoe,hfo⟩ := hs.fits k o ho
  obtain ⟨hn0,hn1,-⟩ := wlen_le hfo (hs.block _ _ hoe) len
  have hbl := hs.block _ _ hd
  obtain ⟨b1,d1,ok1,hw1,hk,hs1,hno,hyes⟩ := wbuf_spec false mem hs hb hd ho fun href => wcheck_roomy hf hw href
  cases ok1 with
  | false =>
    rw [hno rfl] at he
    cases he
    unfold enomem at hr
    omega
  | true =>
    obtain ⟨x,b2,d2,hx,hxl,-,hbc,-,_,_,-,-,-,hwb⟩ := hyes rfl
    simp only [hwb,Bool.false_eq_true,if_false,Option.some.injEq,Prod.mk.injEq] at he
    obtain ⟨rfl,rfl⟩ := he
    rw [hk.readable,hk.slack] at hbc
    have hlen := length_readable hfo (hs.block _ _ hoe)
    have hcop : (readable o e).take (wlen o len).toNat=copied (queueOf h k).window len := by
      rw [copied_take hlen,queueOf_some ho hoe]
      rfl
    -- the bytes are read after the room has been made
    have hother (hjk : j≠k) (hne : o.data≠b1.data) : x=copied (queueOf h k).window len := by
      have hbuf : (putBuf h j b1 d1).buf k=some o := (putBuf_ne b1 d1 hjk.symm).trans ho
      have hst : (putBuf h j b1 d1).store o.data=some e := (Function.update_of_ne hne ..).trans hoe
      rw [←hcop]
      exact read_take hbuf hst hfo hn1 hx
    have hle : x.length≤(queueOf h k).window.length := by
      rw [queueOf_some ho hoe,queue]
      unfold Buf.crsize at hn1
      simp only
      omega
    refine ⟨b,d,b2,d2,x,hb,hd,rfl,hxl.symm,hle,keeps_then hk hbc,fun hcase => ?_,fun hjk ha => ?_⟩
    · by_cases hjk : j=k
      · subst hjk
        rw [hb] at ho
        cases ho
        rw [hd] at hoe
        cases hoe
        have hl1 := length_readable hk.fits hk.grows.block
        rw [hk.readable,hlen] at hl1
        rw [←hcop,←hk.readable]
        exact read_take (putBuf_buf ..) (putBuf_store ..) hk.fits (by unfold Buf.crsize at hn1 ⊢; omega) hx
      · refine hother hjk fun heq => hjk ?_
        exact ((hcase.resolve_left hjk) b hb k o ho (heq.trans hk.home)).symm
    · exact hother hjk fun heq => hjk (ha o ho j b hb (hk.home.symm.trans heq.symm))

theorem wbuf_moves {len : CInt} {r : ℤ} {mem : Mem} (hs : Sound h) (ha : Alone h i)
    (he : wbuf h j k len false mem=some (h',r)) (hr : 0≤r) :
    Moves h h' i (only j i [.write (copied (queueOf h k).window len)]) := by
  obtain ⟨b,d,b',d',x,hb,hd,rfl,-,-,hbc,hx,-⟩ := wbuf_back hs he hr
  by_cases hj : j=i
  · subst hj
    rw [←hx (.inr ha)]
    exact moves_putBuf hs ha hb hd _ hbc
  · have := moves_putBuf hs ha hb hd [.write x] hbc
    rwa [only,if_neg hj] at this ⊢

/-- dpbuf_readto to another buffer, when it has not failed: what it has written where. -/
theorem readto_back {size r : ℤ} {mem : Mem} (hs : Sound h) (hjk : j≠k) (he : readto h j k size mem=some (h',r)) (hr : 0≤r) :
    ∃ b d b1 c u c' u' e x,h.buf j=some b ∧ h.store b.data=some d ∧ Becomes b d b1 d (slack b d) [] ∧
      Sound (putBuf h j b1 d) ∧ (putBuf h j b1 d).buf k=some c ∧ (putBuf h j b1 d).store c.data=some u ∧
      Becomes c u c' u' ((readable c u++slack c u)++x) [] ∧
      (putBuf (putBuf h j b1 d) k c' u').store b1.data=some e ∧ (x.length : ℤ)≤b.wbeg-b.rend ∧
      h'=putBuf (putBuf (putBuf h j b1 d) k c' u') j
        {b1 with rend := b1.wbeg-(b.wbeg-b.rend-x.length), rbeg := b1.wbeg-(b.wbeg-b.rend-x.length)} e ∧
      (Alone h j ∨ Alone h k → x=copied (slack b d) size) ∧ b1.wbeg=b.wbeg := by
  obtain ⟨⟨h1,sz⟩,hon,he1⟩ := Option.bind_eq_some_iff.mp he
  obtain ⟨b,d,b1,d1,hb,hd,hfb,hh1⟩ := on_back hon
  obtain ⟨d0,hd0,hf⟩ := hs.fits j b hb
  rw [hd] at hd0
  cases hd0
  have hbl := hs.block _ _ hd
  obtain ⟨b2,hr2,hbc⟩ := rall_spec hf hbl
  rw [readtoBegin_rall,hr2] at hfb
  cases hfb
  have hw1 : b1.wbeg=b.wbeg := by
    unfold rall at hr2
    cases hr2
    rfl
  cases hh1 hbc.home
  have hs1 := sound_putBuf hs hb hd hbc.fits hbc.grows hbc.home
  simp only at he1
  split at he1
  · cases he1
    unfold enodata at hr
    omega
  · obtain ⟨⟨h2,wsz⟩,hwb,he2⟩ := Option.bind_eq_some_iff.mp he1
    obtain ⟨⟨h3,_⟩,hon3,he3⟩ := Option.bind_eq_some_iff.mp he2
    obtain ⟨o,e,o',e',ho,hoe,hend,hh'⟩ := on_back he3
    cases hend
    obtain ⟨c,u,c',u',x,hc,hu,rfl,rfl,hxl,hbc2,hx1,hx2⟩ := wbuf_back hs1 hwb hr
    obtain ⟨c2,u2,c3,u3,hc2,hu2,hset,hh3⟩ := on_back hon3
    rw [putBuf_buf] at hc2
    cases hc2
    rw [putBuf_store] at hu2
    cases hu2
    cases hset
    have h3e : h3=putBuf (putBuf h j b1 d) k {c' with rend := c'.wbeg} u' := (hh3 rfl).trans (putBuf_twice rfl)
    subst h3e
    rw [putBuf_ne _ _ hjk,putBuf_buf] at ho
    cases ho
    have hq : (queueOf (putBuf h j b1 d) j).window=slack b d := by
      rw [queueOf_some (putBuf_buf ..) (putBuf_store ..)]
      exact hbc.readable
    have hg0 := hbc2.fits.rbeg
    have hg1 := hbc2.fits.rend
    have hg2 := hbc2.fits.wbeg
    have hfit : Fits {c' with rend := c'.wbeg} u' := ⟨hg0,by simp only; omega,le_rfl,hbc2.fits.size,hbc2.fits.maxs⟩
    have hall : readable {c' with rend := c'.wbeg} u'=readable c u++slack c u++x := by
      have hcat : readable c' u'++slack c' u'=seg u'.data c'.rbeg.toNat c'.wbeg.toNat := seg_append (by omega) (by omega)
      rw [hbc2.readable,hbc2.slack,←List.append_assoc] at hcat
      exact hcat.symm
    refine ⟨b,d,b1,c,u,{c' with rend := c'.wbeg},u',e,x,hb,hd,hbc,hs1,hc,hu,
      ⟨hfit,hbc2.grows,hbc2.home,hall,by simp only [slack,seg_self],hbc2.spare⟩,hoe,?_,hh' rfl,?_,hw1⟩
    · have := length_slack hf hbl
      rw [hq] at hxl
      omega
    · rintro (ha | ha)
      · rw [←hq]
        exact hx2 hjk.symm (alone_putBuf ha hb hbc.home)
      · rw [←hq]
        exact hx1 (.inr (alone_putBuf ha hb hbc.home))

theorem readto_moves {size : CInt} {r : ℤ} {mem : Mem} (hs : Sound h) (ha : Alone h i) (hjk : j≠k)
    (he : readto h j k size mem=some (h',r)) (hr : 0≤r) :
    Moves h h' i (only j i [.take (copied (queueOf h j).rest size).length]++only k i
      [.write (copied (queueOf h j).rest size),
        .border ((queueOf h k).window++(queueOf h k).rest++copied (queueOf h j).rest size).length]) := by
  obtain ⟨b,d,b1,c,u,c',u',e,x,hb,hd,hbc,hs1,hc,hu,hbc2,hbe,hxl,rfl,hx,hw1⟩ := readto_back hs hjk he hr
  have hq : (queueOf h j).rest=slack b d := by rw [queueOf_some hb hd]; rfl
  rw [hq]
  obtain ⟨d0,hd0,hf⟩ := hs.fits j b hb
  rw [hd] at hd0
  cases hd0
  have h0 := hf.rbeg
  have h1 := hf.rend
  have hs2 := sound_putBuf hs1 hc hu hbc2.fits hbc2.grows hbc2.home
  have ha1 : Alone (putBuf h j b1 d) i := alone_putBuf ha hb hbc.home
  have ha2 : Alone (putBuf (putBuf h j b1 d) k c' u') i := alone_putBuf ha1 hc hbc2.home
  have hbb : (putBuf (putBuf h j b1 d) k c' u').buf j=some b1 := (putBuf_ne c' u' hjk).trans (putBuf_buf ..)
  obtain ⟨e0,he0,hfe⟩ := hs2.fits j b1 hbb
  rw [hbe] at he0
  cases he0
  have hback : 0≤b1.wbeg-(b.wbeg-b.rend-x.length) := by omega
  obtain ⟨b0,hend,hbc3⟩ := readtoEnd_spec hfe (hs2.block _ _ hbe) hback hxl
  cases hend
  refine ⟨sound_putBuf hs2 hbb hbe hbc3.fits hbc3.grows rfl,alone_putBuf ha2 hbb rfl,fun q hqi => ?_⟩
  by_cases hji : j=i
  · subst hji
    -- the reader: its storage is what it was, and it steps back to what was not copied
    rw [view_some hb hd] at hqi
    cases hqi
    rw [store_putBuf ha1 hjk.symm (putBuf_buf ..) hc hbc2.home,putBuf_store] at hbe
    cases hbe
    rw [←hx (.inl ha),view_putBuf,only,only,if_pos rfl,if_neg hjk.symm,List.append_nil]
    simp only [WindowQueue.run_cons,WindowQueue.run_nil,WindowQueue.act,queue,readable,slack,seg_self,drop_seg]
    congr 3
    · omega
    · omega
  · rw [view_putBuf_ne ha2 hji hbb hbc3.home,only,if_neg hji,List.nil_append]
    by_cases hki : k=i
    · subst hki
      -- the writer: all of it becomes readable
      have hqk : view (putBuf h j b1 d) k=view h k := view_putBuf_ne ha hjk hb hbc.home
      rw [hqi,view_some hc hu,Option.some.injEq] at hqk
      have hqq : queueOf h k=q := by rw [queueOf,hqi,Option.getD_some]
      rw [←hx (.inr ha),view_putBuf,only,if_pos rfl,hqq,←hqk,queue,hbc2.readable,hbc2.slack]
      simp only [WindowQueue.run_cons,WindowQueue.run_nil,WindowQueue.act,queue]
      rw [←List.append_assoc,List.take_length,List.drop_length]
    · rw [view_putBuf_ne ha1 hki hc hbc2.home,view_putBuf_ne ha hji hb hbc.home,hqi,only,if_neg hki]
      rfl

end Two

/-! ### Runs -/

section Runs
variable {h h' : Heap β σ} {i : β}

/-- One call: the queue of `i` makes the operations the call stands for. -/
theorem queue_step {a : Act β σ} {r : ℤ} (hs : Sound h) (ha : Alone h i) (hv : valid a) (he : step h a=some (h',r))
    (hr : succeeds a r) : Moves h h' i (effect h i a r) := by
  cases a with
  | wdata j data len mem =>
    refine single hs ha he _ fun b d b' d' _ _ hf hb hfb => ?_
    cases data with
    | none =>
      cases hfb
      unfold succeeds einval at hr
      omega
    | some p =>
      by_cases hl : len.1=0
      · rw [wdata,if_pos hl] at hfb
        cases hfb
        unfold succeeds einval at hr
        omega
      · have hbind := hfb
        rw [wdata,if_neg hl] at hbind
        obtain ⟨⟨b1,d1,ok⟩,hw,hrest⟩ := Option.bind_eq_some_iff.mp hbind
        have hlen : 0≤len.1 ∧ len.1≤p.length := by
          cases ok with
          | false =>
            cases hrest
            unfold succeeds enomem at hr
            omega
          | true =>
            obtain ⟨x,hx,-⟩ := Option.bind_eq_some_iff.mp hrest
            unfold bytes at hx
            split at hx
            · assumption
            · cases hx
        refine wrote (wdata_spec hf hb len.2.2 (fun q hq => ?_) (wcheck_roomy hf hw) mem) hfb hr
        cases hq
        exact hlen
  | wfill j len v mem =>
    refine single hs ha he _ fun b d b' d' _ _ hf hb hfb => ?_
    have hbind := hfb
    rw [wfill] at hbind
    obtain ⟨⟨b1,d1,ok⟩,hw,hrest⟩ := Option.bind_eq_some_iff.mp hbind
    have hlen : 0≤len.1 := by
      cases ok with
      | false =>
        cases hrest
        unfold succeeds enomem at hr
        omega
      | true =>
        simp only [if_true] at hrest
        split at hrest
        · cases hrest
        · omega
    exact wrote (wfill_spec hf hb hlen len.2.2 (wcheck_roomy hf hw) v mem) hfb hr
  | wstrv j text mem =>
    refine single hs ha he _ fun b d b' d' _ _ hf hb hfb => ?_
    refine wrote (wstrv_spec hf hb hv (fun x hx hne href => ?_) mem) hfb hr
    cases hx
    have hx := hv x rfl
    unfold intMax at hx
    have hw : wrap ((x.length : ℤ)+1)=x.length+1 := (wrap_cases _).2.2.1 (by omega) (by omega)
    have hpos := List.length_pos_iff.mpr hne
    simp only [wstrv,if_neg (by omega : ¬(x.length : ℤ)≤0)] at hfb
    obtain ⟨y,hy,-⟩ := Option.bind_eq_some_iff.mp hfb
    rw [hw] at hy
    exact wcheck_roomy hf hy href
  | wbuf j k len consume mem =>
    cases (hv : consume=false)
    exact wbuf_moves hs ha he hr
  | rdata j len =>
    refine single hs ha he _ fun b d b' d' _ hq hf hb hfb => ?_
    obtain ⟨b1,n,h1,hn0,hn,hbc⟩ := rdata_spec hf hb len
    rw [h1] at hfb
    cases hfb
    have hl := length_slack hf hb
    have hlen : (bytesOf h (.rdata j len : Act β σ)).length=r.toNat := by
      simp only [bytesOf,hq,queue]
      by_cases hneg : len.1<0
      · rw [if_pos hneg] at hn ⊢
        omega
      · rw [if_neg hneg] at hn ⊢
        rw [List.length_take]
        omega
    rw [hlen]
    exact hbc
  | rmust j len =>
    refine single hs ha he _ fun b d b' d' _ hq hf hb hfb => ?_
    have hl := length_slack hf hb
    obtain ⟨h0,hle,b1,h1,hbc⟩ | ⟨-,b1,h1,-⟩ := rmust_spec hf hb len
    · rw [h1] at hfb
      cases hfb
      have hlen : (bytesOf h (.rmust j len : Act β σ)).length=len.1.toNat := by
        simp only [bytesOf,hq,queue,List.length_take]
        omega
      rw [hlen]
      exact hbc
    · rw [h1] at hfb
      cases hfb
      unfold succeeds enodata at hr
      omega
  | rall j =>
    refine single hs ha he _ fun b d b' d' _ hq hf hb hfb => ?_
    obtain ⟨b1,h1,hbc⟩ := rall_spec hf hb
    rw [h1] at hfb
    cases hfb
    simpa only [bytesOf,hq,queue,WindowQueue.run_cons,WindowQueue.run_nil,WindowQueue.act,List.take_length,
      List.drop_length] using hbc
  | rws j =>
    refine single hs ha he _ fun b d b' d' _ hq hf hb hfb => ?_
    obtain ⟨b1,h1,hbc⟩ := rws_spec hf hb
    rw [h1] at hfb
    cases hfb
    simp only [bytesOf,hq]
    exact hbc
  | readto j k size mem => exact readto_moves hs ha hv he hr
  | eseek j offset w =>
    refine single hs ha he _ fun b d b' d' _ hq hf hb hfb => ?_
    obtain ⟨b1,r1,h1,hbc⟩ := eseek_spec hf hb offset w
    rw [h1] at hfb
    cases hfb
    rw [hq]
    exact hbc
  | recycle j force =>
    have hm := single hs ha he [] fun b d b' d' _ _ hf hb hfb => by
      have hroom (hc : (force || !b.norecycle)=true) : roomy b d := by
        rw [recycle,if_pos hc] at hfb
        obtain ⟨y,hy,-⟩ := Option.bind_eq_some_iff.mp hfb
        exact recycleData_roomy hy
      obtain ⟨b1,d1,h1,hk⟩ := recycle_spec hf hb hroom
      rw [h1] at hfb
      cases hfb
      exact hk
    rwa [only,ite_self] at hm
  | resizew j n mem =>
    have hm := single hs ha he [] fun b d b' d' _ _ hf hb hfb => by
      obtain ⟨⟨b1,d1,ok⟩,hrz,hx⟩ := Option.map_eq_some_iff.mp hfb
      obtain ⟨b2,d2,ok2,h1,hk,-⟩ := resizew_spec hf hb n.2.2 (fun h0 hn => resizew_roomy hrz h0 hn) mem
      rw [h1] at hrz
      cases hrz
      cases hx
      exact hk
    rwa [only,ite_self] at hm
  | _ => exact hv.elim

theorem moves_trans {h'' : Heap β σ} {l m : List (Op Byte)} (h1 : Moves h h' i l) (h2 : Moves h' h'' i m) :
    Moves h h'' i (l++m) :=
  ⟨h2.sound,h2.alone,fun q hq => by rw [WindowQueue.run_append]; exact h2.view _ (h1.view q hq)⟩

def queueCalls (_ : Traced β σ) (a : Act β σ) : Prop := valid a

instance (t : Traced β σ) (a : Act β σ) : Decidable (queueCalls t a) := inferInstanceAs (Decidable (valid a))

theorem queue_run {t : Traced β σ} (hs : Sound h) (ha : Alone h i) (hr : Reach tstep queueCalls {heap := h} t) :
    Moves h t.heap i (t.log i) := by
  refine hr.invariant (I := fun t => Moves h t.heap i (t.log i)) (moves_refl hs ha) fun t a u ht hv hu => ?_
  obtain ⟨⟨h',r⟩,he,hx⟩ := Option.bind_eq_some_iff.mp hu
  simp only at hx
  split at hx
  · rename_i hok
    cases hx
    exact moves_trans ht (queue_step ht.sound ht.alone hv he hok)
  · cases hx

end Runs

/-- A buffer that owns its storage is the queue its log says it is: what was dropped and the two windows are
what there was and what was written, and while nothing moves the border, what was read is a prefix of that. -/
theorem dpbuf_fifo {h : Heap β σ} {i : β} {q : Queue Byte} {t : Traced β σ} (hs : Sound h) (ha : Alone h i)
    (hq : view h i=some q) (hr : Reach tstep queueCalls {heap := h} t) :
    view t.heap i=some (WindowQueue.run q (t.log i)) ∧
    WindowQueue.gone q (t.log i)++(WindowQueue.run q (t.log i)).window++(WindowQueue.run q (t.log i)).rest=
      q.window++q.rest++WindowQueue.given (t.log i) ∧
    ((∀ o∈t.log i,WindowQueue.border o=false) → WindowQueue.got q (t.log i) <+: q.rest++WindowQueue.given (t.log i)) :=
  ⟨(queue_run hs ha hr).view q hq,WindowQueue.run_conserves q _,fun hl => WindowQueue.got_prefix q hl⟩

/-- Two new buffers of four bytes. -/
def fresh : Heap (Fin 2) (Fin 2) :=
  (new (new {} 0 0 4 (some fun _ => 7)).1 1 1 4 (some fun _ => 7)).1

theorem fresh_start : Sound fresh ∧ Alone fresh 0 ∧ view fresh 0=some {} := by
  refine ⟨sound_new (sound_new sound_nothing rfl rfl) (by decide) (by decide),?_,rfl⟩
  unfold Alone
  decide +kernel

/-- "ab" and "c" are written, and read across a reallocation and to the other buffer. -/
theorem dpbuf_fifo_pair : ∃ t : Traced (Fin 2) (Fin 2),
    t.log 0=[.write [97,98],.read 1,.write (List.replicate 4 99),.take 2] ∧
    view t.heap 0=some (WindowQueue.run {} (t.log 0)) ∧
    WindowQueue.gone {} (t.log 0)++(WindowQueue.run {} (t.log 0)).window++(WindowQueue.run {} (t.log 0)).rest=
      WindowQueue.given (t.log 0) ∧ WindowQueue.got {} (t.log 0) <+: WindowQueue.given (t.log 0) := by
  have hrun : (execOk tstep queueCalls {heap := fresh} [.wdata 0 (some [97,98]) ⟨2,by decide⟩ none,.rdata 0 ⟨1,by decide⟩,
      .wfill 0 ⟨4,by decide⟩ 99 (some fun _ => 7),.readto 0 1 ⟨2,by decide⟩ none]).any (fun t =>
        decide (t.log 0=[.write [97,98],.read 1,.write (List.replicate 4 99),.take 2]))=true := by decide +kernel
  obtain ⟨t,ht,hf⟩ := (Option.any_eq_true _ _).mp hrun
  have hlog := of_decide_eq_true hf
  obtain ⟨hs,ha,hq⟩ := fresh_start
  obtain ⟨h1,h2,h3⟩ := dpbuf_fifo hs ha hq (execOk_reach ht)
  exact ⟨t,hlog,h1,h2,h3 (by rw [hlog]; decide)⟩

/-- dpbuf_eseek takes the border back, and a byte is read twice. -/
theorem dpbuf_fifo_twice : ¬∀ t : Traced (Fin 2) (Fin 2),Reach tstep queueCalls {heap := fresh} t →
    WindowQueue.got {} (t.log 0) <+: WindowQueue.given (t.log 0) := by
  intro hall
  have hrun : (execOk tstep queueCalls {heap := fresh} [.wdata 0 (some [97,98]) ⟨2,by decide⟩ none,.rdata 0 ⟨1,by decide⟩,
      .eseek 0 ⟨-1,by decide⟩ .cur,.rdata 0 ⟨1,by decide⟩]).any (fun t =>
        decide (WindowQueue.got {} (t.log 0)=[97,97] ∧ WindowQueue.given (t.log 0)=[97,98]))=true := by decide +kernel
  obtain ⟨t,ht,hf⟩ := (Option.any_eq_true _ _).mp hrun
  obtain ⟨h1,h2⟩ := of_decide_eq_true hf
  have := hall t (execOk_reach ht)
  rw [h1,h2] at this
  exact absurd this (by decide)

end Dpapp.DpbufQueue
