import Dpapp.DpbufSpec
import Dpapp.Machine

/-! # The cursors stay in the storage -/

set_option linter.unusedSectionVars false

namespace Dpapp.DpbufFits
open Dpapp.Machine Dpapp.Segment Dpapp.Dpbuf Dpapp.DpbufSpec

variable {β σ : Type*} [DecidableEq β] [DecidableEq σ]

/-! ### Heaps -/

/-- Each buffer has its storage, and each storage is counted. -/
structure Sound (h : Heap β σ) : Prop where
  fits : ∀ i b,h.buf i=some b → ∃ d,h.store b.data=some d ∧ Fits b d
  block : ∀ s d,h.store s=some d → Block d
  refs : ∀ s d,h.store s=some d →
    ∃ F : Finset β,(∀ j,j∈F ↔ ∃ b,h.buf j=some b ∧ b.data=s) ∧ F.card=d.refc ∧ F.Nonempty

def putBuf (h : Heap β σ) (i : β) (b : Buf σ) (d : Data) : Heap β σ :=
  {buf := Function.update h.buf i (some b), store := Function.update h.store b.data (some d)}

section Heap
variable {h : Heap β σ} {i j : β} {b b' o : Buf σ} {d d' e : Data}

theorem on_some {γ : Type*} {f : Buf σ → Data → Option (Buf σ × Data × γ)} {r : γ} (hi : h.buf i=some b)
    (hd : h.store b.data=some d) (hf : f b d=some (b',d',r)) (hh : b'.data=b.data) : h.on i f=some (putBuf h i b' d',r) := by
  simp [Heap.on,hi,hd,hf,putBuf,hh]

theorem putBuf_buf (h : Heap β σ) (i : β) (b : Buf σ) (d : Data) : (putBuf h i b d).buf i=some b := Function.update_self ..

theorem putBuf_ne (b : Buf σ) (d : Data) (hj : j≠i) : (putBuf h i b d).buf j=h.buf j := Function.update_of_ne hj ..

theorem putBuf_store (h : Heap β σ) (i : β) (b : Buf σ) (d : Data) : (putBuf h i b d).store b.data=some d :=
  Function.update_self ..

theorem putBuf_twice {b'' : Buf σ} {d'' : Data} (hh : b''.data=b'.data) : putBuf (putBuf h i b' d') i b'' d''=putBuf h i b'' d'' := by
  simp [putBuf,hh]

/-- An operation on one buffer leaves the others sound, also those on the same storage. -/
theorem sound_putBuf (hs : Sound h) (hi : h.buf i=some b) (hd : h.store b.data=some d) (hf : Fits b' d') (hg : Grows d d')
    (hh : b'.data=b.data) : Sound (putBuf h i b' d') := by
  have hdata (j : β) (s : σ) : (∃ c,(putBuf h i b' d').buf j=some c ∧ c.data=s) ↔ ∃ c,h.buf j=some c ∧ c.data=s := by
    by_cases hj : j=i
    · subst hj
      simp [putBuf_buf,hi,hh]
    · rw [putBuf_ne b' d' hj]
  constructor
  · intro j c hc
    by_cases hj : j=i
    · subst hj
      rw [putBuf_buf] at hc
      cases hc
      exact ⟨d',putBuf_store ..,hf⟩
    · rw [putBuf_ne b' d' hj] at hc
      obtain ⟨e,he,hfe⟩ := hs.fits j c hc
      by_cases hcd : c.data=b'.data
      · rw [hcd,hh,hd] at he
        cases he
        exact ⟨d',by rw [hcd]; exact putBuf_store ..,hfe.grows hg⟩
      · exact ⟨e,by simp only [putBuf]; rw [Function.update_of_ne hcd]; exact he,hfe⟩
  · intro s e he
    by_cases hsd : s=b'.data
    · subst hsd
      rw [putBuf_store] at he
      cases he
      exact hg.block
    · simp only [putBuf] at he
      rw [Function.update_of_ne hsd] at he
      exact hs.block s e he
  · intro s e he
    have hrefs (e' : Data) (he' : h.store s=some e') (hr : e.refc=e'.refc) :
        ∃ F : Finset β,(∀ j,j∈F ↔ ∃ c,(putBuf h i b' d').buf j=some c ∧ c.data=s) ∧ F.card=e.refc ∧ F.Nonempty := by
      obtain ⟨F,hF,hcard,hne⟩ := hs.refs s e' he'
      exact ⟨F,fun j => (hF j).trans (hdata j s).symm,hcard.trans hr.symm,hne⟩
    by_cases hsd : s=b'.data
    · subst hsd
      rw [putBuf_store] at he
      cases he
      exact hrefs d (by rw [hh]; exact hd) hg.refc
    · simp only [putBuf] at he
      rw [Function.update_of_ne hsd] at he
      exact hrefs e he rfl

/-- An operation on one buffer, from what it does to it. -/
theorem on_sound {γ : Type*} {f : Buf σ → Data → Option (Buf σ × Data × γ)} {r : γ} {w s : List Byte} (hs : Sound h)
    (hi : h.buf i=some b) (hd : h.store b.data=some d) (hf : f b d=some (b',d',r)) (hb : Becomes b d b' d' w s) :
    ∃ h' r,h.on i f=some (h',r) ∧ Sound h' :=
  ⟨_,r,on_some hi hd hf hb.home,sound_putBuf hs hi hd hb.fits hb.grows hb.home⟩

end Heap

/-! ### Two buffers -/

/-- How much dpbuf_wbuf copies. -/
def wlen (o : Buf σ) (len : ℤ) : ℤ := if len≤0 then o.crsize else min o.crsize len

section Two
variable {h : Heap β σ} {i j : β} {b o : Buf σ} {d e : Data} {len : ℤ} {mem : Mem}

theorem wlen_le (hf : Fits o e) (hb : Block e) (len : ℤ) : 0≤wlen o len ∧ wlen o len≤o.crsize ∧ wlen o len≤ intMax := by
  have h1 := hf.rbeg
  have h2 := hf.rend
  have h3 := hf.wbeg
  have h4 := hf.size
  have h5 := hf.maxs
  have h6 := hb.int
  unfold wlen Buf.crsize
  split <;> omega

/-- dpbuf_wbuf: either there is no room, or it copies what is then in the window of the source. -/
theorem wbuf_spec (consume : Bool) (mem : Mem) (hs : Sound h) (hi : h.buf i=some b) (hd : h.store b.data=some d) (hj : h.buf j=some o)
    (hr : refits b (wlen o len) → roomy b d) : ∃ b1 d1 ok,wcheck b d (wlen o len) mem=some (b1,d1,ok) ∧ Keeps b d b1 d1 ∧
    Sound (putBuf h i b1 d1) ∧ (ok=false → wbuf h i j len consume mem=some (putBuf h i b1 d1,enomem)) ∧
    (ok=true → ∃ x b2 d2,(putBuf h i b1 d1).read j (wlen o len)=some x ∧ x.length=wlen o len ∧
      append b1 d1 x (wlen o len)=some (b2,d2,wlen o len) ∧ Becomes b1 d1 b2 d2 (readable b1 d1) (slack b1 d1++x) ∧ Sound (putBuf h i b2 d2) ∧
      ∃ c u,(putBuf h i b2 d2).buf j=some c ∧ (putBuf h i b2 d2).store c.data=some u ∧
        Sound (putBuf (putBuf h i b2 d2) j {c with rbeg := c.rbeg+wlen o len} u) ∧
        wbuf h i j len consume mem=some (if consume then putBuf (putBuf h i b2 d2) j {c with rbeg := c.rbeg+wlen o len} u
          else putBuf h i b2 d2,wlen o len)) := by
  obtain ⟨d0,hd0,hf⟩ := hs.fits i b hi
  rw [hd] at hd0
  cases hd0
  obtain ⟨e,he,hfo⟩ := hs.fits j o hj
  have hb := hs.block _ _ hd
  obtain ⟨hn0,hnc,hnm⟩ := wlen_le hfo (hs.block _ _ he) len
  obtain ⟨b1,d1,ok,hw,hk,hroom⟩ := wcheck_spec hf hb hnm hr mem
  have hs1 : Sound (putBuf h i b1 d1) := sound_putBuf hs hi hd hk.fits hk.grows hk.home
  have hon1 : (h.on i fun b d => wcheck b d (wlen o len) mem)=some (putBuf h i b1 d1,ok) := on_some hi hd hw hk.home
  have hwb : wbuf h i j len consume mem=(if ok=true then ((putBuf h i b1 d1).read j (wlen o len)).bind fun x =>
      ((putBuf h i b1 d1).on i fun b d => append b d x (wlen o len)).bind fun (h,r) =>
        if consume=true then h.on j fun b d => some ({b with rbeg := b.rbeg+wlen o len},d,r) else some (h,r)
      else some (putBuf h i b1 d1,enomem)) := by
    simp only [wbuf,hj,Option.bind_some]
    change (h.on i fun b d => wcheck b d (wlen o len) mem).bind _=_
    rw [hon1]
    rfl
  refine ⟨b1,d1,ok,hw,hk,hs1,fun hok => by rw [hwb,hok]; rfl,fun hok => ?_⟩
  -- the source, as it is after the check
  obtain ⟨o1,ho1,hcr⟩ : ∃ o1,(putBuf h i b1 d1).buf j=some o1 ∧ o1.crsize=o.crsize := by
    by_cases hji : j=i
    · subst hji
      rw [hj] at hi
      cases hi
      have h1 := length_readable hk.fits hk.grows.block
      have h2 := length_readable hf hb
      rw [hk.readable] at h1
      exact ⟨b1,putBuf_buf ..,by unfold Buf.crsize; omega⟩
    · exact ⟨o,by rw [putBuf_ne b1 d1 hji]; exact hj,rfl⟩
  obtain ⟨e1,he1,hfo1⟩ := hs1.fits j o1 ho1
  have hg0 := hfo1.rbeg
  have hg1 := hfo1.rend
  have hg2 := hfo1.wbeg
  have hg3 := hfo1.size
  have hg4 := hfo1.maxs
  have hg5 := (hs1.block _ _ he1).room
  unfold Buf.crsize at hcr hnc
  have hload := load_some hn0 hg0 (by omega : o1.rbeg+wlen o len≤e1.data.length)
  set x := seg e1.data o1.rbeg.toNat (o1.rbeg+wlen o len).toNat with hx
  have hxl : (x.length : ℤ)=wlen o len := by rw [hx,length_seg (by omega)]; omega
  have hread : (putBuf h i b1 d1).read j (wlen o len)=some x := by simp only [Heap.read,ho1,he1,Option.bind_some]; exact hload
  obtain ⟨b2,d2,ha,hbc⟩ := append_spec hk.fits hk.grows.block hn0 hxl.ge (by have := hroom hok; omega)
  have hxt : x.take (wlen o len).toNat=x := List.take_of_length_le (by omega)
  rw [hxt] at hbc
  have hs2 : Sound (putBuf h i b2 d2) := by
    have h2 := sound_putBuf hs1 (putBuf_buf h i b1 d1) (putBuf_store h i b1 d1) hbc.fits hbc.grows hbc.home
    rwa [putBuf_twice hbc.home] at h2
  have hon2 : ((putBuf h i b1 d1).on i fun b d => append b d x (wlen o len))=some (putBuf h i b2 d2,wlen o len) := by
    have := on_some (f := fun b d => append b d x (wlen o len)) (putBuf_buf h i b1 d1) (putBuf_store h i b1 d1) ha hbc.home
    rwa [putBuf_twice hbc.home] at this
  obtain ⟨c,hc,hcc⟩ : ∃ c,(putBuf h i b2 d2).buf j=some c ∧ c.crsize=o.crsize := by
    by_cases hji : j=i
    · subst hji
      rw [putBuf_buf] at ho1
      cases ho1
      have h1 := length_readable hbc.fits hbc.grows.block
      have h2 := length_readable hk.fits hk.grows.block
      rw [hbc.readable] at h1
      exact ⟨b2,putBuf_buf ..,by unfold Buf.crsize; omega⟩
    · exact ⟨o,by rw [putBuf_ne b2 d2 hji]; exact hj,rfl⟩
  obtain ⟨u,hu,hfc⟩ := hs2.fits j c hc
  have hfc' : Fits {c with rbeg := c.rbeg+wlen o len} u := by
    have g0 := hfc.rbeg
    unfold Buf.crsize at hcc
    refine ⟨?_,?_,hfc.wbeg,hfc.size,hfc.maxs⟩
    · simp only; omega
    · simp only; omega
  refine ⟨x,b2,d2,hread,hxl,ha,hbc,hs2,c,u,hc,hu,sound_putBuf hs2 hc hu hfc' ⟨le_rfl,rfl,hs2.block _ _ hu⟩ rfl,?_⟩
  rw [hwb,if_pos hok,hread]
  simp only [Option.bind_some]
  rw [hon2]
  simp only [Option.bind_some]
  cases consume with
  | false => rfl
  | true =>
    exact on_some (f := fun b d => some ({b with rbeg := b.rbeg+wlen o len},d,wlen o len)) hc hu rfl rfl

/-! dpbuf_readto takes all there is, and gives back what was not copied. -/

theorem readtoBegin_rall (b : Buf σ) (d : Data) : readtoBegin b d=rall b d := by
  unfold readtoBegin rall Buf.cesize
  simp only
  split
  · rename_i hz
    have he : b.rend=b.wbeg := by omega
    simp only [he]
  · rfl

theorem readtoEnd_spec {b : Buf σ} {d : Data} (hf : Fits b d) (hb : Block d) {sz wsz : ℤ} (h0 : 0≤b.wbeg-(sz-wsz))
    (h1 : wsz≤ sz) : ∃ b',readtoEnd sz wsz b d=some (b',d,wsz) ∧ Becomes b d b' d [] (slack b' d) := by
  refine ⟨_,rfl,⟨h0,le_rfl,?_,hf.size,hf.maxs⟩,⟨le_rfl,rfl,hb⟩,rfl,?_,rfl,id⟩
  · simp only; omega
  · simp only [readable,seg_self]

/-- The end of dpbuf_readto: all of `det` becomes readable, and the reader steps back. -/
theorem readto_tail {o c : Buf σ} {sz wsz : ℤ} (hs : Sound h) (hi : h.buf i=some o) (hj : h.buf j=some c)
    (h0 : 0≤o.wbeg-(sz-wsz)) (h1 : wsz≤ sz) :
    ∃ h' r,((h.on j fun b d => some ({b with rend := b.wbeg},d,())).bind fun (h,_) => h.on i (readtoEnd sz wsz))=some (h',r) ∧
      Sound h' := by
  obtain ⟨u,hu,hfc⟩ := hs.fits j c hj
  have hg0 := hfc.rend
  have hg1 := hfc.wbeg
  have hfc' : Fits {c with rend := c.wbeg} u := ⟨hfc.rbeg,by simp only; omega,le_rfl,hfc.size,hfc.maxs⟩
  have hon : (h.on j fun b d => some ({b with rend := b.wbeg},d,()))=some (putBuf h j {c with rend := c.wbeg} u,()) :=
    on_some (f := fun b d => some ({b with rend := b.wbeg},d,())) hj hu rfl rfl
  have hs' := sound_putBuf hs hj hu hfc' ⟨le_rfl,rfl,hs.block _ _ hu⟩ rfl
  rw [hon]
  simp only [Option.bind_some]
  obtain ⟨o',ho',hw⟩ : ∃ o',(putBuf h j {c with rend := c.wbeg} u).buf i=some o' ∧ o'.wbeg=o.wbeg := by
    by_cases hij : i=j
    · subst hij
      rw [hi] at hj
      cases hj
      exact ⟨_,putBuf_buf ..,rfl⟩
    · exact ⟨o,by rw [putBuf_ne _ u hij]; exact hi,rfl⟩
  obtain ⟨v,hv,hfo⟩ := hs'.fits i o' ho'
  obtain ⟨o'',he,hbc⟩ := readtoEnd_spec hfo (hs'.block _ _ hv) (by omega) h1
  exact on_sound hs' ho' hv he hbc

/-- The heap and the number of bytes dpbuf_readto has before it writes. -/
def reading (h : Heap β σ) (i : β) : Option (Heap β σ × ℤ) := h.on i readtoBegin

/-- What dpbuf_readto needs of the destination: a failed write is taken for a length of -12. -/
def takes (h : Heap β σ) (i j : β) (size : ℤ) (mem : Mem) : Prop :=
  ∀ q∈reading h i,q.2≠0 → ∀ o∈q.1.buf i,∀ c∈q.1.buf j,∀ u∈q.1.store c.data,(refits c (wlen o size) → roomy c u) ∧
    ∀ w∈wcheck c u (wlen o size) mem,w.2.2=false → 0≤(if i=j then w.1 else o).wbeg-(q.2-enomem)

instance (h : Heap β σ) (i j : β) (size : ℤ) (mem : Mem) : Decidable (takes h i j size mem) := by
  unfold takes
  infer_instance

theorem readto_sound {size : ℤ} (hs : Sound h) (hi : h.buf i≠none) (hj : h.buf j≠none) (ht : takes h i j size mem) :
    ∃ h' r,readto h i j size mem=some (h',r) ∧ Sound h' := by
  obtain ⟨b,hb⟩ := Option.ne_none_iff_exists'.mp hi
  obtain ⟨d,hd,hf⟩ := hs.fits i b hb
  have hbl := hs.block _ _ hd
  obtain ⟨b1,hr,hbc⟩ := rall_spec hf hbl
  have hb1 : b1={b with rbeg := b.rend, rend := b.wbeg} := by
    unfold rall at hr
    cases hr
    rfl
  have hon : h.on i readtoBegin=some (putBuf h i b1 d,b.wbeg-b.rend) :=
    on_some hb hd ((readtoBegin_rall b d).trans hr) hbc.home
  have hs1 : Sound (putBuf h i b1 d) := sound_putBuf hs hb hd hbc.fits hbc.grows hbc.home
  have hcr : b1.crsize=b.wbeg-b.rend := by rw [hb1]; rfl
  have hw1 : b1.wbeg=b.wbeg := by rw [hb1]
  unfold readto
  rw [hon]
  simp only [Option.bind_some]
  split
  · exact ⟨_,_,rfl,hs1⟩
  · rename_i hsz
    obtain ⟨c,hc⟩ : ∃ c,(putBuf h i b1 d).buf j=some c := by
      by_cases hji : j=i
      · subst hji
        exact ⟨b1,putBuf_buf ..⟩
      · rw [putBuf_ne b1 d hji]
        exact Option.ne_none_iff_exists'.mp hj
    obtain ⟨u,hu,hfc⟩ := hs1.fits j c hc
    have ho := putBuf_buf h i b1 d
    obtain ⟨hroom,hback⟩ := ht _ hon hsz b1 ho c hc u hu
    obtain ⟨hn0,hn1,-⟩ := wlen_le hbc.fits hbc.grows.block size
    have h2 := hf.rbeg
    have h3 := hf.rend
    obtain ⟨c1,u1,ok,hw,hk,hsk,hno,hyes⟩ := wbuf_spec false mem hs1 hc hu ho hroom
    have hpos := hk.fits.rbeg
    have hcrk : c1.crsize=c.crsize := by
      have h1 := length_readable hk.fits hk.grows.block
      have h2 := length_readable hfc (hs1.block _ _ hu)
      rw [hk.readable] at h1
      unfold Buf.crsize
      omega
    unfold Buf.crsize at hcr hcrk hn1
    cases ok with
    | false =>
      rw [hno rfl]
      simp only [Option.bind_some]
      by_cases hij : i=j
      · subst hij
        have := hback _ hw rfl
        rw [if_pos rfl] at this
        exact readto_tail hsk (putBuf_buf ..) (putBuf_buf ..) this (by unfold enomem; omega)
      · have := hback _ hw rfl
        rw [if_neg hij] at this
        exact readto_tail hsk (by rw [putBuf_ne _ _ hij]; exact ho) (putBuf_buf ..) this (by unfold enomem; omega)
    | true =>
      obtain ⟨x,c2,u2,-,hxl,-,hbc2,hs2,_,_,-,-,-,hwb⟩ := hyes rfl
      simp only [hwb,Bool.false_eq_true,if_false,Option.bind_some]
      by_cases hij : i=j
      · subst hij
        rw [ho] at hc
        cases hc
        rw [putBuf_store] at hu
        cases hu
        -- the copy lies behind what has just been read
        have h5 := length_slack hbc2.fits hbc2.grows.block
        have h6 := length_readable hbc2.fits hbc2.grows.block
        have h7 := length_slack hbc.fits hbc.grows.block
        have h8 := length_readable hbc.fits hbc.grows.block
        rw [hbc2.slack,hk.slack,List.length_append,Nat.cast_add,hxl] at h5
        rw [hbc2.readable,hk.readable] at h6
        have := hbc2.fits.rbeg
        exact readto_tail hs2 (putBuf_buf ..) (putBuf_buf ..) (by omega) (by omega)
      · exact readto_tail hs2 (by rw [putBuf_ne _ _ hij]; exact ho) (putBuf_buf ..) (by omega) (by omega)

end Two

/-! ### New buffers -/

section New
variable {h : Heap β σ} {i j : β} {s : σ} {b : Buf σ} {d : Data}

theorem sound_alloc (hs : Sound h) (hi : h.buf i=none) (ht : h.store s=none) (hf : Fits b d) (hb : Block d)
    (hd : b.data=s) (hr : d.refc=1) : Sound (putBuf h i b d) := by
  subst hd
  have hne (j : β) (c : Buf σ) (hc : h.buf j=some c) : c.data≠b.data := by
    intro he
    obtain ⟨e,hst,-⟩ := hs.fits j c hc
    rw [he,ht] at hst
    cases hst
  constructor
  · intro j c hc
    by_cases hj : j=i
    · subst hj
      rw [putBuf_buf] at hc
      cases hc
      exact ⟨d,putBuf_store ..,hf⟩
    · rw [putBuf_ne b d hj] at hc
      obtain ⟨e,he,hfe⟩ := hs.fits j c hc
      exact ⟨e,by simp only [putBuf]; rw [Function.update_of_ne (hne j c hc)]; exact he,hfe⟩
  · intro t e he
    by_cases htd : t=b.data
    · subst htd
      rw [putBuf_store] at he
      cases he
      exact hb
    · simp only [putBuf] at he
      rw [Function.update_of_ne htd] at he
      exact hs.block t e he
  · intro t e he
    by_cases htd : t=b.data
    · subst htd
      rw [putBuf_store] at he
      cases he
      refine ⟨{i},fun j => ?_,by simp [hr],Finset.singleton_nonempty i⟩
      by_cases hj : j=i
      · subst hj
        simp [putBuf_buf]
      · rw [putBuf_ne b d hj,Finset.mem_singleton]
        refine ⟨fun h => (hj h).elim,?_⟩
        rintro ⟨c,hc,hcd⟩
        exact (hne j c hc hcd).elim
    · simp only [putBuf] at he
      rw [Function.update_of_ne htd] at he
      obtain ⟨F,hF,hcard,hnonempty⟩ := hs.refs t e he
      refine ⟨F,fun j => ?_,hcard,hnonempty⟩
      rw [hF]
      by_cases hj : j=i
      · subst hj
        rw [putBuf_buf]
        simp only [hi,Option.some.injEq]
        constructor
        · rintro ⟨c,hc,-⟩
          cases hc
        · rintro ⟨c,rfl,hcd⟩
          exact (htd hcd.symm).elim
      · rw [putBuf_ne b d hj]

theorem dataNew_spec {size : ℤ} {mem : Mem} (h : dataNew size mem=some d) :
    0≤ size ∧ d.maxs=size ∧ d.refc=1 ∧ (d.data.length : ℤ)=size+1 ∧ size< intMax := by
  unfold dataNew at h
  split at h
  · cases h
  · rename_i hc
    obtain ⟨f,-,rfl⟩ := Option.map_eq_some_iff.mp h
    refine ⟨by omega,rfl,rfl,?_,by omega⟩
    simp only [List.length_set,List.length_map,List.length_range]
    omega

theorem dataNewD_spec {data : Option (List Byte)} {size : ℤ} (dup const : Bool) (mem : Mem)
    (hp : ∀ p∈data,pointer p size) (hint : size≤ intMax) : ∃ o,dataNewD data size dup const mem=some o ∧
      ∀ d∈o,Block d ∧ 0≤d.maxs ∧ d.refc=1 ∧ (dup=true → d.maxs<d.data.length) := by
  cases data with
  | none => exact ⟨none,rfl,fun d hd => by cases hd⟩
  | some p =>
    obtain ⟨l,hl,hl0,hlp,hlm⟩ := pointer_len (hp p rfl)
    have hlm := hlm hint
    simp only [dataNewD,hl,Option.bind_some]
    cases dup with
    | true =>
      simp only [if_true]
      split
      · exact ⟨none,rfl,fun d hd => by cases hd⟩
      · rename_i hc
        rw [bytes,if_pos ⟨hl0,hlp⟩]
        refine ⟨_,rfl,fun d hd => ?_⟩
        cases hd
        have hlen : ((p.take l.toNat++[0]).length : ℤ)=l+1 := by
          simp only [List.length_append,List.length_take,List.length_singleton]
          omega
        exact ⟨⟨by simp only [hlen]; omega,hlm⟩,hl0,rfl,fun _ => by simp only [hlen]; omega⟩
    | false =>
      refine ⟨_,rfl,fun d hd => ?_⟩
      cases hd
      exact ⟨⟨hlp,hlm⟩,hl0,rfl,fun h => by cases h⟩

theorem sound_new {size : ℤ} {mem : Mem} (hs : Sound h) (hi : h.buf i=none) (ht : h.store s=none) :
    Sound (new h i s size mem).1 := by
  unfold new Heap.alloc
  cases hd : dataNew size mem with
  | none => exact hs
  | some d =>
    obtain ⟨h0,hm,hr,hl,hint⟩ := dataNew_spec hd
    exact sound_alloc hs hi ht (b := {data := s, size := size}) ⟨le_rfl,le_rfl,le_rfl,h0,hm.ge⟩ ⟨by omega,by omega⟩ rfl hr

theorem sound_newD {data : Option (List Byte)} {size : ℤ} (initR dup const : Bool) (mem : Mem) (hs : Sound h)
    (hi : h.buf i=none) (ht : h.store s=none) (hp : ∀ p∈data,pointer p size) (hint : size≤ intMax)
    : ∃ h' r,newD h i s data size initR dup const mem=some (h',r) ∧ Sound h' := by
  obtain ⟨o,ho,hd⟩ := dataNewD_spec dup const mem hp hint
  unfold newD
  rw [ho]
  refine ⟨_,_,rfl,?_⟩
  cases o with
  | none => exact hs
  | some d =>
    obtain ⟨hb,h0,hr,-⟩ := hd d rfl
    refine sound_alloc hs hi ht ⟨le_rfl,?_,le_rfl,?_,le_rfl⟩ hb rfl hr
    · cases initR
      · exact le_rfl
      · exact h0
    · cases initR
      · exact h0
      · exact le_rfl

theorem sound_newV {text : Option (List Byte)} (mem : Mem) (hs : Sound h) (hi : h.buf i=none) (ht : h.store s=none) :
    ∃ h' r,newV h i s text mem=some (h',r) ∧ Sound h' := by
  cases text with
  | none => exact ⟨h,0,rfl,hs⟩
  | some x =>
    cases hd : dataNew x.length mem with
    | none => exact ⟨h,0,by simp only [newV,hd],hs⟩
    | some d =>
      obtain ⟨h0,hm,hr,hl,hint⟩ := dataNew_spec hd
      have hin : (0 : ℤ)+(x++[0]).length≤d.data.length := by simp only [List.length_append,List.length_singleton]; omega
      simp only [newV,hd]
      rw [store_some le_rfl hin]
      refine ⟨_,_,rfl,sound_alloc hs hi ht (b := {data := s, size := x.length, rend := x.length, wbeg := x.length})
        ⟨le_rfl,h0,le_rfl,le_rfl,hm.ge⟩ ⟨?_,?_⟩ rfl hr⟩
      · have := length_store (d := d) (x := x++[0]) le_rfl hin
        simp only [this]
        omega
      · simp only; omega

/-- A view counts its storage once more. -/
theorem sound_view (hs : Sound h) (hi : h.buf i=none) {o v : Buf σ} (hd : h.store o.data=some d)
    (hf : Fits v d) (hv : v.data=o.data) : Sound (putBuf h i v {d with refc := d.refc+1}) := by
  have hblock := hs.block _ _ hd
  constructor
  · intro k c hc
    by_cases hk : k=i
    · subst hk
      rw [putBuf_buf] at hc
      cases hc
      exact ⟨_,putBuf_store h k v _,hf.rbeg,hf.rend,hf.wbeg,hf.size,hf.maxs⟩
    · rw [putBuf_ne v _ hk] at hc
      obtain ⟨e,he,hfe⟩ := hs.fits k c hc
      by_cases hcd : c.data=v.data
      · rw [hcd,hv,hd] at he
        cases he
        exact ⟨{d with refc := d.refc+1},by rw [hcd]; exact putBuf_store h i v _,hfe.rbeg,hfe.rend,hfe.wbeg,hfe.size,hfe.maxs⟩
      · exact ⟨e,by simp only [putBuf]; rw [Function.update_of_ne hcd]; exact he,hfe⟩
  · intro t e he
    by_cases htd : t=v.data
    · subst htd
      rw [putBuf_store] at he
      cases he
      exact ⟨hblock.room,hblock.int⟩
    · simp only [putBuf] at he
      rw [Function.update_of_ne htd] at he
      exact hs.block t e he
  · intro t e he
    by_cases htd : t=v.data
    · subst htd
      rw [putBuf_store] at he
      cases he
      obtain ⟨F,hF,hcard,-⟩ := hs.refs _ _ hd
      have hni : i∉F := by
        rw [hF,hi]
        rintro ⟨c,hc,-⟩
        cases hc
      refine ⟨insert i F,fun k => ?_,by rw [Finset.card_insert_of_notMem hni,hcard],Finset.insert_nonempty ..⟩
      by_cases hk : k=i
      · subst hk
        simp [putBuf_buf]
      · rw [putBuf_ne v _ hk,Finset.mem_insert,hF,hv]
        exact ⟨fun h => h.resolve_left hk,.inr⟩
    · simp only [putBuf] at he
      rw [Function.update_of_ne htd] at he
      obtain ⟨F,hF,hcard,hne⟩ := hs.refs t e he
      refine ⟨F,fun k => ?_,hcard,hne⟩
      rw [hF]
      by_cases hk : k=i
      · subst hk
        rw [putBuf_buf]
        simp only [hi,Option.some.injEq]
        constructor
        · rintro ⟨c,hc,-⟩
          cases hc
        · rintro ⟨c,rfl,hcd⟩
          exact (htd hcd.symm).elim
      · rw [putBuf_ne v _ hk]

theorem sound_newR {other : Option β} (mem : Mem) (hs : Sound h) (hi : h.buf i=none) (ht : h.store s=none)
    (hl : ∀ k∈other,h.buf k≠none) : ∃ h' r,newR h i s other mem=some (h',r) ∧ Sound h' := by
  cases other with
  | none => exact ⟨_,_,rfl,sound_new hs hi ht⟩
  | some k =>
    obtain ⟨o,ho⟩ := Option.ne_none_iff_exists'.mp (hl k rfl)
    obtain ⟨d,hd,hf⟩ := hs.fits k o ho
    have h1 := hf.wbeg
    have h2 := hf.size
    have h3 := hf.maxs
    have hview : Fits {o with wbeg := o.rend, size := o.rend} d :=
      ⟨hf.rbeg,hf.rend,le_rfl,le_rfl,by simp only; omega⟩
    have hsv := sound_view hs hi hd hview rfl
    simp only [newR,ho,hd,Option.bind_some,Option.map_some]
    split
    · exact ⟨h,0,rfl,hs⟩
    · exact ⟨_,_,rfl,hsv⟩

theorem sound_dup {other : Option β} (slack : Bool) (mem : Mem) (hs : Sound h) (hi : h.buf i=none) (ht : h.store s=none)
    (hl : ∀ k∈other,h.buf k≠none) : ∃ h' r,dup h i s other slack mem=some (h',r) ∧ Sound h' := by
  cases other with
  | none => exact ⟨_,_,rfl,sound_new hs hi ht⟩
  | some k =>
    obtain ⟨o,ho⟩ := Option.ne_none_iff_exists'.mp (hl k rfl)
    obtain ⟨d,hd,hf⟩ := hs.fits k o ho
    have hb := hs.block _ _ hd
    have h0 := hf.rbeg
    have h1 := hf.rend
    have h2 := hf.wbeg
    have h3 := hf.size
    have h4 := hf.maxs
    have h5 := hb.int
    obtain ⟨x,n,hx,hn,hn0,hnm,he⟩ : ∃ x n,d.load (if slack=true then o.rend else o.rbeg) n=some x ∧ (x.length : ℤ)=n ∧
        0≤n ∧ n≤ intMax ∧ (if slack=true then o.cesize else o.crsize)=n := by
      cases slack with
      | true => exact ⟨_,_,load_slack hf hb,length_slack hf hb,by omega,by omega,rfl⟩
      | false => exact ⟨_,_,load_readable hf hb,length_readable hf hb,by omega,by omega,rfl⟩
    simp only [dup,ho,hd,Option.bind_some,he]
    split
    · exact ⟨_,_,rfl,sound_new hs hi ht⟩
    · rw [hx]
      refine sound_newD true true false mem hs hi ht (fun p hp => ?_) hnm
      cases hp
      rw [pointer,if_neg (by omega)]
      omega

end New

/-! ### Freed buffers -/

theorem sound_del {h : Heap β σ} {i : β} (hs : Sound h) (hl : h.buf i≠none) : ∃ h' r,del h i=some (h',r) ∧ Sound h' := by
  obtain ⟨b,hb⟩ := Option.ne_none_iff_exists'.mp hl
  obtain ⟨d,hd,hf⟩ := hs.fits i b hb
  obtain ⟨F,hF,hcard,-⟩ := hs.refs _ _ hd
  have hblock := hs.block _ _ hd
  have hin : i∈F := (hF i).mpr ⟨b,hb,rfl⟩
  simp only [del,hb,hd,Option.bind_some,Option.map_some]
  refine ⟨_,_,rfl,?_⟩
  have hne {j : β} {c : Buf σ} (hc : Function.update h.buf i none j=some c) : j≠i ∧ h.buf j=some c := by
    by_cases hj : j=i
    · subst hj
      rw [Function.update_self] at hc
      cases hc
    · rw [Function.update_of_ne hj] at hc
      exact ⟨hj,hc⟩
  -- another holder, so that the storage stays
  have hshared {j : β} {c : Buf σ} (hj : j≠i) (hc : h.buf j=some c) (hcd : c.data=b.data) : d.refc≠1 := by
    intro h1
    have hj' : j∈F := (hF j).mpr ⟨c,hc,hcd⟩
    obtain ⟨k,hk⟩ := Finset.card_eq_one.mp (hcard.trans h1)
    rw [hk,Finset.mem_singleton] at hin hj'
    exact hj (hj'.trans hin.symm)
  constructor
  · intro j c hc
    obtain ⟨hj,hc⟩ := hne hc
    obtain ⟨e,he,hfe⟩ := hs.fits j c hc
    by_cases hcd : c.data=b.data
    · rw [hcd,hd] at he
      cases he
      exact ⟨{d with refc := d.refc-1},by simp only [hcd,Function.update_self,if_neg (hshared hj hc hcd)],
        hfe.rbeg,hfe.rend,hfe.wbeg,hfe.size,hfe.maxs⟩
    · exact ⟨e,by simp only [Function.update_of_ne hcd]; exact he,hfe⟩
  · intro t e he
    by_cases htd : t=b.data
    · subst htd
      simp only [Function.update_self] at he
      split at he
      · cases he
      · cases he
        exact ⟨hblock.room,hblock.int⟩
    · simp only [Function.update_of_ne htd] at he
      exact hs.block t e he
  · intro t e he
    have hmem (j : β) : (∃ c,Function.update h.buf i none j=some c ∧ c.data=t) ↔ j≠i ∧ ∃ c,h.buf j=some c ∧ c.data=t := by
      constructor
      · rintro ⟨c,hc,hct⟩
        exact ⟨(hne hc).1,c,(hne hc).2,hct⟩
      · rintro ⟨hj,c,hc,hct⟩
        exact ⟨c,by rw [Function.update_of_ne hj]; exact hc,hct⟩
    by_cases htd : t=b.data
    · subst htd
      simp only [Function.update_self] at he
      split at he
      · cases he
      · rename_i h1
        cases he
        have hce := Finset.card_erase_of_mem hin
        have hpos := Finset.card_pos.mpr ⟨i,hin⟩
        refine ⟨F.erase i,fun j => ?_,by rw [hce,hcard],Finset.card_pos.mp (by omega)⟩
        rw [hmem,Finset.mem_erase,hF]
    · simp only [Function.update_of_ne htd] at he
      obtain ⟨G,hG,hcardG,hne⟩ := hs.refs t e he
      refine ⟨G,fun j => ?_,hcardG,hne⟩
      rw [hmem,hG]
      refine ⟨?_,And.right⟩
      rintro ⟨c,hc,hct⟩
      refine ⟨?_,c,hc,hct⟩
      rintro rfl
      rw [hb] at hc
      cases hc
      exact htd hct.symm

/-! ### Runs -/

/-- What the callers promise: live handles, memory not in use for what is new, and pointers that lead
to as many bytes as they say. -/
def enabled (h : Heap β σ) : Act β σ → Prop
  | .new i s _ _ => h.buf i=none ∧ h.store s=none
  | .newD i s data size _ _ _ _ => (h.buf i=none ∧ h.store s=none) ∧ ∀ p∈data,pointer p size
  | .newV i s _ _ => h.buf i=none ∧ h.store s=none
  | .newR i s other _ | .dup i s other _ _ => (h.buf i=none ∧ h.store s=none) ∧ ∀ j∈other,h.buf j≠none
  | .runtil i p n => h.buf i≠none ∧ ∀ q∈p,pointer q n
  | .readto i j _ _ | .wbuf i j _ _ _ | .ccmp i j => h.buf i≠none ∧ h.buf j≠none
  | .wdata i data len _ => h.buf i≠none ∧ ∀ p∈data,len.1≤p.length
  | .wstrv i text _ => h.buf i≠none ∧ ∀ x∈text,x.length≤ intMax
  | .cfind i p len _ | .cbegwith i p len _ => h.buf i≠none ∧ ∀ q∈p,pointer q len
  | .cequalc i sub len => h.buf i≠none ∧ pointer sub len
  | .del i | .recycle i _ | .setRecycle i _ | .reset i _ _ | .resizew i _ _ | .rseek i _ _ | .wseek i _ _ | .eseek i _ _
  | .rws i | .rdata i _ | .rmust i _ | .rcstr i | .rall i | .wfill i _ _ _ | .cstrlen i => h.buf i≠none

def At (h : Heap β σ) (i : β) (P : Buf σ → Data → Prop) : Prop := ∀ b∈h.buf i,∀ d∈h.store b.data,P b d

instance (h : Heap β σ) (i : β) (P : Buf σ → Data → Prop) [∀ b d,Decidable (P b d)] : Decidable (At h i P) :=
  inferInstanceAs (Decidable (∀ b∈h.buf i,∀ d∈h.store b.data,P b d))

/-- Where the operations check too little: a length that is negative or wraps, a NUL behind the caller's
memory, a match that counts back over its begin, a search from outside of the window, an error code taken
for a length. -/
def meets (h : Heap β σ) : Act β σ → Prop
  | .recycle i force => At h i fun b d => (force || !b.norecycle)=true → roomy b d
  | .resizew i n _ => At h i fun b d => 0≤n.1 → b.norecycle=false → roomy b d
  | .runtil i p n => At h i fun b d => n.1<0 → ∀ r∈cfind {b with rbeg := b.rend, rend := b.wbeg} d p n 0,0≤r → 0≤r+n.1
  | .readto i j size mem => takes h i j size mem
  | .wbuf i j len _ _ => At h i fun b d => ∀ o∈h.buf j,refits b (wlen o len) → roomy b d
  | .wfill i len _ _ => 0≤len.1 ∧ At h i fun b d => refits b len → roomy b d
  | .wdata i data len _ => ∀ p∈data,0≤len.1 ∧ At h i fun b d => refits b len → roomy b d
  | .wstrv i text _ => ∀ x∈text,x.length< intMax ∧ At h i fun b d => x≠[] → refits b (x.length+1) → roomy b d
  | .cfind i p len left => At h i fun b _ => searches b p len → startIn b left
  | _ => True

instance (h : Heap β σ) (a : Act β σ) : Decidable (enabled h a) := by
  induction a using Act.casesOn <;> (dsimp only [enabled]; infer_instance)

instance (h : Heap β σ) (a : Act β σ) : Decidable (meets h a) := by
  induction a using Act.casesOn <;> (dsimp only [meets]; infer_instance)

section Step
variable {h : Heap β σ} {i j : β}

theorem on_live {γ : Type*} {f : Buf σ → Data → Option (Buf σ × Data × γ)} (hs : Sound h) (hi : h.buf i≠none)
    (hf : At h i fun b d => Fits b d → Block d → ∃ b' d' r w s,f b d=some (b',d',r) ∧ Becomes b d b' d' w s) :
    ∃ h' r,h.on i f=some (h',r) ∧ Sound h' := by
  obtain ⟨b,hb⟩ := Option.ne_none_iff_exists'.mp hi
  obtain ⟨d,hd,hfit⟩ := hs.fits i b hb
  obtain ⟨b',d',r,w,s,he,hbc⟩ := hf b hb d hd hfit (hs.block _ _ hd)
  exact on_sound hs hb hd he hbc

theorem writes_some {b : Buf σ} {d : Data} {x : List Byte} {n : ℤ} {o : Dpbuf.Step σ} (hw : Writes b d x n o) :
    ∃ b' d' r w s,o=some (b',d',r) ∧ Becomes b d b' d' w s := by
  obtain ⟨b',d',h,hb⟩ | ⟨b',d',r,h,-,hb⟩ := hw
  · exact ⟨b',d',n,_,_,h,hb⟩
  · exact ⟨b',d',r,_,_,h,hb⟩

theorem ccmp_sound (hs : Sound h) (hi : h.buf i≠none) (hj : h.buf j≠none) : ∃ r,ccmp h i j=some (h,r) := by
  obtain ⟨a,ha⟩ := Option.ne_none_iff_exists'.mp hi
  obtain ⟨b,hb⟩ := Option.ne_none_iff_exists'.mp hj
  obtain ⟨d,hd,hf⟩ := hs.fits i a ha
  obtain ⟨e,he,hg⟩ := hs.fits j b hb
  have h1 := load_readable hf (hs.block _ _ hd)
  have h2 := load_readable hg (hs.block _ _ he)
  unfold ccmp
  split
  · exact ⟨0,rfl⟩
  · simp only [ha,hb,Option.bind_some]
    split
    · exact ⟨_,rfl⟩
    · rename_i hne
      split
      · have hlen : a.crsize=b.rend-b.rbeg := not_not.mp hne
        have hx : h.read i a.crsize=some (readable a d) := by simp only [Heap.read,ha,hd,Option.bind_some]; exact h1
        have hy : h.read j a.crsize=some (readable b e) := by
          rw [hlen]
          simp only [Heap.read,hb,he,Option.bind_some]
          exact h2
        rw [hx,hy]
        exact ⟨_,rfl⟩
      · exact ⟨0,rfl⟩

theorem wbuf_sound {len : ℤ} {consume : Bool} {mem : Mem} (hs : Sound h) (hi : h.buf i≠none) (hj : h.buf j≠none)
    (hr : At h i fun b d => ∀ o∈h.buf j,refits b (wlen o len) → roomy b d) :
    ∃ h' r,wbuf h i j len consume mem=some (h',r) ∧ Sound h' := by
  obtain ⟨b,hb⟩ := Option.ne_none_iff_exists'.mp hi
  obtain ⟨o,ho⟩ := Option.ne_none_iff_exists'.mp hj
  obtain ⟨d,hd,-⟩ := hs.fits i b hb
  obtain ⟨b1,d1,ok,-,-,hs1,hno,hyes⟩ := wbuf_spec consume mem hs hb hd ho (hr b hb d hd o ho)
  cases ok with
  | false => exact ⟨_,_,hno rfl,hs1⟩
  | true =>
    obtain ⟨x,b2,d2,-,-,-,-,hs2,c,u,-,-,hs3,hw⟩ := hyes rfl
    refine ⟨_,_,hw,?_⟩
    cases consume with
    | false => exact hs2
    | true => exact hs3

theorem sound_step {a : Act β σ} (hs : Sound h) (he : enabled h a) (hm : meets h a) :
    ∃ h' r,step h a=some (h',r) ∧ Sound h' := by
  cases a with
  | new i s size mem => exact ⟨_,_,rfl,sound_new hs he.1 he.2⟩
  | newD i s data size initR d const mem => exact sound_newD initR d const mem hs he.1.1 he.1.2 he.2 size.2.2
  | newV i s text mem => exact sound_newV mem hs he.1 he.2
  | newR i s other mem => exact sound_newR mem hs he.1.1 he.1.2 he.2
  | dup i s other slack mem => exact sound_dup slack mem hs he.1.1 he.1.2 he.2
  | del i => exact sound_del hs he
  | recycle i force =>
    refine on_live hs he fun b hb d hd hf hbl => ?_
    obtain ⟨b',d',h1,h2⟩ := recycle_spec hf hbl (hm b hb d hd)
    exact ⟨b',d',0,_,_,h1,h2⟩
  | setRecycle i on =>
    refine on_live hs he fun b _ d _ hf hbl => ?_
    obtain ⟨b',h1,h2⟩ := setRecycle_spec hf hbl on
    exact ⟨b',d,0,_,_,h1,h2⟩
  | reset i initR initW =>
    refine on_live hs he fun b _ d _ hf hbl => ?_
    obtain ⟨b',h1,h2⟩ := reset_spec hf hbl initR initW
    exact ⟨b',d,0,_,_,h1,h2⟩
  | resizew i n mem =>
    refine on_live hs he fun b hb d hd hf hbl => ?_
    obtain ⟨b',d',r,h1,h2,-⟩ := resizew_spec hf hbl n.2.2 (hm b hb d hd) mem
    exact ⟨b',d',if r then 1 else 0,_,_,by rw [h1]; rfl,h2⟩
  | rseek i offset w =>
    refine on_live hs he fun b _ d _ hf hbl => ?_
    obtain ⟨b',r,h1,h2⟩ := rseek_spec hf hbl offset w
    exact ⟨b',d,r,_,_,h1,h2⟩
  | wseek i offset w =>
    refine on_live hs he fun b _ d _ hf hbl => ?_
    obtain ⟨b',r,h1,h2⟩ := wseek_spec hf hbl offset w
    exact ⟨b',d,r,_,_,h1,h2⟩
  | eseek i offset w =>
    refine on_live hs he fun b _ d _ hf hbl => ?_
    obtain ⟨b',r,h1,h2⟩ := eseek_spec hf hbl offset w
    exact ⟨b',d,r,_,_,h1,h2⟩
  | rws i =>
    refine on_live hs he fun b _ d _ hf hbl => ?_
    obtain ⟨b',h1,h2⟩ := rws_spec hf hbl
    exact ⟨b',d,_,_,_,h1,h2⟩
  | rdata i len =>
    refine on_live hs he fun b _ d _ hf hbl => ?_
    obtain ⟨b',n,h1,-,-,h2⟩ := rdata_spec hf hbl len
    exact ⟨b',d,n,_,_,h1,h2⟩
  | rmust i len =>
    refine on_live hs he fun b _ d _ hf hbl => ?_
    obtain ⟨-,-,b',h1,h2⟩ | ⟨-,b',h1,h2⟩ := rmust_spec hf hbl len
    · exact ⟨b',d,len,_,_,h1,h2⟩
    · exact ⟨b',d,enodata,_,_,h1,h2⟩
  | runtil i p n =>
    refine on_live hs he.1 fun b hb d hd hf hbl => ?_
    obtain ⟨b',r,k,h1,-,-,h2⟩ := runtil_spec hf hbl he.2 (hm b hb d hd)
    exact ⟨b',d,r,_,_,h1,h2⟩
  | rcstr i =>
    refine on_live hs he fun b _ d _ hf hbl => ?_
    obtain ⟨b',n,h1,-,-,h2⟩ := rcstr_spec hf hbl
    exact ⟨b',d,n,_,_,h1,h2⟩
  | rall i =>
    refine on_live hs he fun b _ d _ hf hbl => ?_
    obtain ⟨b',h1,h2⟩ := rall_spec hf hbl
    exact ⟨b',d,_,_,_,h1,h2⟩
  | readto i j size mem => exact readto_sound hs he.1 he.2 hm
  | wbuf i j len consume mem => exact wbuf_sound hs he.1 he.2 hm
  | wfill i len v mem =>
    exact on_live hs he fun b hb d hd hf hbl => writes_some (wfill_spec hf hbl hm.1 len.2.2 (hm.2 b hb d hd) v mem)
  | wdata i data len mem =>
    refine on_live hs he.1 fun b hb d hd hf hbl => ?_
    cases data with
    | none => exact ⟨b,d,einval,_,_,rfl,keeps_refl hf hbl⟩
    | some p =>
      refine writes_some (wdata_spec hf hbl len.2.2 (fun q hq => ?_) ((hm p rfl).2 b hb d hd) mem)
      exact ⟨(hm q hq).1,he.2 q hq⟩
  | wstrv i text mem =>
    exact on_live hs he.1 fun b hb d hd hf hbl =>
      writes_some (wstrv_spec hf hbl (fun x hx => (hm x hx).1) (fun x hx => (hm x hx).2 b hb d hd) mem)
  | cfind i p len left =>
    refine on_live hs he.1 fun b hb d hd hf hbl => ?_
    obtain ⟨r,h1,-⟩ := cfind_spec hf hbl he.2 (hm b hb d hd)
    exact ⟨b,d,r,_,_,by rw [h1]; rfl,keeps_refl hf hbl⟩
  | cequalc i sub len =>
    refine on_live hs he.1 fun b _ d _ hf hbl => ?_
    obtain ⟨r,h1⟩ := cequalc_spec hf hbl he.2
    exact ⟨b,d,r,_,_,h1,keeps_refl hf hbl⟩
  | ccmp i j =>
    obtain ⟨r,h1⟩ := ccmp_sound hs he.1 he.2
    exact ⟨h,r,h1,hs⟩
  | cstrlen i =>
    refine on_live hs he fun b _ d _ hf hbl => ?_
    obtain ⟨r,h1⟩ := cstrlen_spec hf hbl
    exact ⟨b,d,r,_,_,h1,keeps_refl hf hbl⟩
  | cbegwith i sub len skip =>
    refine on_live hs he.1 fun b _ d _ hf hbl => ?_
    obtain ⟨r,h1⟩ := cbegwith_spec hf hbl he.2
    exact ⟨b,d,r,_,_,h1,keeps_refl hf hbl⟩

end Step

/-- The heap after a call. -/
def run (h : Heap β σ) (a : Act β σ) : Option (Heap β σ) := (step h a).map (·.1)

def guarded (h : Heap β σ) (a : Act β σ) : Prop := enabled h a ∧ meets h a

instance (h : Heap β σ) (a : Act β σ) : Decidable (guarded h a) := inferInstanceAs (Decidable (_ ∧ _))

theorem sound_nothing : Sound ({} : Heap β σ) :=
  ⟨fun _ _ h => (by cases h),fun _ _ h => (by cases h),fun _ _ h => (by cases h)⟩

theorem sound_run {h h' : Heap β σ} (hs : Sound h) (hr : Reach run guarded h h') : Sound h' := by
  refine hr.invariant hs fun t a u ht hg hu => ?_
  obtain ⟨h',r,he,hs'⟩ := sound_step ht hg.1 hg.2
  rw [run,he] at hu
  cases hu
  exact hs'

/-- The cursors are in order and in the storage, and no getter is negative. -/
structure InStorage (b : Buf σ) (d : Data) : Prop where
  cursors : 0≤b.rbeg ∧ b.rbeg≤b.rend ∧ b.rend≤b.wbeg ∧ b.wbeg≤b.size
  storage : b.size≤d.data.length
  int : b.size≤ intMax
  crsize : 0≤b.crsize
  cwsize : 0≤b.cwsize
  cesize : 0≤b.cesize

theorem inStorage {b : Buf σ} {d : Data} (hf : Fits b d) (hb : Block d) : InStorage b d := by
  have h1 := hf.rend
  have h2 := hf.wbeg
  have h3 := hf.size
  exact ⟨⟨hf.rbeg,h1,h2,h3⟩,hf.maxs.trans hb.room,hf.maxs.trans hb.int,by unfold Buf.crsize; omega,
    by unfold Buf.cwsize; omega,by unfold Buf.cesize; omega⟩

/-- Every live buffer of the heap is in its storage. -/
def AllInStorage (h : Heap β σ) : Prop := ∀ i,∀ b∈h.buf i,∃ d∈h.store b.data,InStorage b d

/-- In every run of guarded calls all cursors stay in the storage, and no call touches memory outside of it. -/
theorem dpbuf_in_storage {h : Heap β σ} (hr : Reach run guarded {} h) :
    AllInStorage h ∧ ∀ a,guarded h a → step h a≠none := by
  have hs := sound_run sound_nothing hr
  constructor
  · intro i b hb
    obtain ⟨d,hd,hf⟩ := hs.fits i b hb
    exact ⟨d,hd,inStorage hf (hs.block _ _ hd)⟩
  · intro a hg
    obtain ⟨h',r,he,-⟩ := sound_step hs hg.1 hg.2
    rw [he]
    exact Option.some_ne_none _

/-- "x\n" in a buffer of four bytes. -/
def line : List (Act (Fin 2) (Fin 2)) :=
  [.new 0 0 4 (some fun _ => 7),.wdata 0 (some [120,10]) 2 none]

theorem dpbuf_in_storage_line : ∃ h : Heap (Fin 2) (Fin 2),Reach run guarded {} h ∧
    (h.buf 0).map (fun b => (b.rbeg,b.rend,b.wbeg))=some (0,2,2) ∧ AllInStorage h ∧ ∀ a,guarded h a → step h a≠none := by
  have hrun : (execOk run guarded {} (line++[.runtil 0 (some [10,0]) ⟨1,by decide⟩])).any
      (fun h => decide ((h.buf 0).map (fun b => (b.rbeg,b.rend,b.wbeg))=some (0,2,2)))=true := by decide +kernel
  obtain ⟨h,hh,hf⟩ := (Option.any_eq_true _ _).mp hrun
  have hr := execOk_reach hh
  have hall := dpbuf_in_storage hr
  exact ⟨h,hr,of_decide_eq_true hf,hall.1,hall.2⟩

/-- dpbuf_runtil for the string "\n": the length -1 is taken back from the match. -/
theorem dpbuf_runtil_back : ¬∀ h : Heap (Fin 2) (Fin 2),Reach run enabled {} h → AllInStorage h := by
  intro hall
  have hrun : (execOk run enabled {} (line++[.rdata 0 ⟨1,by decide⟩,.runtil 0 (some [10,0]) ⟨-1,by decide⟩])).any
      (fun h => decide ((h.buf 0).map (fun b => (b.rbeg,b.rend))=some (1,0)))=true := by decide +kernel
  obtain ⟨h,hh,hf⟩ := (Option.any_eq_true _ _).mp hrun
  obtain ⟨b,hb,he⟩ := Option.map_eq_some_iff.mp (of_decide_eq_true hf)
  obtain ⟨d,-,hin⟩ := hall h (execOk_reach hh) 0 b hb
  simp only [Prod.mk.injEq] at he
  have := hin.cursors.2.1
  omega

end Dpapp.DpbufFits
