import Dpapp.DpbufQueue

/-! # A write happens, or it does not -/

set_option linter.unusedSectionVars false

namespace Dpapp.DpbufWrite
open Dpapp.Machine Dpapp.Segment Dpapp.Dpbuf Dpapp.DpbufSpec Dpapp.DpbufFits Dpapp.DpbufQueue

variable {β σ : Type*} [DecidableEq β] [DecidableEq σ]

/-! ### Writes that fail -/

/-- All cursors have gone to the front by the same distance: by what recycling takes away, or by nothing. -/
def Shifted (b b' : Buf σ) : Prop := ∃ k,(k=0 ∨ k=b.rbeg ∧ b.norecycle=false) ∧
  b'.rbeg=b.rbeg-k ∧ b'.rend=b.rend-k ∧ b'.wbeg=b.wbeg-k ∧ b'.size=b.size-k

section Shift
variable {b b' : Buf σ} {d d' : Data} {mem : Mem}

theorem shifted_refl (b : Buf σ) : Shifted b b := ⟨0,.inl rfl,by omega,by omega,by omega,by omega⟩

theorem recycleData_shifted (hf : Fits b d) (hn : b.norecycle=false) (h : recycleData b d=some (b',d')) : Shifted b b' := by
  have h1 := hf.rend
  have h2 := hf.wbeg
  unfold recycleData at h
  split at h
  · obtain ⟨d1,-,he⟩ := Option.map_eq_some_iff.mp h
    cases he
    refine ⟨b.rbeg,.inr ⟨rfl,hn⟩,?_,?_,?_,?_⟩ <;> (simp only; omega)
  · split at h
    · obtain ⟨x,-,h⟩ := Option.bind_eq_some_iff.mp h
      obtain ⟨d1,-,h⟩ := Option.bind_eq_some_iff.mp h
      obtain ⟨d2,-,he⟩ := Option.map_eq_some_iff.mp h
      cases he
      refine ⟨b.rbeg,.inr ⟨rfl,hn⟩,?_,rfl,rfl,rfl⟩
      simp only
      omega
    · cases h
      exact shifted_refl b

theorem wcheck_shifted {len : ℤ} (hf : Fits b d) (h : wcheck b d len mem=some (b',d',false)) : Shifted b b' := by
  unfold wcheck at h
  split at h
  · unfold resizew at h
    split at h
    · obtain ⟨⟨b1,d1⟩,hrec,hres⟩ := Option.bind_eq_some_iff.mp h
      have hb' : b'=b1 := by
        simp only [resize] at hres
        split at hres
        · cases hres
          rfl
        · obtain ⟨⟨d2,r⟩,-,he⟩ := Option.map_eq_some_iff.mp hres
          cases he
          rfl
      subst hb'
      cases hn : b.norecycle with
      | true =>
        rw [hn] at hrec
        cases hrec
        exact shifted_refl b
      | false =>
        rw [hn] at hrec
        exact recycleData_shifted hf hn hrec
    · cases h
      exact shifted_refl b
  · cases h

theorem append_ret {x : List Byte} {len r : ℤ} (h : append b d x len=some (b',d',r)) : r=len := by
  obtain ⟨d1,-,he⟩ := Option.map_eq_some_iff.mp h
  cases he
  rfl

theorem wfill_shifted {len r : ℤ} {v : Byte} (hf : Fits b d) (h0 : 0≤len) (h : wfill b d len v mem=some (b',d',r))
    (hr : r<0) : Shifted b b' := by
  obtain ⟨⟨b1,d1,ok⟩,hw,h⟩ := Option.bind_eq_some_iff.mp h
  cases ok with
  | true =>
    simp only [if_true,if_neg (not_lt.mpr h0)] at h
    have := append_ret h
    omega
  | false =>
    cases h
    exact wcheck_shifted hf hw

theorem wdata_shifted {data : Option (List Byte)} {len r : ℤ} (hf : Fits b d) (h0 : ∀ p∈data,0≤len)
    (h : wdata b d data len mem=some (b',d',r)) (hr : r<0) : Shifted b b' := by
  cases data with
  | none =>
    cases h
    exact shifted_refl b
  | some p =>
    simp only [wdata] at h
    split at h
    · cases h
      exact shifted_refl b
    · obtain ⟨⟨b1,d1,ok⟩,hw,h⟩ := Option.bind_eq_some_iff.mp h
      cases ok with
      | true =>
        obtain ⟨x,-,he⟩ := Option.bind_eq_some_iff.mp h
        have := append_ret he
        have := h0 p rfl
        omega
      | false =>
        cases h
        exact wcheck_shifted hf hw

theorem wstrv_shifted {text : Option (List Byte)} {r : ℤ} (hf : Fits b d) (h : wstrv b d text mem=some (b',d',r))
    (hr : r<0) : Shifted b b' := by
  cases text with
  | none =>
    cases h
    exact shifted_refl b
  | some x =>
    simp only [wstrv] at h
    split at h
    · cases h
      exact shifted_refl b
    · obtain ⟨⟨b1,d1,ok⟩,hw,h⟩ := Option.bind_eq_some_iff.mp h
      cases ok with
      | true =>
        have := append_ret h
        omega
      | false =>
        cases h
        exact wcheck_shifted hf hw

end Shift

/-! ### All or nothing -/

/-- The call has changed the buffer `i` alone, in this way. -/
def Changed (h h' : Heap β σ) (i : β) (P : Buf σ → Data → Buf σ → Data → Prop) : Prop :=
  ∃ b d b' d',h.buf i=some b ∧ h.store b.data=some d ∧ b'.data=b.data ∧ Fits b' d' ∧ h'=putBuf h i b' d' ∧ P b d b' d'

def Appended (x : List Byte) (b : Buf σ) (d : Data) (b' : Buf σ) (d' : Data) : Prop :=
  readable b' d'=readable b d ∧ slack b' d'=slack b d++x

def Unchanged (b : Buf σ) (d : Data) (b' : Buf σ) (d' : Data) : Prop :=
  readable b' d'=readable b d ∧ slack b' d'=slack b d ∧ Shifted b b'

def AllOrNothing (h h' : Heap β σ) (r : ℤ) (i : β) (x : List Byte) : Prop :=
  r=x.length ∧ Changed h h' i (Appended x) ∨ r<0 ∧ Changed h h' i Unchanged

section Single
variable {h h' : Heap β σ} {i j k : β} {x : List Byte} {r : ℤ}

theorem on_allOrNothing {f : Buf σ → Data → Dpbuf.Step σ} (hs : Sound h) (he : h.on i f=some (h',r))
    (hw : ∀ b∈h.buf i,∀ d∈h.store b.data,Fits b d → Block d → Writes b d x x.length (f b d))
    (hsh : ∀ b d b' d',Fits b d → f b d=some (b',d',r) → r<0 → Shifted b b') : AllOrNothing h h' r i x := by
  obtain ⟨b,d,b',d',hb,hd,hfb,hh⟩ := on_back he
  obtain ⟨d0,hd0,hf⟩ := hs.fits i b hb
  rw [hd] at hd0
  cases hd0
  obtain ⟨b1,d1,ho,hbc⟩ | ⟨b1,d1,r1,ho,hr1,hk⟩ := hw b hb d hd hf (hs.block _ _ hd)
  · rw [hfb] at ho
    cases ho
    exact .inl ⟨rfl,b,d,b',d',hb,hd,hbc.home,hbc.fits,hh hbc.home,hbc.readable,hbc.slack⟩
  · rw [hfb] at ho
    cases ho
    obtain hneg | ⟨rfl,rfl⟩ := hr1
    · exact .inr ⟨hneg,b,d,b',d',hb,hd,hk.home,hk.fits,hh hk.home,hk.readable,hk.slack,hsh b d b' d' hf hfb hneg⟩
    · refine .inl ⟨rfl,b,d,b',d',hb,hd,hk.home,hk.fits,hh hk.home,hk.readable,?_⟩
      rw [List.append_nil]
      exact hk.slack

end Single

/-! ### Two buffers -/

section Two
variable {h h' : Heap β σ} {i j k : β} {b o : Buf σ} {d e : Data} {len : ℤ} {mem : Mem}

/-- dpbuf_wbuf of a source that is the buffer itself or has storage of its own. -/
theorem wbuf_allOrNothing {r : ℤ} (hs : Sound h) (hi : h.buf i=some b) (hd : h.store b.data=some d) (hj : h.buf j=some o)
    (hoe : h.store o.data=some e) (hown : i=j ∨ o.data≠b.data) (he : wbuf h i j len false mem=some (h',r)) :
    AllOrNothing h h' r i (copied (readable o e) len) := by
  obtain ⟨d0,hd0,hf⟩ := hs.fits i b hi
  rw [hd] at hd0
  cases hd0
  obtain ⟨e0,he0,hfo⟩ := hs.fits j o hj
  rw [hoe] at he0
  cases he0
  have hbl := hs.block _ _ hd
  have hble := hs.block _ _ hoe
  obtain ⟨hn0,hn1,-⟩ := wlen_le hfo hble len
  have hcop := copied_take (length_readable hfo hble) len
  have hcl : ((copied (readable o e) len).length : ℤ)=wlen o len := by
    have hl := length_readable hfo hble
    rw [←hcop,List.length_take]
    unfold Buf.crsize at hn1
    omega
  have hroomy : refits b (wlen o len) → roomy b d := by
    obtain ⟨o1,ho1,h1⟩ := Option.bind_eq_some_iff.mp he
    rw [hj] at ho1
    cases ho1
    obtain ⟨⟨h2,ok⟩,h3,-⟩ := Option.bind_eq_some_iff.mp h1
    obtain ⟨b1,d1,b2,d2,hb1,hd1,hw,-⟩ := on_back h3
    rw [hi] at hb1
    cases hb1
    rw [hd] at hd1
    cases hd1
    exact fun href => wcheck_roomy hf hw href
  obtain ⟨b1,d1,ok,hw,hk,hs1,hno,hyes⟩ := wbuf_spec false mem hs hi hd hj hroomy
  cases ok with
  | false =>
    rw [hno rfl] at he
    cases he
    exact .inr ⟨by decide,b,d,b1,d1,hi,hd,hk.home,hk.fits,rfl,hk.readable,hk.slack,wcheck_shifted hf hw⟩
  | true =>
    obtain ⟨x,b2,d2,hx,-,-,hbc,-,_,_,-,-,-,hwb⟩ := hyes rfl
    simp only [hwb,Bool.false_eq_true,if_false,Option.some.injEq,Prod.mk.injEq] at he
    obtain ⟨rfl,rfl⟩ := he
    rw [hk.readable,hk.slack] at hbc
    have hxc : x=copied (readable o e) len := by
      rw [←hcop]
      by_cases hij : i=j
      · subst hij
        rw [hi] at hj
        cases hj
        rw [hd] at hoe
        cases hoe
        have hl1 := length_readable hk.fits hk.grows.block
        rw [hk.readable,length_readable hf hbl] at hl1
        rw [←hk.readable]
        exact read_take (putBuf_buf ..) (putBuf_store ..) hk.fits (by unfold Buf.crsize at hn1 ⊢; omega) hx
      · have hne : o.data≠b1.data := by
          rw [hk.home]
          exact hown.resolve_left hij
        exact read_take ((putBuf_ne b1 d1 (Ne.symm hij)).trans hj) ((Function.update_of_ne hne ..).trans hoe) hfo hn1 hx
    rw [hxc] at hbc
    exact .inl ⟨hcl.symm,b,d,b2,d2,hi,hd,hbc.home.trans hk.home,hbc.fits,rfl,hbc.readable,hbc.slack⟩

theorem load_nonneg {p n : ℤ} {x : List Byte} (hl : d.load p n=some x) : 0≤n := by
  unfold Data.load at hl
  split at hl
  · rename_i hin
    exact hin.1
  · cases hl

theorem wbuf_fails {r : ℤ} (he : wbuf h i j len false mem=some (h',r)) (hr : r<0) : r=enomem := by
  obtain ⟨o,ho,h1⟩ := Option.bind_eq_some_iff.mp he
  obtain ⟨⟨h2,ok⟩,-,h3⟩ := Option.bind_eq_some_iff.mp h1
  cases ok with
  | false =>
    cases h3
    rfl
  | true =>
    obtain ⟨x,hx,h4⟩ := Option.bind_eq_some_iff.mp h3
    obtain ⟨⟨h5,r1⟩,h6,h7⟩ := Option.bind_eq_some_iff.mp h4
    obtain ⟨b1,d1,b2,d2,-,-,ha,-⟩ := on_back h6
    cases h7
    obtain ⟨o1,-,h8⟩ := Option.bind_eq_some_iff.mp hx
    obtain ⟨e1,-,h9⟩ := Option.bind_eq_some_iff.mp h8
    have hpos := load_nonneg h9
    rw [append_ret ha] at hr
    exact absurd hpos (not_le.mpr hr)

/-- Buffers with storage of their own are put in any order. -/
theorem putBuf_swap (hij : i≠j) (hne : b.data≠o.data) : putBuf (putBuf h i b d) j o e=putBuf (putBuf h j o e) i b d := by
  simp only [putBuf,Function.update_comm hij,Function.update_comm hne]

theorem putBuf_around {b' : Buf σ} {d' : Data} (hij : i≠j) (hne : b.data≠o.data) (hh : b'.data=b.data) :
    putBuf (putBuf (putBuf h i b d) j o e) i b' d'=putBuf (putBuf h i b' d') j o e := by
  rw [putBuf_swap hij hne,putBuf_twice hh,putBuf_swap hij.symm (by rw [hh]; exact hne.symm)]

/-- dpbuf_readto finds nothing: the readable window is dropped, as by any reader. -/
def Dropped (h h' : Heap β σ) (i : β) : Prop :=
  ∃ b d,h.buf i=some b ∧ h.store b.data=some d ∧ slack b d=[] ∧ h'=putBuf h i {b with rbeg := b.rend} d

/-- dpbuf_readto: what goes to the destination is taken here, and it is readable there. -/
def Taken (h h' : Heap β σ) (r : ℤ) (i j : β) (size : ℤ) : Prop :=
  ∃ b d b' c u c' u' x,h.buf i=some b ∧ h.store b.data=some d ∧ h.buf j=some c ∧ h.store c.data=some u ∧
    b'.data=b.data ∧ c'.data=c.data ∧ h'=putBuf (putBuf h i b' d) j c' u' ∧
    x=copied (slack b d) size ∧ r=x.length ∧ slack b d=x++slack b' d ∧ readable b' d=[] ∧
    readable c' u'=readable c u++slack c u++x ∧ slack c' u'=[]

theorem copied_append (x : List Byte) (len : ℤ) : ∃ y,x=copied x len++y ∧ y=x.drop (copied x len).length := by
  unfold copied
  split
  · exact ⟨[],by simp only [List.append_nil],by simp only [List.drop_length]⟩
  · refine ⟨x.drop len.toNat,(List.take_append_drop ..).symm,?_⟩
    rw [List.length_take]
    by_cases hl : len.toNat≤x.length
    · rw [min_eq_left hl]
    · rw [min_eq_right (by omega),List.drop_of_length_le (by omega),List.drop_length]

theorem readto_taken {size r : ℤ} (hs : Sound h) (hij : i≠j) (hown : ∀ b∈h.buf i,∀ c∈h.buf j,c.data≠b.data)
    (he : readto h i j size mem=some (h',r)) : r=enodata ∧ Dropped h h' i ∨ Taken h h' r i j size ∨ r=enomem := by
  obtain ⟨⟨h1,sz⟩,hon,he1⟩ := Option.bind_eq_some_iff.mp he
  obtain ⟨b,d,b1,d1,hb,hd,hfb,hh1⟩ := on_back hon
  obtain ⟨d0,hd0,hf⟩ := hs.fits i b hb
  rw [hd] at hd0
  cases hd0
  have hbl := hs.block _ _ hd
  have hsl := length_slack hf hbl
  obtain ⟨b2,hr2,hbc⟩ := rall_spec hf hbl
  rw [readtoBegin_rall,hr2] at hfb
  cases hfb
  have hb1 : b1={b with rbeg := b.rend, rend := b.wbeg} := by
    unfold rall at hr2
    cases hr2
    rfl
  cases hh1 hbc.home
  have hs1 := sound_putBuf hs hb hd hbc.fits hbc.grows hbc.home
  simp only at he1
  split at he1
  · rename_i hz
    cases he1
    have hemp : slack b d=[] := List.eq_nil_of_length_eq_zero (by omega)
    refine .inl ⟨rfl,b,d,hb,hd,hemp,?_⟩
    have hwe : b.rend=b.wbeg := by omega
    rw [hb1,←hwe]
  · obtain ⟨⟨h2,wsz⟩,hwb,he2⟩ := Option.bind_eq_some_iff.mp he1
    obtain ⟨⟨h3,_⟩,hon3,he3⟩ := Option.bind_eq_some_iff.mp he2
    obtain ⟨b3,e3,b4,e4,hb3,hd3,hend,hh'⟩ := on_back he3
    cases hend
    by_cases hneg : wsz<0
    · exact .inr (.inr (wbuf_fails hwb hneg))
    · refine .inr (.inl ?_)
      have hbi := putBuf_buf h i b1 d
      have hbd := putBuf_store h i b1 d
      obtain ⟨c,hc⟩ : ∃ c,(putBuf h i b1 d).buf j=some c := by
        obtain ⟨o,ho,hw1⟩ := Option.bind_eq_some_iff.mp hwb
        obtain ⟨⟨h4,ok⟩,hw2,-⟩ := Option.bind_eq_some_iff.mp hw1
        obtain ⟨c,-,-,-,hc,-⟩ := on_back hw2
        exact ⟨c,hc⟩
      have hcj : h.buf j=some c := (putBuf_ne b1 d (Ne.symm hij)).symm.trans hc
      have hne : c.data≠b.data := hown b hb c hcj
      obtain ⟨u,hu,-⟩ := hs1.fits j c hc
      have huj : h.store c.data=some u := (Function.update_of_ne (hbc.home ▸ hne) ..).symm.trans hu
      obtain ⟨hlen,c1,u1,c2,u2,hc1,hu1,hcd,hf2,hh2,hap,hap2⟩ | ⟨hneg',-⟩ := wbuf_allOrNothing hs1 hc hu hbi hbd
          (.inr (by rw [hbc.home]; exact hne.symm)) hwb
      · rw [hc] at hc1
        cases hc1
        rw [hu] at hu1
        cases hu1
        subst hh2
        obtain ⟨c3,u3,c4,u4,hc3,hu3,hset,hh3⟩ := on_back hon3
        rw [putBuf_buf] at hc3
        cases hc3
        rw [putBuf_store] at hu3
        cases hu3
        cases hset
        have h3e := (hh3 rfl).trans (putBuf_twice rfl)
        subst h3e
        rw [putBuf_ne _ _ hij,putBuf_buf] at hb3
        cases hb3
        have hb1c : b1.data≠c2.data := by
          rw [hcd,hbc.home]
          exact hne.symm
        have hst : (putBuf (putBuf h i b1 d) j {c2 with rend := c2.wbeg} u2).store b1.data=some d :=
          (Function.update_of_ne hb1c ..).trans hbd
        rw [hst] at hd3
        cases hd3
        have hx : readable b1 d=slack b d := hbc.readable
        rw [hx] at hlen hap2
        obtain ⟨y,hy,hyd⟩ := copied_append (slack b d) size
        have hyl := congrArg List.length hy
        rw [List.length_append] at hyl
        have g0 := hf.rbeg
        have g1 := hf.rend
        have g2 := hf2.rend
        have g3 := hf2.wbeg
        refine ⟨b,d,{b1 with rend := b1.wbeg-(b.wbeg-b.rend-wsz), rbeg := b1.wbeg-(b.wbeg-b.rend-wsz)},c,u,
          {c2 with rend := c2.wbeg},u2,_,hb,hd,hcj,huj,hbc.home,hcd,?_,rfl,hlen,?_,?_,?_,?_⟩
        · exact (hh' rfl).trans (putBuf_around (o := {c2 with rend := c2.wbeg}) hij hb1c rfl)
        · -- the reader steps back to what was not taken
          conv_lhs => rw [hy,hyd]
          simp only [hb1,slack]
          rw [drop_seg]
          simp only [slack] at hlen hyl hsl
          congr 2
          omega
        · simp only [readable,seg_self]
        · rw [List.append_assoc,←hap2,←hap]
          exact (seg_append (Int.toNat_le_toNat g2) (Int.toNat_le_toNat g3)).symm
        · simp only [slack,seg_self]
      · exact absurd hneg' hneg

end Two

/-! ### Writes -/

/-- A source and its destination have storage of their own; dpbuf_wbuf also writes a buffer to itself. -/
def own (h : Heap β σ) : Act β σ → Prop
  | .wbuf i j _ _ _ => i=j ∨ ∀ b∈h.buf i,∀ c∈h.buf j,c.data≠b.data
  | .readto i j _ _ => i≠j ∧ ∀ b∈h.buf i,∀ c∈h.buf j,c.data≠b.data
  | _ => True

instance (h : Heap β σ) (a : Act β σ) : Decidable (own h a) := by
  induction a using Act.casesOn <;> (dsimp only [own]; infer_instance)

def Atomic (h h' : Heap β σ) (r : ℤ) (a : Act β σ) : Prop :=
  match a with
  | .wdata i _ _ _ | .wfill i _ _ _ | .wstrv i _ _ | .wbuf i _ _ false _ => AllOrNothing h h' r i (bytesOf h a)
  | .readto i j size _ => r=enodata ∧ Dropped h h' i ∨ Taken h h' r i j size ∨ r=enomem
  | _ => True

/-- A write takes all of its bytes, or fails and leaves both windows and the free space of its buffer. -/
theorem write_atomic {h : Heap β σ} {a : Act β σ} (hs : Sound h) (hg : guarded h a) (ho : own h a) :
    ∃ h' r,step h a=some (h',r) ∧ Sound h' ∧ Atomic h h' r a := by
  obtain ⟨hen,hm⟩ := hg
  obtain ⟨h',r,he,hs'⟩ := sound_step hs hen hm
  refine ⟨h',r,he,hs',?_⟩
  cases a with
  | wdata i data len mem =>
    have hlen (p : List Byte) (hp : p∈data) : 0≤len.1 ∧ len.1≤p.length := ⟨(hm p hp).1,hen.2 p hp⟩
    apply on_allOrNothing hs he
    · intro b hb d hd hf hbl
      cases data with
      | none => exact .inr ⟨b,d,einval,rfl,.inl (by decide),keeps_refl hf hbl⟩
      | some p =>
        have hw := wdata_spec hf hbl len.2.2 hlen ((hm p rfl).2 b hb d hd) mem
        have hl : ((p.take len.1.toNat).length : ℤ)=len.1 := by
          have := hlen p rfl
          rw [List.length_take]
          omega
        simp only [bytesOf,Option.getD_some,hl]
        exact hw
    · intro b d b' d' hf hw hr
      exact wdata_shifted hf (fun p hp => (hlen p hp).1) hw hr
  | wfill i len v mem =>
    apply on_allOrNothing hs he
    · intro b hb d hd hf hbl
      have hl : ((List.replicate len.1.toNat v).length : ℤ)=len.1 := by
        rw [List.length_replicate]
        exact Int.toNat_of_nonneg hm.1
      simp only [bytesOf,hl]
      exact wfill_spec hf hbl hm.1 len.2.2 (hm.2 b hb d hd) v mem
    · intro b d b' d' hf hw hr
      exact wfill_shifted hf hm.1 hw hr
  | wstrv i text mem =>
    apply on_allOrNothing hs he
    · intro b hb d hd hf hbl
      exact wstrv_spec hf hbl (fun x hx => (hm x hx).1) (fun x hx => (hm x hx).2 b hb d hd) mem
    · intro b d b' d' hf hw hr
      exact wstrv_shifted hf hw hr
  | wbuf i j len consume mem =>
    cases consume with
    | true => trivial
    | false =>
      obtain ⟨b,hb⟩ := Option.ne_none_iff_exists'.mp hen.1
      obtain ⟨c,hc⟩ := Option.ne_none_iff_exists'.mp hen.2
      obtain ⟨d,hd,-⟩ := hs.fits i b hb
      obtain ⟨e,hce,-⟩ := hs.fits j c hc
      have hout := wbuf_allOrNothing hs hb hd hc hce (ho.imp_right fun hne => hne b hb c hc) he
      simp only [Atomic,bytesOf,queueOf_some hc hce,queue]
      exact hout
  | readto i j size mem => exact readto_taken hs ho.1 ho.2 he
  | _ => trivial

/-- Two bytes of eight are read. -/
def used : Option (Heap (Fin 2) (Fin 2)) := execOk run guarded {} [.new 0 0 8 (some fun _ => 7),
  .wdata 0 (some [97,98]) 2 none,.rdata 0 2,.rdata 0 0]

/-- Eight more bytes, which take a new block. -/
def refill : Act (Fin 2) (Fin 2) := .wfill 0 8 99 (some fun _ => 7)

theorem write_atomic_used : ∃ h∈used,∃ h' r,step h refill=some (h',r) ∧ r=8 ∧ Atomic h h' r refill := by
  have hrun : used.any (fun h => decide (guarded h refill ∧ (step h refill).map (·.2)=some 8))=true := by decide +kernel
  obtain ⟨h,hh,hf⟩ := (Option.any_eq_true _ _).mp hrun
  obtain ⟨hg,hr⟩ := of_decide_eq_true hf
  obtain ⟨h',r,he,-,hat⟩ := write_atomic (sound_run sound_nothing (execOk_reach hh)) hg trivial
  rw [he] at hr
  exact ⟨h,hh,h',r,he,Option.some.inj hr,hat⟩

/-- A write of 100 bytes, for which there is no memory, has taken the cursors back to the front. -/
theorem write_moves : ¬∀ (h h' : Heap (Fin 2) (Fin 2)) (i : Fin 2) (p : Option (List Byte)) (n : CInt) (mem : Mem) (r : ℤ),
    Reach run guarded {} h → step h (.wdata i p n mem)=some (h',r) → r<0 → ∀ b∈h.buf i,∀ b'∈h'.buf i,b'.wbeg=b.wbeg := by
  intro hall
  have hrun : used.any (fun h => (step h (.wdata 0 (some (List.replicate 100 99)) ⟨100,by decide⟩ none)).any
      fun p => decide (p.2=enomem ∧ (h.buf 0).map (·.wbeg)=some 2 ∧ (p.1.buf 0).map (·.wbeg)=some 0))=true := by
    decide +kernel
  obtain ⟨h,hh,hf⟩ := (Option.any_eq_true _ _).mp hrun
  obtain ⟨⟨h',r⟩,he,hp⟩ := (Option.any_eq_true _ _).mp hf
  obtain ⟨hr,h1,h2⟩ := of_decide_eq_true hp
  obtain ⟨b,hb,hb2⟩ := Option.map_eq_some_iff.mp h1
  obtain ⟨b',hb',hb0⟩ := Option.map_eq_some_iff.mp h2
  have := hall h h' 0 _ _ _ r (execOk_reach hh) he (by rw [show r=enomem from hr]; decide) b hb b' hb'
  omega

end Dpapp.DpbufWrite
