import Dpapp.DpbufQueue

/-! # Buffers that share their storage -/

set_option linter.unusedSectionVars false

namespace Dpapp.DpbufShare
open Dpapp.Machine Dpapp.Segment Dpapp.Dpbuf Dpapp.DpbufSpec Dpapp.DpbufFits
open Dpapp.DpbufQueue (view)

variable {β σ : Type*} [DecidableEq β] [DecidableEq σ]

/-! ### Bytes below a position -/

/-- The bytes below `n` are what they were. -/
def Below (n : ℕ) (d d' : Data) : Prop := seg d'.data 0 n=seg d.data 0 n

section Below
variable {b b' : Buf σ} {d d' : Data} {mem : Mem} {r : Bool} {n : ℕ}

theorem below_seg {a c : ℕ} (h : Below n d d') (hc : c≤n) : seg d'.data a c=seg d.data a c := by
  have hcut (l : List Byte) : seg l a c=((seg l 0 n).take c).drop a := by
    rw [take_seg (by omega),drop_seg]
    simp
  rw [hcut,hcut,h]

/-- Recycling finds nothing to do. -/
def settled (b : Buf σ) (d : Data) : Prop := b.rbeg≠b.wbeg ∧ ¬compacts b d

instance (b : Buf σ) (d : Data) : Decidable (settled b d) := inferInstanceAs (Decidable (_ ∧ _))

theorem recycleData_settled (h : settled b d) : recycleData b d=some (b,d) := by
  rw [recycleData,if_neg h.1,if_neg h.2]

theorem resize_below (hf : Fits b d) (hb : Block d) {size : ℤ} (hw : b.wbeg≤ size ∨ size≤0)
    (h : resize b d size mem=some (b',d',r)) : b'.data=b.data ∧ b'.wbeg=b.wbeg ∧ ((n : ℤ)≤b.wbeg → Below n d d') := by
  have h3 := hf.size
  have h4 := hf.maxs
  unfold resize at h
  split at h
  · cases h
    exact ⟨rfl,rfl,fun _ => rfl⟩
  · rename_i hpos
    obtain ⟨d1,r1,hr,-,-,-,hseg⟩ := dataResize_spec hb (by omega : 0<size) mem
    rw [hr] at h
    cases h
    refine ⟨by split <;> rfl,by split <;> rfl,fun hn => hseg 0 n (by omega) (by omega)⟩

theorem resizew_below (hf : Fits b d) (hb : Block d) {s : ℤ} (hs : s≤ intMax)
    (hset : 0≤ s → b.norecycle=false → settled b d) (h : resizew b d s mem=some (b',d',r)) :
    b'.data=b.data ∧ b'.wbeg=b.wbeg ∧ ((n : ℤ)≤b.wbeg → Below n d d') := by
  have h0 := hf.rbeg
  have h1 := hf.rend
  have h2 := hf.wbeg
  have hint := hb.int
  have h3 := hf.size
  have h4 := hf.maxs
  unfold intMax at hs hint
  unfold resizew at h
  split at h
  · rename_i hpos
    have hrec : (if b.norecycle=true then some (b,d) else recycleData b d)=some (b,d) := by
      cases hn : b.norecycle with
      | true => rfl
      | false => exact recycleData_settled (hset hpos hn)
    rw [hrec] at h
    simp only [Option.bind_some] at h
    have hwrap := wrap_cases (b.wbeg+s)
    refine resize_below hf hb ?_ h
    by_cases hlt : b.wbeg+s≤2147483647
    · have := hwrap.2.2.1 (by omega) hlt
      exact .inl (by omega)
    · have := hwrap.2.2.2 (by omega) (by omega)
      exact .inr (by omega)
  · cases h
    exact ⟨rfl,rfl,fun _ => rfl⟩

theorem wcheck_below (hf : Fits b d) (hb : Block d) {len : ℤ} (hl : len≤ intMax) (hset : refits b len → settled b d)
    (h : wcheck b d len mem=some (b',d',r)) : b'.data=b.data ∧ b'.wbeg=b.wbeg ∧ ((n : ℤ)≤b.wbeg → Below n d d') := by
  unfold wcheck at h
  split at h
  · rename_i hlt
    exact resizew_below hf hb hl (fun _ hn => hset ⟨hlt,hn⟩) h
  · cases h
    exact ⟨rfl,rfl,fun _ => rfl⟩

theorem append_below {x : List Byte} {len q : ℤ} (h : append b d x len=some (b',d',q)) (hn : n≤b.wbeg) : Below n d d' := by
  obtain ⟨d1,hd,he⟩ := Option.map_eq_some_iff.mp h
  cases he
  unfold Data.store at hd
  split at hd
  · cases hd
    exact seg_put_off (by omega) (.inl (by omega))
  · cases hd

theorem recycle_below {force : Bool} {q : ℤ} (hf : Fits b d) (hb : Block d)
    (hset : (force || !b.norecycle)=true → settled b d) (h : recycle b d force=some (b',d',q)) :
    (n : ℤ)≤b.wbeg → Below n d d' := by
  unfold recycle at h
  split at h
  · rename_i hc
    rw [recycleData_settled (hset hc),Option.bind_some] at h
    obtain ⟨⟨b1,d1,r1⟩,hr,hx⟩ := Option.map_eq_some_iff.mp h
    cases hx
    exact (resize_below hf hb (.inr le_rfl) hr).2.2
  · cases h
    exact fun _ => rfl

/-- A writer: room, and then bytes at the cursor or nothing. -/
theorem write_below {b1 : Buf σ} {d1 : Data} {need : ℤ} (hf : Fits b d) (hb : Block d) (hneed : need≤ intMax)
    (hset : refits b need → settled b d) (hw : wcheck b d need mem=some (b1,d1,r))
    (h : d'=d1 ∨ ∃ b2 x len q,append b1 d1 x len=some (b2,d',q)) : (n : ℤ)≤b.wbeg → Below n d d' := by
  intro hn
  obtain ⟨-,hw1,hbe⟩ := wcheck_below (n := n) hf hb hneed hset hw
  obtain rfl | ⟨b2,x,len,q,ha⟩ := h
  · exact hbe hn
  · exact (append_below ha (by omega)).trans (hbe hn)

theorem wfill_below {len q : ℤ} {v : Byte} (hf : Fits b d) (hb : Block d) (hint : len≤ intMax)
    (hset : refits b len → settled b d) (h : wfill b d len v mem=some (b',d',q)) : (n : ℤ)≤b.wbeg → Below n d d' := by
  obtain ⟨⟨b1,d1,ok⟩,hw,hrest⟩ := Option.bind_eq_some_iff.mp h
  refine write_below hf hb hint hset hw ?_
  cases ok with
  | false =>
    cases hrest
    exact .inl rfl
  | true =>
    simp only [if_true] at hrest
    split at hrest
    · cases hrest
    · exact .inr ⟨_,_,_,_,hrest⟩

theorem wdata_below {data : Option (List Byte)} {len q : ℤ} (hf : Fits b d) (hb : Block d) (hint : len≤ intMax)
    (hset : refits b len → settled b d) (h : wdata b d data len mem=some (b',d',q)) : (n : ℤ)≤b.wbeg → Below n d d' := by
  cases data with
  | none =>
    cases h
    exact fun _ => rfl
  | some p =>
    simp only [wdata] at h
    split at h
    · cases h
      exact fun _ => rfl
    · obtain ⟨⟨b1,d1,ok⟩,hw,hrest⟩ := Option.bind_eq_some_iff.mp h
      refine write_below hf hb hint hset hw ?_
      cases ok with
      | false =>
        cases hrest
        exact .inl rfl
      | true =>
        obtain ⟨x,-,ha⟩ := Option.bind_eq_some_iff.mp hrest
        exact .inr ⟨_,_,_,_,ha⟩

theorem wstrv_below {text : Option (List Byte)} {q : ℤ} (hf : Fits b d) (hb : Block d) (hint : ∀ x∈text,x.length≤ intMax)
    (hset : ∀ x∈text,refits b (x.length+1) → settled b d) (h : wstrv b d text mem=some (b',d',q)) :
    (n : ℤ)≤b.wbeg → Below n d d' := by
  cases text with
  | none =>
    cases h
    exact fun _ => rfl
  | some x =>
    have hx := hint x rfl
    have hsize := hf.size
    unfold intMax at hx
    simp only [wstrv] at h
    split at h
    · cases h
      exact fun _ => rfl
    · obtain ⟨⟨b1,d1,ok⟩,hw,hrest⟩ := Option.bind_eq_some_iff.mp h
      have hwrap := wrap_cases ((x.length : ℤ)+1)
      -- a length that wraps asks for nothing
      have hfit (href : refits b (wrap (x.length+1))) : settled b d := by
        by_cases hlt : (x.length : ℤ)+1≤2147483647
        · rw [hwrap.2.2.1 (by omega) hlt] at href
          exact hset x rfl href
        · have := hwrap.2.2.2 (by omega) (by omega)
          have := href.1
          omega
      refine write_below hf hb hwrap.2.1 hfit hw ?_
      cases ok with
      | false =>
        cases hrest
        exact .inl rfl
      | true => exact .inr ⟨_,_,_,_,hrest⟩

/-! The other calls store nothing. -/

theorem reset_same {initR initW : Bool} {q : ℤ} (h : reset b d initR initW=some (b',d',q)) : d'=d := by
  unfold reset at h
  split at h
  · cases h
    rfl
  · split at h
    · cases h
      rfl
    · cases h
      rfl

theorem rws_same {q : ℤ} (h : rws b d=some (b',d',q)) : d'=d := by
  obtain ⟨x,-,hx⟩ := Option.map_eq_some_iff.mp h
  cases hx
  rfl

theorem rmust_same {len q : ℤ} (h : rmust b d len=some (b',d',q)) : d'=d := by
  simp only [rmust] at h
  split at h
  · cases h
    rfl
  · cases h
    rfl

theorem runtil_same {p : Option (List Byte)} {m q : ℤ} (h : runtil b d p m=some (b',d',q)) : d'=d := by
  obtain ⟨k,-,hx⟩ := Option.map_eq_some_iff.mp h
  simp only at hx
  split at hx
  · cases hx
    rfl
  · cases hx
    rfl

theorem rcstr_same {q : ℤ} (h : rcstr b d=some (b',d',q)) : d'=d := by
  obtain ⟨x,-,hx⟩ := Option.map_eq_some_iff.mp h
  cases hx
  rfl

theorem cequalc_same {sub : List Byte} {len q : ℤ} (h : cequalc b d sub len=some (b',d',q)) : d'=d := by
  obtain ⟨l,-,h1⟩ := Option.bind_eq_some_iff.mp h
  split at h1
  · cases h1
    rfl
  · obtain ⟨x,-,h2⟩ := Option.bind_eq_some_iff.mp h1
    obtain ⟨y,-,h3⟩ := Option.map_eq_some_iff.mp h2
    cases h3
    rfl

theorem cstrlen_same {q : ℤ} (h : cstrlen b d=some (b',d',q)) : d'=d := by
  obtain ⟨x,-,hx⟩ := Option.map_eq_some_iff.mp h
  cases hx
  rfl

theorem cbegwith_same {sub : Option (List Byte)} {len q : ℤ} {skip : Bool} (h : cbegwith b d sub len skip=some (b',d',q)) :
    d'=d := by
  cases sub with
  | none =>
    cases h
    rfl
  | some p =>
    simp only [cbegwith] at h
    split at h
    · cases h
      rfl
    · obtain ⟨l,-,h1⟩ := Option.bind_eq_some_iff.mp h
      split at h1
      · cases h1
        rfl
      · obtain ⟨m,-,h2⟩ := Option.bind_eq_some_iff.mp h1
        split at h2
        · cases h2
          rfl
        · obtain ⟨x,-,h3⟩ := Option.bind_eq_some_iff.mp h2
          obtain ⟨y,-,h4⟩ := Option.map_eq_some_iff.mp h3
          cases h4
          rfl

end Below

theorem ccmp_same {h h' : Heap β σ} {i j : β} {q : ℤ} (he : ccmp h i j=some (h',q)) : h'=h := by
  unfold ccmp at he
  split at he
  · cases he
    rfl
  · obtain ⟨a,-,h1⟩ := Option.bind_eq_some_iff.mp he
    obtain ⟨b,-,h2⟩ := Option.bind_eq_some_iff.mp h1
    split at h2
    · cases h2
      rfl
    · split at h2
      · obtain ⟨x,-,h3⟩ := Option.bind_eq_some_iff.mp h2
        obtain ⟨y,-,h4⟩ := Option.map_eq_some_iff.mp h3
        cases h4
        rfl
      · cases h2
        rfl

/-! ### What a call leaves alone -/

/-- The buffer whose storage the call writes to. -/
def writer : Act β σ → Option β
  | .recycle i _ | .resizew i _ _ | .wfill i _ _ _ | .wdata i _ _ _ | .wstrv i _ _ | .wbuf i _ _ _ _ => some i
  | .readto _ j _ _ => some j
  | _ => none

/-- The buffers whose cursors the call moves, and the ones it makes or frees. -/
def moved : Act β σ → List β
  | .readto i j _ _ => [i,j]
  | .wbuf i j _ consume _ => if consume then [i,j] else [i]
  | .ccmp _ _ => []
  | .new i _ _ _ | .newD i _ _ _ _ _ _ _ | .newV i _ _ _ | .newR i _ _ _ | .dup i _ _ _ _ | .del i | .recycle i _
  | .setRecycle i _ | .reset i _ _ | .resizew i _ _ | .rseek i _ _ | .wseek i _ _ | .eseek i _ _ | .rws i | .rdata i _
  | .rmust i _ | .runtil i _ _ | .rcstr i | .rall i | .wfill i _ _ _ | .wdata i _ _ _ | .wstrv i _ _ | .cfind i _ _ _
  | .cequalc i _ _ | .cstrlen i | .cbegwith i _ _ _ => [i]

/-- The write recycles nothing: there is room, recycling is off, or it has nothing to do. -/
def inPlace (h : Heap β σ) : Act β σ → Prop
  | .recycle i force => At h i fun b d => (force || !b.norecycle)=true → settled b d
  | .resizew i n _ => At h i fun b d => 0≤n.1 → b.norecycle=false → settled b d
  | .wfill i len _ _ | .wdata i _ len _ => At h i fun b d => refits b len → settled b d
  | .wstrv i text _ => ∀ x∈text,At h i fun b d => refits b (x.length+1) → settled b d
  | .wbuf i j len _ _ => At h i fun b d => ∀ o∈h.buf j,refits b (wlen o len) → settled b d
  | .readto i j size _ => ∀ q∈reading h i,∀ o∈q.1.buf i,At q.1 j fun c u => refits c (wlen o size) → settled c u
  | _ => True

/-- Where a call writes: the storage, and the cursor. -/
def wpos (h : Heap β σ) (a : Act β σ) : Option (σ × ℤ) :=
  (writer a).bind fun i => (h.buf i).map fun b => (b.data,b.wbeg)

/-- For the buffer `k`: its cursors are what they were, and so are the bytes of its storage, only those below
the write position `w` if that is in its storage. -/
def Leaves (h h' : Heap β σ) (k : β) (w : Option (σ × ℤ)) : Prop :=
  ∀ c d,h.buf k=some c → h.store c.data=some d → h'.buf k=some c ∧ ∃ d',h'.store c.data=some d' ∧
    ∀ n : ℕ,(∀ p∈w,p.1=c.data → n≤p.2) → Below n d d'

section Leaves
variable {h h' h'' : Heap β σ} {i j k : β} {w : Option (σ × ℤ)} {b b' : Buf σ} {d d' : Data}

theorem leaves_refl (h : Heap β σ) (k : β) (w : Option (σ × ℤ)) : Leaves h h k w :=
  fun _ d hc hd => ⟨hc,d,hd,fun _ _ => rfl⟩

theorem leaves_trans (h1 : Leaves h h' k w) (h2 : Leaves h' h'' k w) : Leaves h h'' k w := by
  intro c d hc hd
  obtain ⟨hc1,d1,hd1,hb1⟩ := h1 c d hc hd
  obtain ⟨hc2,d2,hd2,hb2⟩ := h2 c d1 hc1 hd1
  exact ⟨hc2,d2,hd2,fun n hn => (hb2 n hn).trans (hb1 n hn)⟩

/-- A call on one buffer. -/
theorem on_leaves {γ : Type*} {f : Buf σ → Data → Option (Buf σ × Data × γ)} {r : γ} (hik : k≠i)
    (he : h.on i f=some (h',r)) (hf : ∀ b d b' d',h.buf i=some b → h.store b.data=some d → f b d=some (b',d',r) →
      ∀ n : ℕ,(∀ p∈w,p.1=b.data → n≤p.2) → Below n d d') : Leaves h h' k w := by
  obtain ⟨b,hb,h1⟩ := Option.bind_eq_some_iff.mp he
  obtain ⟨d,hd,h2⟩ := Option.bind_eq_some_iff.mp h1
  obtain ⟨⟨b',d',r'⟩,hfb,h3⟩ := Option.map_eq_some_iff.mp h2
  cases h3
  have hbe := hf b d b' d' hb hd hfb
  intro c e hc he
  refine ⟨(Function.update_of_ne hik ..).trans hc,?_⟩
  by_cases hcb : c.data=b.data
  · rw [hcb,hd] at he
    cases he
    exact ⟨d',by rw [hcb]; exact Function.update_self ..,fun n hn => hbe n fun p hp hpb => hn p hp (hpb.trans hcb.symm)⟩
  · exact ⟨e,(Function.update_of_ne hcb ..).trans he,fun _ _ => rfl⟩

/-- A call that moves cursors only. -/
theorem on_leaves_same {γ : Type*} {f : Buf σ → Data → Option (Buf σ × Data × γ)} {r : γ} (hik : k≠i)
    (he : h.on i f=some (h',r)) (hf : ∀ b d b' d',f b d=some (b',d',r) → d'=d) : Leaves h h' k w :=
  on_leaves hik he fun b d b' d' _ _ hfb n _ => by
    cases hf b d b' d' hfb
    rfl

theorem sound_at (hs : Sound h) (hb : h.buf i=some b) (hd : h.store b.data=some d) : Fits b d ∧ Block d := by
  obtain ⟨d0,hd0,hf⟩ := hs.fits i b hb
  rw [hd] at hd0
  cases hd0
  exact ⟨hf,hs.block _ _ hd⟩

/-- A writer of `i`. -/
theorem write_leaves {f : Buf σ → Data → Option (Buf σ × Data × ℤ)} {r : ℤ} (hs : Sound h) (hik : k≠i)
    (hw : w=(h.buf i).map fun b => (b.data,b.wbeg)) (he : h.on i f=some (h',r)) (hf : ∀ b d b' d',h.buf i=some b →
      h.store b.data=some d → Fits b d → Block d → f b d=some (b',d',r) → ∀ n : ℕ,(n : ℤ)≤b.wbeg → Below n d d') :
    Leaves h h' k w :=
  on_leaves hik he fun b d b' d' hb hd hfb n hn => by
    obtain ⟨hfit,hbl⟩ := sound_at hs hb hd
    rw [hb] at hw
    subst hw
    exact hf b d b' d' hb hd hfit hbl hfb n (hn _ rfl rfl)

/-- dpbuf_wbuf: room, the copy, and the cursor of the source. -/
theorem wbuf_leaves {len r : ℤ} {consume : Bool} {mem : Mem} (hs : Sound h) (hik : k≠i) (hkj : consume=true → k≠j)
    (hset : At h i fun b d => ∀ o∈h.buf j,refits b (wlen o len) → settled b d)
    (he : wbuf h i j len consume mem=some (h',r)) : Leaves h h' k ((h.buf i).map fun b => (b.data,b.wbeg)) := by
  obtain ⟨o,ho,h1⟩ := Option.bind_eq_some_iff.mp he
  obtain ⟨⟨h2,ok⟩,hw,h3⟩ := Option.bind_eq_some_iff.mp h1
  obtain ⟨e,hoe,hfo⟩ := hs.fits j o ho
  obtain ⟨-,-,hnm⟩ := wlen_le hfo (hs.block _ _ hoe) len
  obtain ⟨b,hb,hw1⟩ := Option.bind_eq_some_iff.mp hw
  obtain ⟨d,hd,hw2⟩ := Option.bind_eq_some_iff.mp hw1
  obtain ⟨⟨b1,d1,r1⟩,hwc,hw3⟩ := Option.map_eq_some_iff.mp hw2
  cases hw3
  obtain ⟨hf,hbl⟩ := sound_at hs hb hd
  rw [hb,Option.map_some]
  have hchk (n : ℕ) := wcheck_below (n := n) hf hbl hnm (hset b hb d hd o ho) hwc
  have hl1 := on_leaves (w := some (b.data,b.wbeg)) hik hw fun b0 d0 b' d' hb0 hd0 hfb n hn => by
    rw [hb] at hb0
    cases hb0
    rw [hd] at hd0
    cases hd0
    cases hwc.symm.trans hfb
    exact (hchk n).2.2 (hn _ rfl rfl)
  cases ok with
  | false =>
    cases h3
    exact hl1
  | true =>
    obtain ⟨x,-,h4⟩ := Option.bind_eq_some_iff.mp h3
    obtain ⟨⟨h5,r5⟩,hap,h6⟩ := Option.bind_eq_some_iff.mp h4
    have hl2 := on_leaves (w := some (b.data,b.wbeg)) hik hap fun b0 d0 b' d' hb0 hd0 hfb n hn => by
      simp only [Function.update_self,Option.some.injEq] at hb0
      subst hb0
      obtain ⟨hh,hwb,-⟩ := hchk n
      exact append_below hfb (hwb ▸ hn _ rfl hh.symm)
    have hl3 := leaves_trans hl1 hl2
    cases consume with
    | false =>
      cases h6
      exact hl3
    | true =>
      refine leaves_trans hl3 (on_leaves_same (hkj rfl) h6 fun b d b' d' hfb => ?_)
      cases hfb
      rfl

theorem readto_leaves {size r : ℤ} {mem : Mem} (hs : Sound h) (hki : k≠i) (hkj : k≠j)
    (hset : ∀ q∈reading h i,∀ o∈q.1.buf i,At q.1 j fun c u => refits c (wlen o size) → settled c u)
    (he : readto h i j size mem=some (h',r)) : Leaves h h' k ((h.buf j).map fun b => (b.data,b.wbeg)) := by
  obtain ⟨⟨h1,sz⟩,hon,he1⟩ := Option.bind_eq_some_iff.mp he
  have hl1 : Leaves h h1 k ((h.buf j).map fun b => (b.data,b.wbeg)) := on_leaves_same hki hon fun b d b' d' hfb => by
    rw [readtoBegin_rall] at hfb
    cases hfb
    rfl
  simp only at he1
  split at he1
  · cases he1
    exact hl1
  · obtain ⟨⟨h2,wsz⟩,hwb,he2⟩ := Option.bind_eq_some_iff.mp he1
    obtain ⟨⟨h3,_⟩,hon3,he3⟩ := Option.bind_eq_some_iff.mp he2
    obtain ⟨b,hb,hb1⟩ := Option.bind_eq_some_iff.mp hon
    obtain ⟨d,hd,hb2⟩ := Option.bind_eq_some_iff.mp hb1
    obtain ⟨⟨b1,d1,r1⟩,hfb,hb3⟩ := Option.map_eq_some_iff.mp hb2
    obtain ⟨hf,hbl⟩ := sound_at hs hb hd
    obtain ⟨b2,hr2,hbc⟩ := rall_spec hf hbl
    rw [readtoBegin_rall,hr2] at hfb
    cases hfb
    have hput : h1=putBuf h i b1 d := by
      cases hb3
      rw [putBuf,hbc.home]
    have hs1 : Sound h1 := by
      rw [hput]
      exact sound_putBuf hs hb hd hbc.fits hbc.grows hbc.home
    have hw1 : b1.wbeg=b.wbeg := by
      unfold rall at hr2
      cases hr2
      rfl
    have hpos : (h1.buf j).map (fun b => (b.data,b.wbeg))=(h.buf j).map fun b => (b.data,b.wbeg) := by
      rw [hput]
      by_cases hji : j=i
      · subst hji
        rw [putBuf_buf,hb,Option.map_some,Option.map_some,hbc.home,hw1]
      · rw [putBuf_ne b1 d hji]
    have ho : h1.buf i=some b1 := by rw [hput]; exact putBuf_buf ..
    have hl2 := wbuf_leaves hs1 hkj (fun h => by cases h) (fun c hc u hu o ho' href => by
      rw [ho] at ho'
      cases ho'
      exact hset _ hon b1 ho c hc u hu href) hwb
    rw [hpos] at hl2
    have hl3 : Leaves h2 h3 k ((h.buf j).map fun b => (b.data,b.wbeg)) := on_leaves_same hkj hon3 fun b d b' d' hfb => by
      cases hfb
      rfl
    have hl4 : Leaves h3 h' k ((h.buf j).map fun b => (b.data,b.wbeg)) := on_leaves_same hki he3 fun b d b' d' hfb => by
      cases hfb
      rfl
    exact leaves_trans hl1 (leaves_trans hl2 (leaves_trans hl3 hl4))

/-! ### New and freed buffers -/

/-- New storage, or none. -/
theorem alloc_leaves {s : σ} {o : Option Data} {f : Data → Buf σ} {r : ℤ} (hki : k≠i) (ht : h.store s=none)
    (he : h.alloc i s o f=(h',r)) : Leaves h h' k w := by
  intro c d hc hd
  cases o with
  | none =>
    cases he
    exact ⟨hc,d,hd,fun _ _ => rfl⟩
  | some u =>
    cases he
    have hne : c.data≠s := fun he => by
      rw [he,ht] at hd
      cases hd
    exact ⟨(Function.update_of_ne hki ..).trans hc,d,(Function.update_of_ne hne ..).trans hd,fun _ _ => rfl⟩

theorem newD_leaves {s : σ} {data : Option (List Byte)} {size r : ℤ} {initR dup const : Bool} {mem : Mem} (hki : k≠i)
    (ht : h.store s=none) (he : newD h i s data size initR dup const mem=some (h',r)) : Leaves h h' k w := by
  obtain ⟨o,-,hx⟩ := Option.map_eq_some_iff.mp he
  exact alloc_leaves hki ht hx

theorem newV_leaves {s : σ} {text : Option (List Byte)} {r : ℤ} {mem : Mem} (hki : k≠i) (ht : h.store s=none)
    (he : newV h i s text mem=some (h',r)) : Leaves h h' k w := by
  unfold newV at he
  split at he
  · cases he
    exact leaves_refl h k w
  · split at he
    · cases he
      exact leaves_refl h k w
    · obtain ⟨u,-,hx⟩ := Option.map_eq_some_iff.mp he
      exact alloc_leaves hki ht hx

/-- A view counts the storage, and leaves its bytes alone. -/
theorem newR_leaves {s : σ} {other : Option β} {r : ℤ} {mem : Mem} (hki : k≠i) (ht : h.store s=none)
    (he : newR h i s other mem=some (h',r)) : Leaves h h' k w := by
  cases other with
  | none =>
    exact alloc_leaves hki ht (Option.some.inj he)
  | some j =>
    simp only [newR] at he
    split at he
    · cases he
      exact leaves_refl h k w
    · obtain ⟨b,hb,h1⟩ := Option.bind_eq_some_iff.mp he
      obtain ⟨d,hd,h2⟩ := Option.map_eq_some_iff.mp h1
      cases h2
      intro c e hc he
      refine ⟨(Function.update_of_ne hki ..).trans hc,?_⟩
      by_cases hcb : c.data=b.data
      · rw [hcb,hd] at he
        cases he
        exact ⟨{d with refc := d.refc+1},by rw [hcb]; exact Function.update_self ..,fun _ _ => rfl⟩
      · exact ⟨e,(Function.update_of_ne hcb ..).trans he,fun _ _ => rfl⟩

theorem dup_leaves {s : σ} {other : Option β} {slack : Bool} {r : ℤ} {mem : Mem} (hki : k≠i) (ht : h.store s=none)
    (he : dup h i s other slack mem=some (h',r)) : Leaves h h' k w := by
  cases other with
  | none =>
    exact alloc_leaves hki ht (Option.some.inj he)
  | some j =>
    obtain ⟨b,-,h1⟩ := Option.bind_eq_some_iff.mp he
    obtain ⟨d,-,h2⟩ := Option.bind_eq_some_iff.mp h1
    by_cases hz : (if slack=true then b.cesize else b.crsize)=0
    · simp only [if_pos hz] at h2
      exact alloc_leaves hki ht (Option.some.inj h2)
    · simp only [if_neg hz] at h2
      obtain ⟨x,-,h3⟩ := Option.bind_eq_some_iff.mp h2
      exact newD_leaves hki ht h3

/-- A freed buffer leaves the storage to those that still have it. -/
theorem del_leaves {r : ℤ} (hs : Sound h) (hki : k≠i) (he : del h i=some (h',r)) : Leaves h h' k w := by
  obtain ⟨b,hb,h1⟩ := Option.bind_eq_some_iff.mp he
  obtain ⟨d,hd,h2⟩ := Option.map_eq_some_iff.mp h1
  cases h2
  intro c e hc he
  refine ⟨(Function.update_of_ne hki ..).trans hc,?_⟩
  by_cases hcb : c.data=b.data
  · obtain ⟨F,hF,hcard,-⟩ := hs.refs _ _ hd
    have hone : d.refc≠1 := by
      intro h1
      obtain ⟨j,hj⟩ := Finset.card_eq_one.mp (hcard.trans h1)
      have hi : i∈F := (hF i).mpr ⟨b,hb,rfl⟩
      have hk : k∈F := (hF k).mpr ⟨c,hc,hcb⟩
      rw [hj,Finset.mem_singleton] at hi hk
      exact hki (hk.trans hi.symm)
    rw [hcb,hd] at he
    cases he
    exact ⟨{d with refc := d.refc-1},by rw [hcb]; simp only [Function.update_self,if_neg hone],fun _ _ => rfl⟩
  · exact ⟨e,(Function.update_of_ne hcb ..).trans he,fun _ _ => rfl⟩

/-! ### Runs -/

theorem step_leaves {a : Act β σ} {r : ℤ} (hs : Sound h) (hg : enabled h a) (hp : inPlace h a) (hk : k∉moved a)
    (he : step h a=some (h',r)) : Leaves h h' k (wpos h a) := by
  cases a with
  | new i s size mem => exact alloc_leaves (List.ne_of_not_mem_cons hk) hg.2 (Option.some.inj he)
  | newD i s data size initR d const mem => exact newD_leaves (List.ne_of_not_mem_cons hk) hg.1.2 he
  | newV i s text mem => exact newV_leaves (List.ne_of_not_mem_cons hk) hg.2 he
  | newR i s other mem => exact newR_leaves (List.ne_of_not_mem_cons hk) hg.1.2 he
  | dup i s other slack mem => exact dup_leaves (List.ne_of_not_mem_cons hk) hg.1.2 he
  | del i => exact del_leaves hs (List.ne_of_not_mem_cons hk) he
  | recycle i force =>
    exact write_leaves hs (List.ne_of_not_mem_cons hk) rfl he fun b d b' d' hb hd hf hbl h n =>
      recycle_below hf hbl (hp b hb d hd) h
  | resizew i m mem =>
    refine write_leaves hs (List.ne_of_not_mem_cons hk) rfl he fun b d b' d' hb hd hf hbl h n => ?_
    obtain ⟨⟨b1,d1,ok⟩,hrz,hx⟩ := Option.map_eq_some_iff.mp h
    cases hx
    exact (resizew_below hf hbl m.2.2 (hp b hb d hd) hrz).2.2
  | wfill i len v mem =>
    exact write_leaves hs (List.ne_of_not_mem_cons hk) rfl he fun b d b' d' hb hd hf hbl h n =>
      wfill_below hf hbl len.2.2 (hp b hb d hd) h
  | wdata i data len mem =>
    exact write_leaves hs (List.ne_of_not_mem_cons hk) rfl he fun b d b' d' hb hd hf hbl h n =>
      wdata_below hf hbl len.2.2 (hp b hb d hd) h
  | wstrv i text mem =>
    exact write_leaves hs (List.ne_of_not_mem_cons hk) rfl he fun b d b' d' hb hd hf hbl h n =>
      wstrv_below hf hbl hg.2 (fun x hx => hp x hx b hb d hd) h
  | wbuf i j len consume mem =>
    have hki : k≠i := by
      rintro rfl
      cases consume <;> simp [moved] at hk
    refine wbuf_leaves hs hki ?_ hp he
    rintro rfl rfl
    simp [moved] at hk
  | readto i j size mem =>
    simp only [moved,List.mem_cons,List.not_mem_nil,or_false,not_or] at hk
    exact readto_leaves hs hk.1 hk.2 hp he
  | ccmp i j =>
    rw [ccmp_same he]
    exact leaves_refl h k _
  | setRecycle i on => exact on_leaves_same (List.ne_of_not_mem_cons hk) he fun b d b' d' hf => by cases hf; rfl
  | reset i initR initW => exact on_leaves_same (List.ne_of_not_mem_cons hk) he fun _ _ _ _ => reset_same
  | rseek i offset w => exact on_leaves_same (List.ne_of_not_mem_cons hk) he fun b d b' d' hf => by cases hf; rfl
  | wseek i offset w => exact on_leaves_same (List.ne_of_not_mem_cons hk) he fun b d b' d' hf => by cases hf; rfl
  | eseek i offset w => exact on_leaves_same (List.ne_of_not_mem_cons hk) he fun b d b' d' hf => by cases hf; rfl
  | rws i => exact on_leaves_same (List.ne_of_not_mem_cons hk) he fun _ _ _ _ => rws_same
  | rdata i len => exact on_leaves_same (List.ne_of_not_mem_cons hk) he fun b d b' d' hf => by cases hf; rfl
  | rmust i len => exact on_leaves_same (List.ne_of_not_mem_cons hk) he fun _ _ _ _ => rmust_same
  | runtil i p n => exact on_leaves_same (List.ne_of_not_mem_cons hk) he fun _ _ _ _ => runtil_same
  | rcstr i => exact on_leaves_same (List.ne_of_not_mem_cons hk) he fun _ _ _ _ => rcstr_same
  | rall i => exact on_leaves_same (List.ne_of_not_mem_cons hk) he fun b d b' d' hf => by cases hf; rfl
  | cfind i p len left =>
    refine on_leaves_same (List.ne_of_not_mem_cons hk) he fun b d b' d' hf => ?_
    obtain ⟨x,-,hx⟩ := Option.map_eq_some_iff.mp hf
    cases hx
    rfl
  | cequalc i sub len => exact on_leaves_same (List.ne_of_not_mem_cons hk) he fun _ _ _ _ => cequalc_same
  | cstrlen i => exact on_leaves_same (List.ne_of_not_mem_cons hk) he fun _ _ _ _ => cstrlen_same
  | cbegwith i sub len skip => exact on_leaves_same (List.ne_of_not_mem_cons hk) he fun _ _ _ _ => cbegwith_same

/-- A call on other buffers that recycles nothing, and writes to the storage of `k` from `n` on. -/
def apart (k : β) (n : ℕ) (h : Heap β σ) (a : Act β σ) : Prop :=
  guarded h a ∧ k∉moved a ∧ inPlace h a ∧ ∀ p∈wpos h a,∀ c∈h.buf k,p.1=c.data → n≤p.2

theorem apart_run {c : Buf σ} {n : ℕ} (hs : Sound h) (hc : h.buf k=some c) (hd : h.store c.data=some d)
    (hr : Reach run (apart k n) h h') : Sound h' ∧ h'.buf k=some c ∧ ∃ d',h'.store c.data=some d' ∧ Below n d d' := by
  refine hr.invariant (I := fun t => Sound t ∧ t.buf k=some c ∧ ∃ d',t.store c.data=some d' ∧ Below n d d')
    ⟨hs,hc,d,hd,rfl⟩ fun t a u ht hg hu => ?_
  obtain ⟨hst,hct,d1,hd1,hb1⟩ := ht
  obtain ⟨hg,hk,hp,hw⟩ := hg
  obtain ⟨u',r,he,hsu⟩ := sound_step hst hg.1 hg.2
  rw [run,he] at hu
  cases hu
  obtain ⟨hcu,d2,hd2,hb2⟩ := step_leaves hst hg.1 hp hk he c d1 hct hd1
  exact ⟨hsu,hcu,d2,hd2,(hb2 n fun p hpw hpc => hw p hpw c hct hpc).trans hb1⟩

theorem store_held (hs : Sound h) (s : σ) : h.store s≠none ↔ ∃ i,∃ b∈h.buf i,b.data=s := by
  constructor
  · intro hne
    obtain ⟨d,hd⟩ := Option.ne_none_iff_exists'.mp hne
    obtain ⟨F,hF,-,i,hi⟩ := hs.refs s d hd
    obtain ⟨b,hb,hbs⟩ := (hF i).mp hi
    exact ⟨i,b,hb,hbs⟩
  · rintro ⟨i,b,hb,rfl⟩
    obtain ⟨d,hd,-⟩ := hs.fits i b hb
    rw [hd]
    exact Option.some_ne_none _

end Leaves

/-- Storage lives exactly as long as a buffer has it; and while the calls on other buffers recycle nothing and write
from `n` on, a buffer keeps its cursors, the bytes below `n`, and with them what it can read below `n`. -/
theorem dpbuf_shared {h : Heap β σ} (hr : Reach run guarded {} h) :
    (∀ s,h.store s≠none ↔ ∃ i,∃ b∈h.buf i,b.data=s) ∧
    ∀ k c d n t,h.buf k=some c → h.store c.data=some d → Reach run (apart k n) h t →
      t.buf k=some c ∧ (∃ d',t.store c.data=some d' ∧ Below n d d') ∧ (c.wbeg≤n → view t k=view h k) := by
  have hs := sound_run sound_nothing hr
  refine ⟨store_held hs,fun k c d n t hc hd ht => ?_⟩
  obtain ⟨-,hct,d',hd',hb⟩ := apart_run hs hc hd ht
  refine ⟨hct,⟨d',hd',hb⟩,fun hn => ?_⟩
  obtain ⟨hf,-⟩ := sound_at hs hc hd
  have h1 := hf.rend
  have h2 := hf.wbeg
  rw [DpbufQueue.view_some hct hd',DpbufQueue.view_some hc hd,DpbufQueue.queue,DpbufQueue.queue,readable,readable,slack,
    slack,below_seg hb (by omega),below_seg hb (by omega)]

instance (h : Heap β σ) (a : Act β σ) : Decidable (inPlace h a) := by
  induction a using Act.casesOn <;> (dsimp only [inPlace]; infer_instance)

instance (k : β) (n : ℕ) (h : Heap β σ) (a : Act β σ) : Decidable (apart k n h a) := inferInstanceAs (Decidable (_ ∧ _ ∧ _ ∧ _))

/-- "abcdef" with a view of the first three bytes. -/
def shared : List (Act (Fin 3) (Fin 3)) :=
  [.new 0 0 8 (some fun _ => 7),.wdata 0 (some [97,98,99,100,101,102]) 6 none,
    .rdata 0 3,.newR 1 1 (some 0) (some fun _ => 7)]

/-- The base writes behind the view, and is freed: the view reads what it has read. -/
theorem dpbuf_shared_view : ∃ h t : Heap (Fin 3) (Fin 3),Reach run guarded {} h ∧ Reach run (apart 1 3) h t ∧
    t.buf 0=none ∧ t.store 0≠none ∧ view t 1=view h 1 := by
  have hrun : (execOk run guarded {} shared).any (fun h => decide ((h.buf 1).map (·.wbeg)=some 3) &&
      (execOk run (apart 1 3) h [.wdata 0 (some [120]) ⟨1,by decide⟩ none,.rall 0,.del 0]).any fun t =>
        decide (t.buf 0=none))=true := by decide +kernel
  obtain ⟨h,hh,hf⟩ := (Option.any_eq_true _ _).mp hrun
  obtain ⟨hw,hrest⟩ := Bool.and_eq_true_iff.mp hf
  obtain ⟨t,ht,hfreed⟩ := (Option.any_eq_true _ _).mp hrest
  obtain ⟨c,hc,hcw⟩ := Option.map_eq_some_iff.mp (of_decide_eq_true hw)
  have hr := execOk_reach hh
  have ha := execOk_reach ht
  obtain ⟨d,hd,-⟩ := (sound_run sound_nothing hr).fits 1 c hc
  have hall := dpbuf_shared hr
  obtain ⟨-,⟨d',hd',-⟩,hview⟩ := hall.2 1 c d 3 t hc hd ha
  have hs : c.data=0 := by
    have hone : (execOk run guarded {} shared).map (fun h => (h.buf 1).map (·.data))=some (some 0) := by decide +kernel
    rw [hh,Option.map_some,Option.some.injEq,hc,Option.map_some,Option.some.injEq] at hone
    exact hone
  exact ⟨h,t,hr,ha,of_decide_eq_true hfreed,by rw [←hs,hd']; exact Option.some_ne_none _,hview (by rw [hcw]; decide)⟩

/-- A write through the view lands in what the base has not read yet. -/
theorem dpbuf_shared_overwritten : ¬∀ (h h' : Heap (Fin 3) (Fin 3)) (a : Act (Fin 3) (Fin 3)) (k : Fin 3),
    Reach run guarded {} h → guarded h a → run h a=some h' → k∉moved a → view h' k=view h k := by
  intro hall
  have hrun : (execOk run guarded {} shared).any (fun h => decide (guarded h (.wdata 1 (some [120]) ⟨1,by decide⟩ none)) &&
      (run h (.wdata 1 (some [120]) ⟨1,by decide⟩ none)).any fun h' => decide (view h' 0≠view h 0))=true := by
    decide +kernel
  obtain ⟨h,hh,hf⟩ := (Option.any_eq_true _ _).mp hrun
  obtain ⟨hg,hrest⟩ := Bool.and_eq_true_iff.mp hf
  obtain ⟨h',hh',hne⟩ := (Option.any_eq_true _ _).mp hrest
  exact of_decide_eq_true hne (hall h h' _ 0 (execOk_reach hh) (of_decide_eq_true hg) hh' (by decide))

end Dpapp.DpbufShare
