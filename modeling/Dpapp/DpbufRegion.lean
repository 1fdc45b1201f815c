import Dpapp.DpbufShare

/-! # Buffers over memory of the caller's -/

set_option linter.unusedSectionVars false

namespace Dpapp.DpbufRegion
open Dpapp.Machine Dpapp.Segment Dpapp.Dpbuf Dpapp.DpbufSpec Dpapp.DpbufFits
open Dpapp.DpbufShare (settled recycleData_settled writer)

variable {β σ : Type*} [DecidableEq β] [DecidableEq σ]

/-! ### What a call can do to a storage -/

/-- It stays where it is, or it was not the caller's to keep and realloc has made it larger. -/
structure Held (d d' : Data) : Prop where
  const : d'.const=d.const
  place : d'.maxs=d.maxs ∧ d'.data.length=d.data.length ∨ d.const=false ∧ d.maxs<d'.maxs ∧ d'.maxs≤d'.data.length

/-- Nothing has been stored. -/
def Same (d d' : Data) : Prop := d'.data=d.data

/-- The relations a storage can be followed by. -/
structure Follows (R : Data → Data → Prop) : Prop where
  refl : ∀ d,R d d
  trans : ∀ d e f,R d e → R e f → R d f
  refc : ∀ d n,R d {d with refc := n}

theorem held_follows : Follows Held where
  refl _ := ⟨rfl,.inl ⟨rfl,rfl⟩⟩
  refc _ _ := ⟨rfl,.inl ⟨rfl,rfl⟩⟩
  trans d e f h1 h2 := by
    obtain ⟨c1,p1⟩ := h1
    obtain ⟨c2,p2⟩ := h2
    refine ⟨c2.trans c1,?_⟩
    obtain ⟨m1,l1⟩ | ⟨n1,m1,l1⟩ := p1
    · obtain ⟨m2,l2⟩ | ⟨n2,m2,l2⟩ := p2
      · exact .inl ⟨m2.trans m1,l2.trans l1⟩
      · exact .inr ⟨c1.symm.trans n2,by omega,l2⟩
    · obtain ⟨m2,l2⟩ | ⟨n2,m2,l2⟩ := p2
      · exact .inr ⟨n1,by omega,by omega⟩
      · exact .inr ⟨n1,by omega,l2⟩

theorem same_follows : Follows Same := ⟨fun _ => rfl,fun _ _ _ h1 h2 => h2.trans h1,fun _ _ => rfl⟩

/-! ### One buffer -/

section Single
variable {b b' : Buf σ} {d d' : Data} {mem : Mem} {ok : Bool} {len r : ℤ}

theorem store_held {p : ℤ} {x : List Byte} (h : d.store p x=some d') : Held d d' := by
  unfold Data.store at h
  split at h
  · rename_i hin
    cases h
    exact ⟨rfl,.inl ⟨rfl,length_put (by omega)⟩⟩
  · cases h

theorem dataResize_held {s : ℤ} (h0 : 0<s) (h : dataResize d s mem=some (d',ok)) : Held d d' := by
  unfold dataResize at h
  split at h
  · obtain ⟨d1,hst,he⟩ := Option.map_eq_some_iff.mp h
    cases he
    exact store_held hst
  · rename_i hge
    split at h
    · cases h
      exact held_follows.refl d
    · rename_i hc
      split at h
      · cases h
        exact held_follows.refl d
      · simp only at h
        split at h
        · cases h
          exact held_follows.refl d
        · cases mem with
          | none =>
            cases h
            exact held_follows.refl d
          | some f =>
            obtain ⟨d1,hst,he⟩ := Option.map_eq_some_iff.mp h
            cases he
            apply held_follows.trans _ _ _ _ (store_held hst)
            have hpow := le_powMinValue (n := s.toNat+1) (by omega)
            have hlen := length_grow d (powMinValue (s.toNat+1)) f
            refine ⟨rfl,.inr ⟨by simpa using hc,?_,?_⟩⟩
            · simp only [Data.grow]
              omega
            · rw [hlen]
              exact le_rfl

theorem recycleData_held (h : recycleData b d=some (b',d')) : Held d d' := by
  unfold recycleData at h
  split at h
  · obtain ⟨d1,hst,he⟩ := Option.map_eq_some_iff.mp h
    cases he
    exact store_held hst
  · split at h
    · obtain ⟨x,-,h⟩ := Option.bind_eq_some_iff.mp h
      obtain ⟨d1,h1,h⟩ := Option.bind_eq_some_iff.mp h
      obtain ⟨d2,h2,he⟩ := Option.map_eq_some_iff.mp h
      cases he
      exact held_follows.trans _ _ _ (store_held h1) (store_held h2)
    · cases h
      exact held_follows.refl d

theorem resize_held {s : ℤ} (h : resize b d s mem=some (b',d',ok)) : Held d d' := by
  unfold resize at h
  split at h
  · cases h
    exact held_follows.refl d
  · obtain ⟨⟨d1,r1⟩,hr,he⟩ := Option.map_eq_some_iff.mp h
    cases he
    exact dataResize_held (by omega) hr

theorem resizew_held (h : resizew b d len mem=some (b',d',ok)) : Held d d' := by
  unfold resizew at h
  split at h
  · obtain ⟨⟨b1,d1⟩,hrec,hres⟩ := Option.bind_eq_some_iff.mp h
    apply held_follows.trans _ d1 _ _ (resize_held hres)
    split at hrec
    · cases hrec
      exact held_follows.refl d
    · exact recycleData_held hrec
  · cases h
    exact held_follows.refl d

theorem wcheck_held (h : wcheck b d len mem=some (b',d',ok)) : Held d d' := by
  unfold wcheck at h
  split at h
  · exact resizew_held h
  · cases h
    exact held_follows.refl d

theorem append_held {x : List Byte} (h : append b d x len=some (b',d',r)) : Held d d' := by
  obtain ⟨d1,hst,he⟩ := Option.map_eq_some_iff.mp h
  cases he
  exact store_held hst

theorem recycle_held {force : Bool} (h : recycle b d force=some (b',d',r)) : Held d d' := by
  unfold recycle at h
  split at h
  · obtain ⟨⟨b1,d1⟩,h1,h2⟩ := Option.bind_eq_some_iff.mp h
    obtain ⟨⟨b2,d2,ok⟩,h3,he⟩ := Option.map_eq_some_iff.mp h2
    cases he
    exact held_follows.trans _ _ _ (recycleData_held h1) (resize_held h3)
  · cases h
    exact held_follows.refl d

theorem wfill_held {v : Byte} (h : wfill b d len v mem=some (b',d',r)) : Held d d' := by
  obtain ⟨⟨b1,d1,ok⟩,hw,h⟩ := Option.bind_eq_some_iff.mp h
  apply held_follows.trans _ _ _ (wcheck_held hw)
  cases ok with
  | false =>
    cases h
    exact held_follows.refl _
  | true =>
    simp only [if_true] at h
    split at h
    · cases h
    · exact append_held h

theorem wdata_held {data : Option (List Byte)} (h : wdata b d data len mem=some (b',d',r)) : Held d d' := by
  cases data with
  | none =>
    cases h
    exact held_follows.refl d
  | some p =>
    simp only [wdata] at h
    split at h
    · cases h
      exact held_follows.refl d
    · obtain ⟨⟨b1,d1,ok⟩,hw,h⟩ := Option.bind_eq_some_iff.mp h
      apply held_follows.trans _ _ _ (wcheck_held hw)
      cases ok with
      | false =>
        cases h
        exact held_follows.refl _
      | true =>
        obtain ⟨x,-,ha⟩ := Option.bind_eq_some_iff.mp h
        exact append_held ha

theorem wstrv_held {text : Option (List Byte)} (h : wstrv b d text mem=some (b',d',r)) : Held d d' := by
  cases text with
  | none =>
    cases h
    exact held_follows.refl d
  | some x =>
    simp only [wstrv] at h
    split at h
    · cases h
      exact held_follows.refl d
    · obtain ⟨⟨b1,d1,ok⟩,hw,h⟩ := Option.bind_eq_some_iff.mp h
      apply held_follows.trans _ _ _ (wcheck_held hw)
      cases ok with
      | false =>
        cases h
        exact held_follows.refl _
      | true => exact append_held h

/-! Calls that find nothing to store. -/

/-- dpbuf_resizew stores nothing: it has nothing to recycle, and no room to hand out. -/
def full (b : Buf σ) (d : Data) (s : ℤ) : Prop :=
  (b.norecycle=false → settled b d) ∧ (d.maxs≤ wrap (b.wbeg+s) ∨ wrap (b.wbeg+s)≤0)

/-- A write of `need` bytes is turned down, and nothing is stored. -/
def turnsDown (b : Buf σ) (d : Data) (need : ℤ) : Prop := b.size-b.wbeg<need ∧ full b d need

instance (b : Buf σ) (d : Data) (s : ℤ) : Decidable (full b d s) := inferInstanceAs (Decidable (_ ∧ _))
instance (b : Buf σ) (d : Data) (s : ℤ) : Decidable (turnsDown b d s) := inferInstanceAs (Decidable (_ ∧ _))

theorem resizew_full (hc : d.const=true) (h0 : 0≤len) (hf : full b d len) : resizew b d len mem=some (b,d,false) := by
  obtain ⟨hset,hmax⟩ := hf
  have hrec : (if b.norecycle=true then some (b,d) else recycleData b d)=some (b,d) := by
    cases hn : b.norecycle with
    | true => rfl
    | false => exact recycleData_settled (hset hn)
  rw [resizew,if_pos h0,hrec]
  simp only [Option.bind_some,resize]
  split
  · rfl
  · rename_i hpos
    rw [dataResize,if_neg (by omega),if_pos hc]
    rfl

theorem wcheck_turnsDown (hf : Fits b d) (hc : d.const=true) (ht : turnsDown b d len) :
    wcheck b d len mem=some (b,d,false) := by
  obtain ⟨hlt,hfull⟩ := ht
  have hsize := hf.size
  rw [wcheck,if_pos hlt]
  exact resizew_full hc (by omega) hfull

theorem append_nil (h : append b d [] len=some (b',d',r)) : Same d d' := by
  obtain ⟨d1,hst,he⟩ := Option.map_eq_some_iff.mp h
  cases he
  unfold Data.store at hst
  split at hst
  · cases hst
    simp only [Same,put,List.append_nil,List.length_nil,add_zero,List.take_append_drop]
  · cases hst

theorem recycle_still {force : Bool} (hset : (force || !b.norecycle)=true → settled b d)
    (h : recycle b d force=some (b',d',r)) : Same d d' := by
  unfold recycle at h
  split at h
  · rename_i hc
    rw [recycleData_settled (hset hc)] at h
    cases h
    rfl
  · cases h
    rfl

theorem resizew_still (hc : d.const=true) (hf : 0≤len → full b d len) (h : resizew b d len mem=some (b',d',ok)) :
    Same d d' := by
  by_cases h0 : 0≤len
  · rw [resizew_full hc h0 (hf h0)] at h
    cases h
    rfl
  · rw [resizew,if_neg h0] at h
    cases h
    rfl

theorem wcheck_nothing (hf : Fits b d) (h : wcheck b d 0 mem=some (b',d',ok)) : d'=d ∧ b'=b := by
  have hsize := hf.size
  rw [wcheck,if_neg (by omega)] at h
  cases h
  exact ⟨rfl,rfl⟩

theorem wfill_still {v : Byte} (hf : Fits b d) (hc : d.const=true) (ht : len=0 ∨ turnsDown b d len)
    (h : wfill b d len v mem=some (b',d',r)) : Same d d' := by
  obtain ⟨⟨b1,d1,ok⟩,hw,h⟩ := Option.bind_eq_some_iff.mp h
  obtain rfl | ht := ht
  · obtain ⟨rfl,rfl⟩ := wcheck_nothing hf hw
    cases ok with
    | false =>
      cases h
      rfl
    | true => exact append_nil h
  · rw [wcheck_turnsDown hf hc ht] at hw
    cases hw
    cases h
    rfl

theorem wdata_still {data : Option (List Byte)} (hf : Fits b d) (hc : d.const=true)
    (ht : data≠none → len=0 ∨ turnsDown b d len) (h : wdata b d data len mem=some (b',d',r)) : Same d d' := by
  cases data with
  | none =>
    cases h
    rfl
  | some p =>
    simp only [wdata] at h
    split at h
    · cases h
      rfl
    · rename_i hne
      obtain ⟨⟨b1,d1,ok⟩,hw,h⟩ := Option.bind_eq_some_iff.mp h
      rw [wcheck_turnsDown hf hc ((ht (Option.some_ne_none p)).resolve_left hne)] at hw
      cases hw
      cases h
      rfl

theorem wstrv_still {text : Option (List Byte)} (hf : Fits b d) (hc : d.const=true) (hint : ∀ x∈text,x.length< intMax)
    (ht : ∀ x∈text,x=[] ∨ turnsDown b d (x.length+1)) (h : wstrv b d text mem=some (b',d',r)) : Same d d' := by
  cases text with
  | none =>
    cases h
    rfl
  | some x =>
    have hx := hint x rfl
    unfold intMax at hx
    simp only [wstrv] at h
    split at h
    · cases h
      rfl
    · rename_i hpos
      have hne : x≠[] := by
        rintro rfl
        exact hpos le_rfl
      obtain ⟨⟨b1,d1,ok⟩,hw,h⟩ := Option.bind_eq_some_iff.mp h
      rw [(wrap_cases _).2.2.1 (by omega) (by omega),wcheck_turnsDown hf hc ((ht x rfl).resolve_left hne)] at hw
      cases hw
      cases h
      rfl

end Single

/-! ### Heaps -/

/-- The storage `s` has become what `R` allows. -/
def Over (R : Data → Data → Prop) (h h' : Heap β σ) (s : σ) : Prop :=
  ∀ d,h.store s=some d → ∃ d',h'.store s=some d' ∧ R d d'

section Heap
variable {R : Data → Data → Prop} {h h' h'' : Heap β σ} {s : σ} {i j k : β}

theorem over_refl (hR : Follows R) (h : Heap β σ) (s : σ) : Over R h h s := fun d hd => ⟨d,hd,hR.refl d⟩

theorem over_trans (hR : Follows R) (h1 : Over R h h' s) (h2 : Over R h' h'' s) : Over R h h'' s := by
  intro d hd
  obtain ⟨d1,hd1,hr1⟩ := h1 d hd
  obtain ⟨d2,hd2,hr2⟩ := h2 d1 hd1
  exact ⟨d2,hd2,hR.trans _ _ _ hr1 hr2⟩

theorem on_over {γ : Type*} {f : Buf σ → Data → Option (Buf σ × Data × γ)} {r : γ} (hR : Follows R)
    (he : h.on i f=some (h',r)) (hf : ∀ b d b' d',h.buf i=some b → h.store b.data=some d → b.data=s →
      f b d=some (b',d',r) → R d d') : Over R h h' s := by
  obtain ⟨b,hb,h1⟩ := Option.bind_eq_some_iff.mp he
  obtain ⟨d,hd,h2⟩ := Option.bind_eq_some_iff.mp h1
  obtain ⟨⟨b',d',r'⟩,hfb,h3⟩ := Option.map_eq_some_iff.mp h2
  cases h3
  intro e hs
  by_cases hbs : s=b.data
  · subst hbs
    rw [hd] at hs
    cases hs
    exact ⟨d',Function.update_self ..,hf b d b' d' hb hd rfl hfb⟩
  · exact ⟨e,(Function.update_of_ne hbs ..).trans hs,hR.refl e⟩

/-- A call on one buffer that stores nothing. -/
theorem on_over_same {γ : Type*} {f : Buf σ → Data → Option (Buf σ × Data × γ)} {r : γ} (hR : Follows R)
    (he : h.on i f=some (h',r)) (hf : ∀ b d b' d',f b d=some (b',d',r) → d'=d) : Over R h h' s := by
  apply on_over hR he
  intro b d b' d' _ _ _ hfb
  rw [hf b d b' d' hfb]
  exact hR.refl d

theorem alloc_over {t : σ} {o : Option Data} {f : Data → Buf σ} {r : ℤ} (hR : Follows R) (ht : h.store t=none)
    (he : h.alloc i t o f=(h',r)) : Over R h h' s := by
  intro d hd
  have hst : s≠t := by
    rintro rfl
    rw [ht] at hd
    cases hd
  cases o with
  | none =>
    cases he
    exact ⟨d,hd,hR.refl d⟩
  | some e =>
    cases he
    exact ⟨d,(Function.update_of_ne hst ..).trans hd,hR.refl d⟩

theorem newD_over {t : σ} {data : Option (List Byte)} {size r : ℤ} {initR dup const : Bool} {mem : Mem} (hR : Follows R)
    (ht : h.store t=none) (he : newD h i t data size initR dup const mem=some (h',r)) : Over R h h' s := by
  obtain ⟨o,-,ho⟩ := Option.map_eq_some_iff.mp he
  exact alloc_over hR ht ho

theorem newV_over {t : σ} {text : Option (List Byte)} {r : ℤ} {mem : Mem} (hR : Follows R)
    (ht : h.store t=none) (he : newV h i t text mem=some (h',r)) : Over R h h' s := by
  cases text with
  | none =>
    cases he
    exact over_refl hR h s
  | some x =>
    simp only [newV] at he
    split at he
    · cases he
      exact over_refl hR h s
    · obtain ⟨d1,-,ha⟩ := Option.map_eq_some_iff.mp he
      exact alloc_over hR ht ha

theorem newR_over {t : σ} {other : Option β} {r : ℤ} {mem : Mem} (hR : Follows R) (ht : h.store t=none)
    (he : newR h i t other mem=some (h',r)) : Over R h h' s := by
  cases other with
  | none => exact alloc_over hR ht (Option.some.inj he)
  | some k =>
    simp only [newR] at he
    split at he
    · cases he
      exact over_refl hR h s
    · obtain ⟨b,hb,h1⟩ := Option.bind_eq_some_iff.mp he
      obtain ⟨d,hd,h2⟩ := Option.map_eq_some_iff.mp h1
      cases h2
      intro e hs
      by_cases hbs : s=b.data
      · subst hbs
        rw [hd] at hs
        cases hs
        exact ⟨_,Function.update_self ..,hR.refc d _⟩
      · exact ⟨e,(Function.update_of_ne hbs ..).trans hs,hR.refl e⟩

theorem dup_over {t : σ} {other : Option β} {slack : Bool} {r : ℤ} {mem : Mem} (hR : Follows R) (ht : h.store t=none)
    (he : dup h i t other slack mem=some (h',r)) : Over R h h' s := by
  cases other with
  | none => exact alloc_over hR ht (Option.some.inj he)
  | some k =>
    obtain ⟨b,-,h1⟩ := Option.bind_eq_some_iff.mp he
    obtain ⟨d,-,h2⟩ := Option.bind_eq_some_iff.mp h1
    simp only at h2
    generalize (if slack=true then b.rend else b.rbeg)=beg at h2
    generalize (if slack=true then b.cesize else b.crsize)=sz at h2
    split at h2
    · exact alloc_over hR ht (Option.some.inj h2)
    · obtain ⟨x,-,h3⟩ := Option.bind_eq_some_iff.mp h2
      exact newD_over hR ht h3

theorem del_over {r : ℤ} (hR : Follows R) (he : del h i=some (h',r)) : h'.store s=none ∨ Over R h h' s := by
  obtain ⟨b,-,h1⟩ := Option.bind_eq_some_iff.mp he
  obtain ⟨d,hd,h2⟩ := Option.map_eq_some_iff.mp h1
  cases h2
  by_cases hbs : s=b.data
  · subst hbs
    simp only [Function.update_self]
    by_cases hone : d.refc=1
    · exact .inl (if_pos hone)
    · refine .inr fun e hs => ?_
      rw [hd] at hs
      cases hs
      exact ⟨_,(Function.update_self ..).trans (if_neg hone),hR.refc d _⟩
  · exact .inr fun e hs => ⟨e,(Function.update_of_ne hbs ..).trans hs,hR.refl e⟩

/-- A call that does not write. -/
theorem quiet_over {a : Act β σ} {r : ℤ} (hR : Follows R) (hg : enabled h a) (hw : writer a=none)
    (he : step h a=some (h',r)) : h'.store s=none ∨ Over R h h' s := by
  cases a with
  | new i t size mem => exact .inr (alloc_over hR hg.2 (Option.some.inj he))
  | newD i t data size initR d const mem => exact .inr (newD_over hR hg.1.2 he)
  | newV i t text mem => exact .inr (newV_over hR hg.2 he)
  | newR i t other mem => exact .inr (newR_over hR hg.1.2 he)
  | dup i t other slack mem => exact .inr (dup_over hR hg.1.2 he)
  | del i => exact del_over hR he
  | ccmp i j =>
    rw [DpbufShare.ccmp_same he]
    exact .inr (over_refl hR h s)
  | setRecycle i on => exact .inr (on_over_same hR he fun b d b' d' hf => by cases hf; rfl)
  | reset i initR initW => exact .inr (on_over_same hR he fun _ _ _ _ => DpbufShare.reset_same)
  | rseek i offset w => exact .inr (on_over_same hR he fun b d b' d' hf => by cases hf; rfl)
  | wseek i offset w => exact .inr (on_over_same hR he fun b d b' d' hf => by cases hf; rfl)
  | eseek i offset w => exact .inr (on_over_same hR he fun b d b' d' hf => by cases hf; rfl)
  | rws i => exact .inr (on_over_same hR he fun _ _ _ _ => DpbufShare.rws_same)
  | rdata i len => exact .inr (on_over_same hR he fun b d b' d' hf => by cases hf; rfl)
  | rmust i len => exact .inr (on_over_same hR he fun _ _ _ _ => DpbufShare.rmust_same)
  | runtil i p n => exact .inr (on_over_same hR he fun _ _ _ _ => DpbufShare.runtil_same)
  | rcstr i => exact .inr (on_over_same hR he fun _ _ _ _ => DpbufShare.rcstr_same)
  | rall i => exact .inr (on_over_same hR he fun b d b' d' hf => by cases hf; rfl)
  | cfind i p len left =>
    refine .inr (on_over_same hR he fun b d b' d' hf => ?_)
    obtain ⟨x,-,hx⟩ := Option.map_eq_some_iff.mp hf
    cases hx
    rfl
  | cequalc i sub len => exact .inr (on_over_same hR he fun _ _ _ _ => DpbufShare.cequalc_same)
  | cstrlen i => exact .inr (on_over_same hR he fun _ _ _ _ => DpbufShare.cstrlen_same)
  | cbegwith i sub len skip => exact .inr (on_over_same hR he fun _ _ _ _ => DpbufShare.cbegwith_same)
  | recycle | resizew | wfill | wdata | wstrv | wbuf | readto => cases hw

/-! ### Writers -/

theorem putBuf_over {b b' : Buf σ} {d d' : Data} (hR : Follows R) (hd : h.store b.data=some d) (hh : b'.data=b.data)
    (hr : b.data=s → R d d') : Over R h (putBuf h i b' d') s := by
  intro e hs
  by_cases hbs : s=b.data
  · subst hbs
    rw [hd] at hs
    cases hs
    exact ⟨d',by rw [←hh]; exact putBuf_store .., hr rfl⟩
  · exact ⟨e,(Function.update_of_ne (hh ▸ hbs) ..).trans hs,hR.refl e⟩

/-- What making room and writing into it does to the storage. -/
def Writing (R : Data → Data → Prop) (b : Buf σ) (d : Data) (n : ℤ) (mem : Mem) : Prop :=
  ∀ b1 d1 ok,wcheck b d n mem=some (b1,d1,ok) → R d d1 ∧ (ok=true → ∀ x b2 d2 q,(x.length : ℤ)=n →
    append b1 d1 x n=some (b2,d2,q) → R d1 d2)

theorem writing_held (b : Buf σ) (d : Data) (n : ℤ) (mem : Mem) : Writing Held b d n mem :=
  fun _ _ _ hw => ⟨wcheck_held hw,fun _ _ _ _ _ _ ha => append_held ha⟩

theorem writing_same {b : Buf σ} {d : Data} {n : ℤ} (mem : Mem) (hf : Fits b d) (hc : d.const=true)
    (ht : n=0 ∨ turnsDown b d n) : Writing Same b d n mem := by
  intro b1 d1 ok hw
  obtain rfl | ht := ht
  · obtain ⟨rfl,rfl⟩ := wcheck_nothing hf hw
    refine ⟨rfl,fun _ x b2 d2 q hx ha => ?_⟩
    cases List.eq_nil_of_length_eq_zero (by omega : x.length=0)
    exact append_nil ha
  · rw [wcheck_turnsDown hf hc ht] at hw
    cases hw
    exact ⟨rfl,fun hok => by cases hok⟩

theorem wbuf_over {b o : Buf σ} {d : Data} {len r : ℤ} {consume : Bool} {mem : Mem} (hR : Follows R) (hs : Sound h)
    (hi : h.buf i=some b) (hd : h.store b.data=some d) (hj : h.buf j=some o) (hroom : refits b (wlen o len) → roomy b d)
    (he : wbuf h i j len consume mem=some (h',r)) (hw : b.data=s → Writing R b d (wlen o len) mem) : Over R h h' s := by
  obtain ⟨b1,d1,ok,hck,hk,-,hno,hyes⟩ := wbuf_spec consume mem hs hi hd hj hroom
  cases ok with
  | false =>
    rw [hno rfl] at he
    cases he
    exact putBuf_over hR hd hk.home fun hbs => (hw hbs _ _ _ hck).1
  | true =>
    obtain ⟨x,b2,d2,-,hxl,ha,hbc,-,c,u,hc,hu,-,hwb⟩ := hyes rfl
    have hput : Over R h (putBuf h i b2 d2) s := by
      apply putBuf_over hR hd (hbc.home.trans hk.home)
      intro hbs
      obtain ⟨h1,h2⟩ := hw hbs _ _ _ hck
      exact hR.trans _ _ _ h1 (h2 rfl x b2 d2 _ hxl ha)
    rw [hwb] at he
    cases consume with
    | false =>
      cases he
      exact hput
    | true =>
      cases he
      exact over_trans hR hput (putBuf_over hR hu rfl fun _ => hR.refl u)

theorem readto_over {size r : ℤ} {mem : Mem} (hR : Follows R) (hs : Sound h) (hm : takes h i j size mem)
    (he : readto h i j size mem=some (h',r)) (hw : ∀ q∈reading h i,q.2≠0 → ∀ o∈q.1.buf i,∀ c∈q.1.buf j,
      ∀ u∈q.1.store c.data,Fits c u → c.data=s → Writing R c u (wlen o size) mem) : Over R h h' s := by
  obtain ⟨⟨h1,sz⟩,hon,he1⟩ := Option.bind_eq_some_iff.mp he
  have hbegin : Over R h h1 s := by
    apply on_over_same hR hon
    intro b d b' d' hf
    rw [readtoBegin_rall] at hf
    cases hf
    rfl
  have hs1 : Sound h1 := by
    obtain ⟨b,d,b1,d1,hb,hd,hfb,hh1⟩ := DpbufQueue.on_back hon
    obtain ⟨d0,hd0,hf⟩ := hs.fits i b hb
    rw [hd] at hd0
    cases hd0
    obtain ⟨b2,hr2,hbc⟩ := rall_spec hf (hs.block _ _ hd)
    rw [readtoBegin_rall,hr2] at hfb
    cases hfb
    rw [hh1 hbc.home]
    exact sound_putBuf hs hb hd hbc.fits hbc.grows hbc.home
  simp only at he1
  split at he1
  · cases he1
    exact hbegin
  · rename_i hsz
    obtain ⟨⟨h2,wsz⟩,hwb,he2⟩ := Option.bind_eq_some_iff.mp he1
    obtain ⟨⟨h3,_⟩,hon3,he3⟩ := Option.bind_eq_some_iff.mp he2
    obtain ⟨o,ho,hw1⟩ := Option.bind_eq_some_iff.mp hwb
    obtain ⟨⟨h4,ok⟩,hw2,-⟩ := Option.bind_eq_some_iff.mp hw1
    obtain ⟨c,u,-,-,hc,hu,-⟩ := DpbufQueue.on_back hw2
    obtain ⟨u1,hu1,hf⟩ := hs1.fits j c hc
    rw [hu] at hu1
    cases hu1
    have hwrite : Over R h1 h2 s :=
      wbuf_over hR hs1 hc hu ho (hm _ hon hsz o ho c hc u hu).1 hwb (hw _ hon hsz o ho c hc u hu hf)
    have hdone : Over R h2 h3 s := on_over_same hR hon3 fun b d b' d' hf => by cases hf; rfl
    have hend : Over R h3 h' s := on_over_same hR he3 fun b d b' d' hf => by cases hf; rfl
    exact over_trans hR hbegin (over_trans hR hwrite (over_trans hR hdone hend))

/-- What each call finds when it stores nothing: nothing to recycle, nothing to write, or no room for it. -/
def still (h : Heap β σ) : Act β σ → Prop
  | .recycle i force => At h i fun b d => (force || !b.norecycle)=true → settled b d
  | .resizew i n _ => At h i fun b d => 0≤n.1 → full b d n
  | .wfill i len _ _ => At h i fun b d => len.1=0 ∨ turnsDown b d len
  | .wdata i data len _ => At h i fun b d => data≠none → len.1=0 ∨ turnsDown b d len
  | .wstrv i text _ => At h i fun b d => ∀ x∈text,x=[] ∨ turnsDown b d (x.length+1)
  | .wbuf i j len _ _ => At h i fun b d => ∀ o∈h.buf j,wlen o len=0 ∨ turnsDown b d (wlen o len)
  | .readto i j size _ => ∀ q∈reading h i,q.2≠0 → ∀ o∈q.1.buf i,At q.1 j fun c u => turnsDown c u (wlen o size)
  | _ => True

instance (h : Heap β σ) (a : Act β σ) : Decidable (still h a) := by
  induction a using Act.casesOn <;> (dsimp only [still]; infer_instance)

theorem sound_fits {b : Buf σ} {d : Data} (hs : Sound h) (hb : h.buf i=some b) (hd : h.store b.data=some d) : Fits b d :=
  (DpbufShare.sound_at hs hb hd).1

theorem reading_same {q : Heap β σ × ℤ} (hq : q∈reading h i) :
    q.1.store=h.store ∧ ∀ k c,q.1.buf k=some c → ∃ c0,h.buf k=some c0 ∧ c0.data=c.data := by
  obtain ⟨b,hb,h1⟩ := Option.bind_eq_some_iff.mp hq
  obtain ⟨d,hd,h2⟩ := Option.bind_eq_some_iff.mp h1
  obtain ⟨⟨b',d',r'⟩,hf,h3⟩ := Option.map_eq_some_iff.mp h2
  rw [readtoBegin_rall] at hf
  cases hf
  cases h3
  refine ⟨?_,fun k c hc => ?_⟩
  · exact Function.update_eq_self_iff.mpr hd.symm
  · simp only at hc
    by_cases hk : k=i
    · subst hk
      rw [Function.update_self] at hc
      cases hc
      exact ⟨b,hb,rfl⟩
    · rw [Function.update_of_ne hk] at hc
      exact ⟨c,hc,rfl⟩

theorem writes_held {a : Act β σ} {r : ℤ} (hs : Sound h) (hg : guarded h a) (hw : writer a=some k)
    (he : step h a=some (h',r)) : Over Held h h' s := by
  obtain ⟨hen,hm⟩ := hg
  cases a with
  | recycle i force => exact on_over held_follows he fun b d b' d' _ _ _ hf => recycle_held hf
  | resizew i n mem =>
    apply on_over held_follows he
    intro b d b' d' _ _ _ hf
    obtain ⟨⟨b1,d1,ok⟩,hrz,hx⟩ := Option.map_eq_some_iff.mp hf
    cases hx
    exact resizew_held hrz
  | wfill i len v mem => exact on_over held_follows he fun b d b' d' _ _ _ hf => wfill_held hf
  | wdata i data len mem => exact on_over held_follows he fun b d b' d' _ _ _ hf => wdata_held hf
  | wstrv i text mem => exact on_over held_follows he fun b d b' d' _ _ _ hf => wstrv_held hf
  | wbuf i j len consume mem =>
    obtain ⟨b,hb⟩ := Option.ne_none_iff_exists'.mp hen.1
    obtain ⟨o,ho⟩ := Option.ne_none_iff_exists'.mp hen.2
    obtain ⟨d,hd,-⟩ := hs.fits i b hb
    exact wbuf_over held_follows hs hb hd ho (hm b hb d hd o ho) he fun _ => writing_held b d _ mem
  | readto i j size mem => exact readto_over held_follows hs hm he fun q _ _ o _ c _ u _ _ _ => writing_held c u _ mem
  | _ => cases hw

theorem writes_same {a : Act β σ} {r : ℤ} (hs : Sound h) (hg : guarded h a) (hw : writer a=some k)
    (hc : ∀ d∈h.store s,d.const=true) (hst : ∀ b∈h.buf k,b.data=s → still h a) (he : step h a=some (h',r)) :
    Over Same h h' s := by
  obtain ⟨hen,hm⟩ := hg
  have hconst {b : Buf σ} {d : Data} (hd : h.store b.data=some d) (hbs : b.data=s) : d.const=true := by
    subst hbs
    exact hc d hd
  cases a with
  | recycle i force =>
    cases hw
    exact on_over same_follows he fun b d b' d' hb hd hbs hf => recycle_still (hst b hb hbs b hb d hd) hf
  | resizew i n mem =>
    cases hw
    apply on_over same_follows he
    intro b d b' d' hb hd hbs hf
    obtain ⟨⟨b1,d1,ok⟩,hrz,hx⟩ := Option.map_eq_some_iff.mp hf
    cases hx
    exact resizew_still (hconst hd hbs) (hst b hb hbs b hb d hd) hrz
  | wfill i len v mem =>
    cases hw
    exact on_over same_follows he fun b d b' d' hb hd hbs hf =>
      wfill_still (sound_fits hs hb hd) (hconst hd hbs) (hst b hb hbs b hb d hd) hf
  | wdata i data len mem =>
    cases hw
    exact on_over same_follows he fun b d b' d' hb hd hbs hf =>
      wdata_still (sound_fits hs hb hd) (hconst hd hbs) (hst b hb hbs b hb d hd) hf
  | wstrv i text mem =>
    cases hw
    exact on_over same_follows he fun b d b' d' hb hd hbs hf =>
      wstrv_still (sound_fits hs hb hd) (hconst hd hbs) (fun x hx => (hm x hx).1) (hst b hb hbs b hb d hd) hf
  | wbuf i j len consume mem =>
    cases hw
    obtain ⟨b,hb⟩ := Option.ne_none_iff_exists'.mp hen.1
    obtain ⟨o,ho⟩ := Option.ne_none_iff_exists'.mp hen.2
    obtain ⟨d,hd,hf⟩ := hs.fits k b hb
    exact wbuf_over same_follows hs hb hd ho (hm b hb d hd o ho) he fun hbs =>
      writing_same mem hf (hconst hd hbs) (hst b hb hbs b hb d hd o ho)
  | readto i j size mem =>
    cases hw
    apply readto_over same_follows hs hm he
    intro q hq hz o ho c hc' u hu hf hcs
    obtain ⟨hstore,hbufs⟩ := reading_same hq
    obtain ⟨c0,hc0,hcd⟩ := hbufs k c hc'
    have hcu : u.const=true := hconst (hstore ▸ hu) hcs
    exact writing_same mem hf hcu (.inr (hst c0 hc0 (hcd.trans hcs) q hq hz o ho c hc' u hu))
  | _ => cases hw

end Heap

/-! ### Regions -/

/-- Memory the caller has given to dpbuf_new_d: what is in it, and the mode bits. -/
structure Region where
  bytes : List Byte
  const : Bool
  initR : Bool
  deriving DecidableEq

/-- DPBUF_INIT_CR -/
def Region.readonly (r : Region) : Prop := r.const=true ∧ r.initR=true

instance (r : Region) : Decidable r.readonly := inferInstanceAs (Decidable (_ ∧ _))

/-- The heap, and the regions in use. -/
structure World (β σ : Type*) where
  heap : Heap β σ := {}
  region : σ → Option Region := fun _ => none

/-- The region a call that returned `r` brings to `s`. -/
def given (a : Act β σ) (r : ℤ) (s : σ) : Option Region :=
  match a with
  | .newD _ t (some p) _ initR false const _ => if s=t ∧ r=1 then some ⟨p,const,initR⟩ else none
  | _ => none

/-- A region goes when its storage is freed or realloc has moved it. -/
def wstep (w : World β σ) (a : Act β σ) : Option (World β σ) :=
  (step w.heap a).map fun (h,r) => {
    heap := h
    region := fun s =>
      match given a r s with
      | some g => some g
      | none => if (h.store s).map (·.maxs)=(w.heap.store s).map (·.maxs) then w.region s else none}

/-- The region ends where its size says: behind the NUL, for a string without one. -/
def exactly : Act β σ → Prop
  | .newD _ _ (some p) size _ false _ _ =>
      if size.1<0 then (p.takeWhile (·≠0)).length+1=p.length else size.1=p.length
  | _ => True

instance (a : Act β σ) : Decidable (exactly a) := by
  induction a using Act.casesOn with
  | newD i s data size initR dup const mem =>
    induction data using Option.casesOn <;> induction dup using Bool.casesOn <;> (dsimp only [exactly]; infer_instance)
  | _ => exact inferInstanceAs (Decidable True)

/-- What the callers promise. -/
def offered (w : World β σ) (a : Act β σ) : Prop := enabled w.heap a ∧ exactly a

/-- No call writes where its checks do not look, and none stores to constant memory. -/
def regionCalls (w : World β σ) (a : Act β σ) : Prop :=
  guarded w.heap a ∧ exactly a ∧
    ∀ i∈writer a,∀ b∈w.heap.buf i,∀ r∈w.region b.data,r.readonly → still w.heap a

instance (w : World β σ) (a : Act β σ) : Decidable (offered w a) := inferInstanceAs (Decidable (_ ∧ _))
instance (w : World β σ) (a : Act β σ) : Decidable (regionCalls w a) := inferInstanceAs (Decidable (_ ∧ _ ∧ _))

/-- The storage still is the region: its bytes, and what is in them if they are constant. -/
structure Lies (d : Data) (r : Region) : Prop where
  const : d.const=r.const
  length : d.data.length=r.bytes.length
  maxs : r.bytes.length≤d.maxs+1
  readonly : r.readonly → d.data=r.bytes

structure Kept (w : World β σ) : Prop where
  sound : Sound w.heap
  lies : ∀ s r,w.region s=some r → ∃ d,w.heap.store s=some d ∧ Lies d r

/-- realloc has made it larger than the region, which was the buffer's to move. -/
def Moved (r : Region) (d : Data) : Prop := r.const=false ∧ r.bytes.length≤d.maxs ∧ d.maxs≤d.data.length

section Runs
variable {w w' : World β σ} {s : σ} {r : Region} {a : Act β σ}

theorem given_some {q : ℤ} (h : given a q s=some r) : ∃ i size mem,
    a=.newD i s (some r.bytes) size r.initR false r.const mem ∧ q=1 := by
  unfold given at h
  split at h
  · split at h
    · rename_i hc
      cases h
      obtain ⟨rfl,hq⟩ := hc
      exact ⟨_,_,_,rfl,hq⟩
    · cases h
  · cases h

/-- dpbuf_new_d without DPBUF_DUP_DATA. -/
theorem given_lies {h' : Heap β σ} {q : ℤ} (hen : enabled w.heap a) (hx : exactly a) (he : step w.heap a=some (h',q)) (hg : given a q s=some r) :
    ∃ d,h'.store s=some d ∧ Lies d r := by
  obtain ⟨i,size,mem,rfl,rfl⟩ := given_some hg
  obtain ⟨o,ho,hal⟩ := Option.map_eq_some_iff.mp he
  cases o with
  | none =>
    cases hal
  | some d =>
    cases hal
    refine ⟨d,Function.update_self ..,?_⟩
    simp only [dataNewD] at ho
    obtain ⟨n,hn,hd⟩ := Option.bind_eq_some_iff.mp ho
    cases hd
    refine ⟨rfl,rfl,?_,fun _ => rfl⟩
    have hp := hen.2 _ rfl
    unfold pointer at hp
    simp only [exactly] at hx
    split at hx
    · rename_i hneg
      rw [if_pos hneg] at hn hp
      rw [strlen,if_pos hp.1,(wrap_cases _).2.2.1 (by omega) hp.2,Option.some.injEq] at hn
      simp only
      omega
    · rename_i hpos
      rw [if_neg hpos] at hn
      cases hn
      simp only
      omega

/-- A call on a storage the caller has given. -/
theorem region_step (hk : Kept w) (hc : regionCalls w a) (hr : w.region s=some r) {h' : Heap β σ} {q : ℤ}
    (he : step w.heap a=some (h',q)) : h'.store s=none ∨ ∃ d d',w.heap.store s=some d ∧ h'.store s=some d' ∧
      (d'.maxs=d.maxs ∧ Lies d' r ∨ d'.maxs≠d.maxs ∧ Moved r d') := by
  obtain ⟨hg,-,hst⟩ := hc
  obtain ⟨d,hd,hl⟩ := hk.lies s r hr
  have hstores : h'.store s=none ∨ Over Held w.heap h' s ∧ (r.readonly → Over Same w.heap h' s) := by
    cases hw : writer a with
    | none =>
      obtain hn | hh := quiet_over held_follows hg.1 hw he
      · exact .inl hn
      · obtain hn | hsame := quiet_over same_follows hg.1 hw he
        · exact .inl hn
        · exact .inr ⟨hh,fun _ => hsame⟩
    | some k =>
      refine .inr ⟨writes_held hk.sound hg hw he,fun hro => ?_⟩
      apply writes_same hk.sound hg hw _ _ he
      · intro e hde
        rw [hd] at hde
        cases hde
        exact hl.const.trans hro.1
      · intro b hb hbs
        exact hst k hw b hb r (by rw [hbs]; exact hr) hro
  obtain hn | ⟨hheld,hsame⟩ := hstores
  · exact .inl hn
  · obtain ⟨d',hd',hcon,hplace⟩ := hheld d hd
    refine .inr ⟨d,d',hd,hd',?_⟩
    obtain ⟨hm,hlen⟩ | ⟨hfree,hm,hlen⟩ := hplace
    · refine .inl ⟨hm,hcon.trans hl.const,hlen.trans hl.length,hm ▸ hl.maxs,fun hro => ?_⟩
      obtain ⟨e,hee,hsd⟩ := hsame hro d hd
      rw [hd'] at hee
      cases hee
      exact hsd.trans (hl.readonly hro)
    · have hmax := hl.maxs
      exact .inr ⟨by omega,hl.const.symm.trans hfree,by omega,hlen⟩

theorem kept_step (hk : Kept w) (hc : regionCalls w a) (hw : wstep w a=some w') : Kept w' := by
  obtain ⟨⟨h',q⟩,he,hx⟩ := Option.map_eq_some_iff.mp hw
  cases hx
  obtain ⟨h1,q1,he1,hs1⟩ := sound_step hk.sound hc.1.1 hc.1.2
  rw [he] at he1
  cases he1
  refine ⟨hs1,fun s r hr => ?_⟩
  simp only at hr
  split at hr
  · rename_i g hg
    cases hr
    exact given_lies hc.1.1 hc.2.1 he hg
  · split at hr
    · rename_i hmax
      obtain ⟨d0,hd0,-⟩ := hk.lies s r hr
      obtain hn | ⟨d,d',hd,hd',hcase⟩ := region_step hk hc hr he
      · rw [hn,hd0] at hmax
        cases hmax
      · rw [hd,hd',Option.map_some,Option.map_some,Option.some.injEq] at hmax
        obtain ⟨-,hl⟩ | ⟨hne,-⟩ := hcase
        · exact ⟨d',hd',hl⟩
        · exact absurd hmax hne
    · cases hr

theorem kept_run (hr : Reach wstep regionCalls {} w) : Kept w :=
  hr.invariant ⟨sound_nothing,fun _ _ h => by cases h⟩ fun _ _ _ hk hc hw => kept_step hk hc hw

/-- A region is used between its ends, as long as it is in use: the storage has its size and, where it is constant,
its bytes, each buffer on it is inside, and no call touches what is outside. It goes when it is freed, or when a
buffer that may move it has grown. -/
theorem region_kept (hr : Reach wstep regionCalls {} w) :
    (∀ s r,w.region s=some r → ∃ d,w.heap.store s=some d ∧ d.data.length=r.bytes.length ∧ (r.readonly → d.data=r.bytes) ∧
      ∀ i,∀ b∈w.heap.buf i,b.data=s → InStorage b d) ∧
    ∀ a,regionCalls w a → ∃ w',wstep w a=some w' ∧ ∀ s r,w.region s=some r → w'.region s=some r ∨ w'.heap.store s=none ∨
      ∃ d',w'.heap.store s=some d' ∧ Moved r d' := by
  have hk := kept_run hr
  constructor
  · intro s r hreg
    obtain ⟨d,hd,hl⟩ := hk.lies s r hreg
    refine ⟨d,hd,hl.length,hl.readonly,fun i b hb hbs => ?_⟩
    subst hbs
    exact inStorage (sound_fits hk.sound hb hd) (hk.sound.block _ _ hd)
  · intro a hc
    obtain ⟨h',q,he,hs'⟩ := sound_step hk.sound hc.1.1 hc.1.2
    refine ⟨_,by rw [wstep,he]; rfl,fun s r hreg => ?_⟩
    simp only
    obtain hn | ⟨d,d',hd,hd',hcase⟩ := region_step hk hc hreg he
    · exact .inr (.inl hn)
    · obtain ⟨hm,-⟩ | ⟨-,hmoved⟩ := hcase
      · left
        -- a new region comes only where no storage was
        have hnone : given a q s=none := by
          cases hg : given a q s with
          | none => rfl
          | some g =>
            obtain ⟨i,size,mem,rfl,-⟩ := given_some hg
            rw [hc.1.1.1.2] at hd
            cases hd
        rw [hnone,hd,hd',Option.map_some,Option.map_some,hm]
        simp only [if_true]
        exact hreg
      · exact .inr (.inr ⟨d',hd',hmoved⟩)

end Runs

/-- "abc", constant. -/
def literal : Act (Fin 2) (Fin 2) := .newD 0 0 (some [97,98,99]) 3 true false true (some fun _ => 7)

/-- It is read, and a write is turned down. -/
theorem region_kept_literal : ∃ w : World (Fin 2) (Fin 2),Reach wstep regionCalls {} w ∧
    w.region 0=some ⟨[97,98,99],true,true⟩ ∧ ∃ d,w.heap.store 0=some d ∧ d.data=[97,98,99] := by
  have hrun : (execOk wstep regionCalls {} [literal,.cequalc 0 [97] ⟨1,by decide⟩,
      .wdata 0 (some [120]) ⟨1,by decide⟩ (some fun _ => 7),.rdata 0 ⟨2,by decide⟩]).any
      (fun w => decide (w.region 0=some ⟨[97,98,99],true,true⟩))=true := by decide +kernel
  obtain ⟨w,hw,hf⟩ := (Option.any_eq_true _ _).mp hrun
  have hreg := of_decide_eq_true hf
  have hr := execOk_reach hw
  obtain ⟨d,hd,-,hro,-⟩ := (region_kept hr).1 0 _ hreg
  exact ⟨w,hr,hreg,d,hd,hro ⟨rfl,rfl⟩⟩

/-- When all is read, recycling ends the empty buffer at the front of the constant bytes. -/
theorem region_stored : ¬∀ w : World (Fin 2) (Fin 2),Reach wstep offered {} w →
    ∀ s r,w.region s=some r → r.readonly → ∃ d,w.heap.store s=some d ∧ d.data=r.bytes := by
  intro hall
  have hrun : (execOk wstep offered {} [literal,.rall 0,.rdata 0 ⟨0,by decide⟩,.recycle 0 false]).any
      (fun w => decide (w.region 0=some ⟨[97,98,99],true,true⟩ ∧ (w.heap.store 0).map (·.data)=some [0,98,99]))=true := by
    decide +kernel
  obtain ⟨w,hw,hf⟩ := (Option.any_eq_true _ _).mp hrun
  obtain ⟨hreg,hst⟩ := of_decide_eq_true hf
  obtain ⟨d,hd,hb⟩ := hall w (execOk_reach hw) 0 _ hreg ⟨rfl,rfl⟩
  rw [hd,Option.map_some,hb] at hst
  exact absurd hst (by decide)

end Dpapp.DpbufRegion
