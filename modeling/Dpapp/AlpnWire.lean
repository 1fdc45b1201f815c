import Dpapp.DpbufFits
import Dpapp.Framed
import Dpapp.Machine

/-! # The ALPN names of a group and their wire list (dpssl.c)

A string is the bytes before its NUL. -/

namespace Dpapp.AlpnWire
open Dpapp.Machine Dpapp.Segment Dpapp.Dpbuf Dpapp.DpbufSpec Dpapp.DpbufFits

def dpeOk : ℤ := 0
def dpeInval : ℤ := -22
def dpeNomem : ℤ := -12
def dpeNametoolong : ℤ := -36

/-- What `dpssl_group_t` has of it. `taken` are the names of all the additions that have returned DPE_OK, the latest
last. -/
structure Group where
  alpns : List (List Byte) := []
  wire : Buf Unit
  data : Data
  dirty : Bool := false
  taken : List (List Byte) := []

/-- dpbuf_init in `_dpssl_group_new` -/
def groupNew (mem : Mem) : Option Group :=
  (dataNew dpbufSSize mem).map fun d => {wire := {data := (), size := dpbufSSize}, data := d}

/-- `_dpssl_add_alpn`; a name may be NULL, and malloc may fail. -/
def addAlpn (g : Group) (subAlpn : Option (List Byte)) (malloc : Bool) : Group×ℤ :=
  match subAlpn with
  | none => (g,dpeInval)
  | some s =>
      if s=[] then (g,dpeInval)
      else if s∈g.alpns then ({g with taken := g.taken++[s]},dpeOk)
      else if s.length>255 then (g,dpeNametoolong)
      else if malloc=false then (g,dpeNomem)
      else ({g with alpns := g.alpns++[s], dirty := true, taken := g.taken++[s]},dpeOk)

/-- The for loop; `mem k` is the memory at the k-th write. -/
def writeAlpns (b : Buf Unit) (d : Data) (mem : ℕ → Mem) : ℕ → List (List Byte) → Step Unit
  | _,[] => some (b,d,dpeOk)
  | k,s::ss =>
      if s.length>255 then some (b,d,dpeNametoolong)
      else
        (wdata b d (some [UInt8.ofNat s.length]) 1 (mem k)).bind fun (b,d,r) =>
          if r≠1 then some (b,d,dpeNomem)
          else
            (wdata b d (some s) s.length (mem (k+1))).bind fun (b,d,r) =>
              if r≠s.length then some (b,d,dpeNomem) else writeAlpns b d mem (k+2) ss

/-- `_dpssl_alpns_wire_sync` -/
def wireSync (g : Group) (mem : ℕ → Mem) : Option (Group×ℤ) :=
  if g.dirty=false then some (g,dpeOk)
  else
    (reset g.wire g.data false true).bind fun (b,d,_) =>
      (writeAlpns b d mem 0 g.alpns).bind fun (b,d,r) =>
        if r≠dpeOk then some ({g with wire := b, data := d},r)
        else (eseek b d 0 .end_).map fun (b,d,_) => ({g with wire := b, data := d, dirty := false},dpeOk)

/-- `dpbuf_crdata` and `dpbuf_crsize`: the bytes that the library gets. -/
def Group.given (g : Group) : Option (List Byte) := g.data.load g.wire.rbeg g.wire.crsize

/-- The calls. `_dpssl_alpn_select` and `_dpssl_client_uinit` sync the wire list before they give it away, a client only
when there are names; `_dpssl_sni_select` reads other fields. -/
inductive Act
  | add (subAlpn : Option (List Byte)) (malloc : Bool)
  | select (mem : ℕ → Mem)
  | client (mem : ℕ → Mem)
  | sni

def step (g : Group) : Act → Option Group
  | .add s m => some (addAlpn g s m).1
  | .select mem => (wireSync g mem).map Prod.fst
  | .client mem => if g.alpns≠[] then (wireSync g mem).map Prod.fst else some g
  | .sni => some g

/-- Each name where it stands first. -/
def firsts (ss : List (List Byte)) : List (List Byte) := ss.foldl (fun l s => if s∈l then l else l++[s]) []

theorem firsts_append (ss : List (List Byte)) (s : List Byte) :
    firsts (ss++[s])=if s∈firsts ss then firsts ss else firsts ss++[s] := by
  rw [firsts,List.foldl_append]
  rfl

theorem firsts_nodup (ss : List (List Byte)) : (firsts ss).Nodup := by
  induction ss using List.reverseRecOn with
  | nil => exact List.nodup_nil
  | append_singleton ss s ih =>
    rw [firsts_append]
    split
    · exact ih
    · rename_i h
      exact List.nodup_append.mpr ⟨ih,List.nodup_singleton s,fun a ha b hb hab => by
        rw [List.mem_singleton] at hb
        exact h (hb ▸ hab ▸ ha)⟩

theorem mem_firsts {ss : List (List Byte)} {s : List Byte} : s∈firsts ss ↔ s∈ss := by
  induction ss using List.reverseRecOn with
  | nil => exact Iff.rfl
  | append_singleton ss t ih =>
    rw [firsts_append,List.mem_append,List.mem_singleton]
    split
    · rename_i ht
      rw [ih]
      exact ⟨.inl,fun h => h.elim id fun he => he ▸ ih.mp (he ▸ ht)⟩
    · rw [List.mem_append,List.mem_singleton,ih]

/-- The list is in step with the additions, and the wire list with the list when the flag is not set. -/
structure InStep (g : Group) : Prop where
  fits : Fits g.wire g.data
  block : Block g.data
  spare : spare g.wire g.data
  names : g.alpns=firsts g.taken
  sized : ∀ s∈g.alpns,Framed.Sized s
  clean : g.dirty=false → readable g.wire g.data=Framed.encode g.alpns

theorem inStep_new {mem : Mem} {g : Group} (h : groupNew mem=some g) : InStep g := by
  obtain ⟨d,hd,rfl⟩ := Option.map_eq_some_iff.mp h
  obtain ⟨-,hmax,-,hlen,hint⟩ := dataNew_spec hd
  have hsz : 0≤dpbufSSize := by decide
  have hblock : Block d := ⟨by omega,by omega⟩
  refine ⟨⟨le_rfl,le_rfl,le_rfl,hsz,hmax.ge⟩,hblock,?_,rfl,fun _ hs => (by cases hs),fun _ => ?_⟩
  · change dpbufSSize<(d.data.length : ℤ)
    omega
  · exact seg_self

section Sync
variable {b : Buf Unit} {d : Data} {g : Group}

/-- One write of bytes that are there: all of them, or another result and nothing lost. -/
theorem wdata_cases (hf : Fits b d) (hb : Block d) (hs : spare b d) {x : List Byte} {n : ℤ} (hn : n=x.length)
    (hpos : 0<x.length) (hsmall : x.length≤255) (mem : Mem) : ∃ b' d' r,wdata b d (some x) n mem=some (b',d',r) ∧
      Fits b' d' ∧ Block d' ∧ spare b' d' ∧ readable b' d'=readable b d ∧ (r=n → slack b' d'=slack b d++x) := by
  have hint : intMax=2147483647 := rfl
  have hw : Writes b d (((some x).getD []).take n.toNat) n (wdata b d (some x) n mem) :=
    wdata_spec hf hb (by omega) (fun p hp => by cases hp; omega) (fun _ _ _ => hs) mem
  have htake : x.take n.toNat=x := by rw [hn]; exact List.take_length
  rw [Option.getD_some,htake] at hw
  rcases hw with ⟨b',d',he,h⟩ | ⟨b',d',r,he,hr,h⟩
  · exact ⟨b',d',n,he,h.fits,h.grows.block,h.spare hs,h.readable,fun _ => h.slack⟩
  · refine ⟨b',d',r,he,h.fits,h.grows.block,h.spare hs,h.readable,fun hrn => ?_⟩
    rcases hr with hr | ⟨hr,-⟩ <;> omega

theorem writeAlpns_spec (ss : List (List Byte)) (hss : ∀ s∈ss,Framed.Sized s) (mem : ℕ → Mem) (k : ℕ) (hf : Fits b d)
    (hb : Block d) (hs : spare b d) : ∃ b' d' r,writeAlpns b d mem k ss=some (b',d',r) ∧ Fits b' d' ∧ Block d' ∧
      spare b' d' ∧ readable b' d'=readable b d ∧ (r=dpeOk → slack b' d'=slack b d++Framed.encode ss) := by
  induction ss generalizing b d k with
  | nil => exact ⟨b,d,dpeOk,rfl,hf,hb,hs,rfl,fun _ => (List.append_nil _).symm⟩
  | cons s ss ih =>
    have hsized := hss s List.mem_cons_self
    obtain ⟨b1,d1,r1,h1,hf1,hb1,hs1,hr1,hw1⟩ := wdata_cases hf hb hs (x := [UInt8.ofNat s.length]) (n := 1) rfl
      Nat.one_pos (Nat.succ_le_succ (Nat.zero_le _)) (mem k)
    rw [writeAlpns,if_neg (Nat.not_lt.mpr hsized.2),h1,Option.bind_some]
    simp only
    by_cases hne1 : r1=1
    · obtain ⟨b2,d2,r2,h2,hf2,hb2,hs2,hr2,hw2⟩ := wdata_cases hf1 hb1 hs1 (n := s.length) rfl hsized.1 hsized.2
        (mem (k+1))
      rw [if_neg (not_not.mpr hne1),h2,Option.bind_some]
      simp only
      by_cases hne2 : r2=s.length
      · obtain ⟨b3,d3,r3,h3,hf3,hb3,hs3,hr3,hw3⟩ := ih (fun t ht => hss t (List.mem_cons_of_mem s ht)) (k+2) hf2 hb2 hs2
        rw [if_neg (not_not.mpr hne2),h3]
        refine ⟨b3,d3,r3,rfl,hf3,hb3,hs3,by rw [hr3,hr2,hr1],fun hok => ?_⟩
        rw [hw3 hok,hw2 hne2,hw1 hne1,List.append_assoc,List.append_assoc]
        rfl
      · rw [if_pos hne2]
        exact ⟨b2,d2,dpeNomem,rfl,hf2,hb2,hs2,by rw [hr2,hr1],fun h => absurd h (by decide)⟩
    · rw [if_pos hne1]
      exact ⟨b1,d1,dpeNomem,rfl,hf1,hb1,hs1,hr1,fun h => absurd h (by decide)⟩

/-- dpbuf_eseek to the end: all that has been written can be read. -/
theorem eseek_end (hf : Fits b d) (hb : Block d) (hs : spare b d) : ∃ b' r,eseek b d 0 .end_=some (b',d,r) ∧
    Fits b' d ∧ spare b' d ∧ readable b' d=readable b d++slack b d := by
  have h0 := hf.rbeg
  have h1 := hf.rend
  have h2 := hf.wbeg
  have h3 := hf.size
  have h4 := hf.maxs
  have h5 := hb.int
  have hint : intMax=2147483647 := rfl
  have hwrap : wrap (b.wbeg+0)=b.wbeg := by
    rw [add_zero]
    exact (wrap_cases b.wbeg).2.2.1 (by omega) (by omega)
  have hend : iclamp (wrap (b.wbeg+0)) b.rbeg b.wbeg=b.wbeg := by
    rw [hwrap]
    unfold iclamp
    simp only
    split <;> split <;> omega
  refine ⟨_,_,rfl,⟨h0,?_,?_,h3,h4⟩,hs,?_⟩
  · simp only [hend]
    omega
  · simp only [hend]
    exact le_rfl
  · simp only [readable,slack,hend]
    exact (seg_append (by omega) (by omega)).symm

theorem wireSync_spec (h : InStep g) (mem : ℕ → Mem) : ∃ g' r,wireSync g mem=some (g',r) ∧ InStep g' ∧
    g'.alpns=g.alpns ∧ g'.taken=g.taken ∧ (r=dpeOk → g'.dirty=false) := by
  unfold wireSync
  by_cases hd : g.dirty=false
  · rw [if_pos hd]
    exact ⟨g,dpeOk,rfl,h,rfl,rfl,fun _ => hd⟩
  · rw [if_neg hd]
    have hsz : 0≤g.wire.size := by
      have h0 := h.fits.rbeg
      have h1 := h.fits.rend
      have h2 := h.fits.wbeg
      have h3 := h.fits.size
      omega
    have hf : Fits {g.wire with rbeg := 0, rend := 0, wbeg := 0} g.data := ⟨le_rfl,le_rfl,le_rfl,hsz,h.fits.maxs⟩
    obtain ⟨b,d,r,hw,hfb,hbd,hsp,hread,hslack⟩ := writeAlpns_spec g.alpns h.sized mem 0 hf h.block h.spare
    have hreset : reset g.wire g.data false true=some ({g.wire with rbeg := 0, rend := 0, wbeg := 0},g.data,0) := rfl
    rw [hreset,Option.bind_some]
    simp only
    rw [hw,Option.bind_some]
    simp only
    by_cases hr : r=dpeOk
    · obtain ⟨b',n,he,hfb',hsp',hread'⟩ := eseek_end hfb hbd hsp
      rw [if_neg (not_not.mpr hr),he]
      refine ⟨_,_,rfl,⟨hfb',hbd,hsp',h.names,h.sized,fun _ => ?_⟩,rfl,rfl,fun _ => rfl⟩
      change readable b' d=_
      have hnone : readable {g.wire with rbeg := 0, rend := 0, wbeg := 0} g.data=[] := seg_self
      have hempty : slack {g.wire with rbeg := 0, rend := 0, wbeg := 0} g.data=[] := seg_self
      rw [hread',hread,hslack hr,hnone,hempty,List.nil_append,List.nil_append]
    · rw [if_pos hr]
      exact ⟨_,_,rfl,⟨hfb,hbd,hsp,h.names,h.sized,fun hc => absurd hc hd⟩,rfl,rfl,fun hc => absurd hc hr⟩

end Sync

section Runs
variable {g g' : Group}

theorem addAlpn_inStep (h : InStep g) (s : Option (List Byte)) (m : Bool) : InStep (addAlpn g s m).1 := by
  cases s with
  | none => exact h
  | some s =>
    rw [addAlpn]
    split
    · exact h
    · rename_i hne
      split
      · rename_i hin
        refine ⟨h.fits,h.block,h.spare,?_,h.sized,h.clean⟩
        rw [firsts_append,← h.names,if_pos hin]
      · rename_i hnew
        split
        · exact h
        · rename_i hlong
          split
          · exact h
          · refine ⟨h.fits,h.block,h.spare,?_,fun t ht => ?_,fun hc => by cases hc⟩
            · rw [firsts_append,← h.names,if_neg hnew]
            · rcases List.mem_append.mp ht with ht | ht
              · exact h.sized t ht
              · rw [List.mem_singleton] at ht
                exact ht ▸ ⟨List.length_pos_iff.mpr hne,Nat.not_lt.mp hlong⟩

theorem inStep_step (h : InStep g) {a : Act} (hu : step g a=some g') : InStep g' := by
  cases a with
  | add s m =>
    cases hu
    exact addAlpn_inStep h s m
  | select mem =>
    obtain ⟨u,r,he,hi,-⟩ := wireSync_spec h mem
    rw [step,he] at hu
    cases hu
    exact hi
  | client mem =>
    obtain ⟨u,r,he,hi,-⟩ := wireSync_spec h mem
    rw [step,he] at hu
    split at hu
    · cases hu
      exact hi
    · cases hu
      exact h
  | sni =>
    cases hu
    exact h

theorem given_eq (h : InStep g) : g.given=some (readable g.wire g.data) := load_readable h.fits h.block

/-- The names are those that have been taken, each where it has come first; a sync that returns DPE_OK, at any time, gives
the library bytes that decode to them; and what is not taken changes nothing. -/
theorem alpn_wire {mem : Mem} {start g : Group} (hnew : groupNew mem=some start) (hr : Reach step anyStep start g) :
    (g.alpns=firsts g.taken ∧ g.alpns.Nodup ∧ ∀ s,s∈g.alpns ↔ s∈g.taken) ∧
    (∀ mem,∃ g' r,wireSync g mem=some (g',r) ∧ g'.alpns=g.alpns ∧
      (r=dpeOk → ∃ x,g'.given=some x ∧ Framed.decode x=some g.alpns)) ∧
    (∀ s m,(addAlpn g s m).2≠dpeOk → (addAlpn g s m).1=g) := by
  have h : InStep g := hr.invariant (inStep_new hnew) fun t a u ht _ hu => inStep_step ht hu
  refine ⟨⟨h.names,?_,fun s => ?_⟩,fun mem => ?_,fun s m hrej => ?_⟩
  · rw [h.names]
    exact firsts_nodup g.taken
  · rw [h.names,mem_firsts]
  · obtain ⟨g',r,he,hi,hsame,-,hclean⟩ := wireSync_spec h mem
    refine ⟨g',r,he,hsame,fun hok => ⟨_,given_eq hi,?_⟩⟩
    rw [hi.clean (hclean hok),Framed.decode_encode hi.sized,hsame]
  · cases s with
    | none => rfl
    | some s =>
      rw [addAlpn] at hrej ⊢
      split
      · rfl
      · split
        · rw [if_neg ‹_›,if_pos ‹_›] at hrej
          exact absurd rfl hrej
        · split
          · rfl
          · split
            · rfl
            · rw [if_neg ‹_›,if_neg ‹_›,if_neg ‹_›,if_neg ‹_›] at hrej
              exact absurd rfl hrej

/-- "h2" twice, and none at all. -/
def twice : List Act := [.add (some [104,50]) true,.add (some [104,50]) true,.add none true,.sni]

theorem alpn_wire_h2 : ∃ start g,groupNew (some fun _ => 0)=some start ∧ Reach step anyStep start g ∧
    ∃ g' x,wireSync g (fun _ => none)=some (g',dpeOk) ∧ g'.given=some x ∧ Framed.decode x=some [[104,50]] := by
  have hrun : ((groupNew (some fun _ => 0)).bind fun s => (exec step s twice).bind fun g =>
      (wireSync g fun _ => none).map fun o => (g.alpns,o.2))=some ([[104,50]],dpeOk) := by decide +kernel
  obtain ⟨start,hnew,hrun⟩ := Option.bind_eq_some_iff.mp hrun
  obtain ⟨g,hg,hrun⟩ := Option.bind_eq_some_iff.mp hrun
  obtain ⟨o,ho,hpair⟩ := Option.map_eq_some_iff.mp hrun
  obtain ⟨hnames,hok⟩ := Prod.ext_iff.mp hpair
  have hr := exec_reach hg
  obtain ⟨g',r,he,-,hgiven⟩ := (alpn_wire hnew hr).2.1 fun _ => none
  cases Option.some.inj (ho.symm.trans he)
  obtain ⟨x,hx,hdec⟩ := hgiven hok
  simp only at hnames hok
  rw [hok] at he
  rw [hnames] at hdec
  exact ⟨start,g,hnew,hr,g',x,he,hx,hdec⟩

end Runs

end Dpapp.AlpnWire
