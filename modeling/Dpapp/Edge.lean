import Mathlib.Data.Finset.Basic
import Mathlib.Data.Finset.Lattice.Lemmas
import Mathlib.Data.Finset.SDiff

/-! # Edge-triggered notification

A file is ready in some directions, and others have registered for some of them. A registration is told of a direction when
the file becomes ready after it has been found not ready, and when it is ready at the registration. -/

namespace Dpapp.Edge

variable {ε : Type*} [DecidableEq ε]

/- `armed` are the directions that the file has been found not ready in, and has not become ready in since. -/
structure File (ε : Type*) where
  ready : Finset ε
  armed : Finset ε := ∅

/- `queued` are the edges not yet reported, `event` is a report that has not been taken. -/
structure Watch (ε : Type*) where
  mask : Finset ε
  queued : Finset ε := ∅
  event : Option (Finset ε) := none

/-! ### The file -/

def File.rise (f : File ε) (d : ε) : File ε := ⟨insert d f.ready,f.armed.erase d⟩

def File.fall (f : File ε) (d : ε) : File ε := {f with ready := f.ready.erase d}

/-- Somebody sees that the file is not ready in these directions. -/
def File.found (f : File ε) (ds : Finset ε) : File ε := {f with armed := f.armed∪ds}

def File.Sound (f : File ε) : Prop := Disjoint f.armed f.ready

/-! ### A registration -/

def register (f : File ε) (mask : Finset ε) : Watch ε := ⟨mask,mask∩f.ready,none⟩

/-- The registration is made again with another mask. -/
def Watch.again (w : Watch ε) (f : File ε) (mask : Finset ε) : Watch ε :=
  {w with mask := mask, queued := w.queued∪mask∩f.ready}

/-- What a registration hears when the file becomes ready. -/
def Watch.rise (w : Watch ε) (f : File ε) (d : ε) : Watch ε :=
  if d∈w.mask ∧ d∈f.armed then {w with queued := insert d w.queued} else w

/-- Edges that nothing obliges to. -/
def Watch.edge (w : Watch ε) (ds : Finset ε) : Watch ε := {w with queued := w.queued∪w.mask∩ds}

def Watch.report (w : Watch ε) (evs : Finset ε) : Watch ε := {w with queued := ∅, event := some evs}

def Watch.take (w : Watch ε) : Watch ε := {w with event := none}

def Watch.flight (w : Watch ε) : Finset ε := w.queued∪w.event.getD ∅

/-- Each direction is remembered, will be told of, or waits for the file to become ready. -/
def Covers (f : File ε) (w : Watch ε) (known : Finset ε) : Prop := w.mask⊆known∪w.flight∪f.armed

section Lemmas
variable {f : File ε} {w : Watch ε} {known known' ds evs mask : Finset ε} {d : ε}

theorem Sound.rise (h : f.Sound) : (f.rise d).Sound := by
  refine Finset.disjoint_left.mpr fun x hx hr => ?_
  obtain ⟨hne,hx⟩ := Finset.mem_erase.mp hx
  rcases Finset.mem_insert.mp hr with rfl | hr
  · exact hne rfl
  · exact Finset.disjoint_left.mp h hx hr

theorem Sound.fall (h : f.Sound) : (f.fall d).Sound := h.mono_right (Finset.erase_subset _ _)

theorem Sound.found (h : f.Sound) (hds : Disjoint ds f.ready) : (f.found ds).Sound := Finset.disjoint_union_left.mpr ⟨h,hds⟩

theorem covers_iff : Covers f w known ↔ ∀ d∈w.mask,d∈known ∨ d∈w.flight ∨ d∈f.armed := by
  unfold Covers
  simp only [Finset.subset_iff,Finset.mem_union,or_assoc]

/-- A file that is ready is remembered or will be told of. -/
theorem Covers.told (h : Covers f w known) (hf : f.Sound) (hd : d∈w.mask) (hr : d∈f.ready) : d∈known ∨ d∈w.flight := by
  rcases covers_iff.mp h d hd with hk | hw | ha
  · exact .inl hk
  · exact .inr hw
  · exact (Finset.disjoint_left.mp hf ha hr).elim

theorem Covers.more (h : Covers f w known) (hk : known⊆known') : Covers f w known' :=
  h.trans (Finset.union_subset_union_left (Finset.union_subset_union_left hk))

theorem Covers.shrink (h : Covers f w known) (hm : mask⊆w.mask) : Covers f {w with mask := mask} known := hm.trans h

/-- What has been found not ready may be forgotten. -/
theorem Covers.found (h : Covers f w known) (hk : known\ds⊆known') : Covers (f.found ds) w known' := by
  refine covers_iff.mpr fun d hd => ?_
  by_cases hds : d∈ds
  · exact .inr (.inr (Finset.mem_union_right _ hds))
  · rcases covers_iff.mp h d hd with hkn | hw | ha
    · exact .inl (hk (Finset.mem_sdiff.mpr ⟨hkn,hds⟩))
    · exact .inr (.inl hw)
    · exact .inr (.inr (Finset.mem_union_left _ ha))

theorem Covers.rise (h : Covers f w known) : Covers (f.rise d) (w.rise f d) known := by
  unfold Watch.rise
  split
  · refine covers_iff.mpr fun x hx => ?_
    rcases covers_iff.mp h x hx with hk | hw | ha
    · exact .inl hk
    · refine .inr (.inl ?_)
      exact Finset.union_subset_union_left (Finset.subset_insert d w.queued) hw
    · by_cases hxd : x=d
      · refine .inr (.inl (Finset.mem_union_left _ ?_))
        rw [hxd]
        exact Finset.mem_insert_self d w.queued
      · exact .inr (.inr (Finset.mem_erase.mpr ⟨hxd,ha⟩))
  · rename_i hno
    refine covers_iff.mpr fun x hx => ?_
    rcases covers_iff.mp h x hx with hk | hw | ha
    · exact .inl hk
    · exact .inr (.inl hw)
    · refine .inr (.inr (Finset.mem_erase.mpr ⟨fun hxd => ?_,ha⟩))
      rw [hxd] at hx ha
      exact hno ⟨hx,ha⟩

theorem Covers.edge (h : Covers f w known) : Covers f (w.edge ds) known := by
  refine covers_iff.mpr fun x hx => ?_
  rcases covers_iff.mp h x hx with hk | hw | ha
  · exact .inl hk
  · exact .inr (.inl (Finset.union_subset_union_left Finset.subset_union_left hw))
  · exact .inr (.inr ha)

/-- An edge that is not reported, since the file is no longer ready, has been seen not to be. -/
theorem Covers.report (h : Covers f w known) (he : w.event=none) : Covers (f.found (w.queued\evs)) (w.report evs) known := by
  refine covers_iff.mpr fun x hx => ?_
  rcases covers_iff.mp h x hx with hk | hw | ha
  · exact .inl hk
  · unfold Watch.flight at hw
    rw [he,Option.getD_none,Finset.union_empty] at hw
    by_cases hev : x∈evs
    · exact .inr (.inl (Finset.mem_union_right _ hev))
    · exact .inr (.inr (Finset.mem_union_right _ (Finset.mem_sdiff.mpr ⟨hw,hev⟩)))
  · exact .inr (.inr (Finset.mem_union_left _ ha))

theorem Covers.take (h : Covers f w known) (he : w.event=some evs) (hk : known∪evs⊆known') : Covers f w.take known' := by
  refine covers_iff.mpr fun x hx => ?_
  rcases covers_iff.mp h x hx with hkn | hw | ha
  · exact .inl (hk (Finset.mem_union_left _ hkn))
  · unfold Watch.flight at hw
    rw [he,Option.getD_some] at hw
    rcases Finset.mem_union.mp hw with hq | hev
    · exact .inr (.inl (Finset.mem_union_left _ hq))
    · exact .inl (hk (Finset.mem_union_right _ hev))
  · exact .inr (.inr ha)

theorem covers_register : Covers (f.found (mask\f.ready)) (register f mask) known := by
  refine covers_iff.mpr fun x hx => ?_
  by_cases hr : x∈f.ready
  · exact .inr (.inl (Finset.mem_union_left _ (Finset.mem_inter.mpr ⟨hx,hr⟩)))
  · exact .inr (.inr (Finset.mem_union_right _ (Finset.mem_sdiff.mpr ⟨hx,hr⟩)))

theorem covers_again : Covers (f.found (mask\f.ready)) (w.again f mask) known := by
  refine covers_iff.mpr fun x hx => ?_
  by_cases hr : x∈f.ready
  · exact .inr (.inl (Finset.mem_union_left _ (Finset.mem_union_right _ (Finset.mem_inter.mpr ⟨hx,hr⟩))))
  · exact .inr (.inr (Finset.mem_union_right _ (Finset.mem_sdiff.mpr ⟨hx,hr⟩)))

end Lemmas

end Dpapp.Edge
