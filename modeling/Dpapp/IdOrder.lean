import Dpapp.IdNext
import Dpapp.IdText

/-! # The order of the ids of one coroutine (dpcwc_aux.c) -/

namespace Dpapp.IdOrder
open Dpapp.Machine Dpapp.IdNext

/-- The thread of one coroutine. `clock` is the millisecond last read, less the base: before 2025 it is negative. -/
structure Solo where
  gen : Gen Unit := {}
  clock : ℤ

inductive Act
  | call (now : ℤ)
  | wake (now : ℤ)
deriving DecidableEq

/-- `dplog_millis() - _baseTS`, on the way into the uint64_t field. -/
def word (now : ℤ) : ℕ := (BitVec.ofInt 64 now).toNat

/-- The clock does not go back; the coroutine sleeps in the call or makes the next one. -/
def step (p : Place) (s : Solo) : Act → Option Solo
  | .call now =>
      if s.clock≤now ∧ s.gen.sleeps=[] then some {gen := idNext p s.gen () (word now), clock := now} else none
  | .wake now =>
      if s.clock≤now then
        (s.gen.sleeps.find? (·.1=())).map fun x => {gen := wakes s.gen () x.2 (word now), clock := now}
      else none

/-- What the call writes through `out_str`. -/
def outStr (out : List Dpbuf.Byte) (d : Id) : List Dpbuf.Byte := (IdText.toBase62 d.toU64 out).take 11

/-- Each value is greater than the one before, and so is each text; the latest stands first. -/
def Rising (s : Solo) : Prop :=
  (s.gen.issued.map Id.toU64).IsChain (·>·) ∧ ∀ out,(s.gen.issued.map (outStr out)).IsChain (·>·)

/-- The timestamp that the call or the wake reads. -/
def stamp (now : ℤ) : ℕ := (BitVec.ofNat 41 (word now)).toNat

/-- The 41 bits of the clock have not gone back, and in the same millisecond the counter has not begun again. -/
def advances (s : Solo) : Act → Prop
  | .call now => s.gen.issued=[] ∨ s.gen.ctx.timestamp<stamp now ∨
      s.gen.ctx.timestamp=stamp now ∧ s.gen.ctx.sequence≠0
  | .wake now => s.gen.ctx.timestamp≤ stamp now

theorem toU64_toNat (d : Id) : d.toU64.toNat=
    ((d.timestamp.toNat*32+d.machineId.toNat)*256+d.threadId.toNat)*1024+d.sequence.toNat := by
  have hs := d.sequence.isLt
  have ht := d.threadId.isLt
  have hm := d.machineId.isLt
  rw [Id.toU64,BitVec.toNat_append,BitVec.toNat_append,BitVec.toNat_append]
  rw [← Nat.shiftLeft_add_eq_or_of_lt hm,← Nat.shiftLeft_add_eq_or_of_lt ht,← Nat.shiftLeft_add_eq_or_of_lt hs]
  rw [Nat.shiftLeft_eq,Nat.shiftLeft_eq,Nat.shiftLeft_eq]

/-- Ids of one place are in the order of their milliseconds, and in one millisecond of their numbers. -/
theorem toU64_lt {d e : Id} (hm : d.machineId=e.machineId) (ht : d.threadId=e.threadId) :
    e.toU64<d.toU64 ↔ e.timestamp.toNat<d.timestamp.toNat ∨
      e.timestamp=d.timestamp ∧ e.sequence.toNat<d.sequence.toNat := by
  have hs := d.sequence.isLt
  have hs' := e.sequence.isLt
  rw [BitVec.lt_def,toU64_toNat,toU64_toNat,hm,ht,← BitVec.toNat_inj]
  omega

theorem rising_iff (s : Solo) : Rising s ↔ (s.gen.issued.map Id.toU64).IsChain (·>·) := by
  refine ⟨And.left,fun h => ⟨h,fun out => ?_⟩⟩
  rw [List.isChain_map] at h ⊢
  refine h.imp fun d e hde => ?_
  change outStr out e<outStr out d
  rw [outStr,outStr,IdText.take_toBase62,IdText.take_toBase62,IdText.text_lt_iff]
  exact hde

def Climbs (g : Gen Unit) : Prop := (g.issued.map Id.toU64).IsChain (·>·)

def atPlace (p : Place) (d : Id) : Prop :=
  d.threadId=BitVec.ofNat 8 p.threadId ∧ d.machineId=BitVec.ofNat 5 p.machineId

/-- The context tells the latest id; while a call sleeps, which has taken the last number, the counter is at 0. -/
structure Told (p : Place) (g : Gen Unit) : Prop where
  room : g.ctx.sequence<1024
  none : g.issued=[] → g.ctx.sequence=0 ∧ g.sleeps=[]
  last : ∀ e es,g.issued=e::es → atPlace p e ∧ e.timestamp.toNat=g.ctx.timestamp
  next : ∀ e es,g.issued=e::es → g.sleeps=[] → (e.sequence.toNat+1)%1024=g.ctx.sequence
  sleep : ∀ x∈g.sleeps,x.2.sequence=maxSequence ∧ atPlace p x.2 ∧ g.ctx.sequence=0 ∧
    ∀ e es,g.issued=e::es → e.sequence.toNat<1023

theorem told_start (p : Place) : Told p ({} : Gen Unit) :=
  ⟨by decide,fun _ => ⟨rfl,rfl⟩,fun _ _ h => by (cases h),fun _ _ h => by (cases h),fun _ h => by (cases h)⟩

section Steps
variable {p : Place} {g : Gen Unit} {d e : Id} {es : List Id} {s u : Solo} {a : Act}

theorem climbs_finish (hg : g.issued=e::es) (he : atPlace p e) (hts : e.timestamp.toNat=g.ctx.timestamp)
    (hd : atPlace p d) : Climbs (g.finish d) ↔
      Climbs g ∧ (g.ctx.timestamp<d.timestamp.toNat ∨
        g.ctx.timestamp=d.timestamp.toNat ∧ e.sequence.toNat<d.sequence.toNat) := by
  have hlt := toU64_lt (hd.2.trans he.2.symm) (hd.1.trans he.1.symm)
  rw [← BitVec.toNat_inj,hts] at hlt
  rw [Climbs,Climbs,Gen.finish,hg,List.map_cons,List.map_cons,List.isChain_cons_cons]
  exact and_comm.trans (and_congr_right fun _ => hlt)

theorem told_finish (hseq : g.sleeps=[]) (hroom : g.ctx.sequence<1024)
    (hnext : (d.sequence.toNat+1)%1024=g.ctx.sequence) (hd : atPlace p d) : Told p (g.finish d) := by
  refine ⟨hroom,fun h => ?_,?_,?_,fun x hx => ?_⟩
  · cases h
  · rintro e es h
    cases h
    exact ⟨hd,rfl⟩
  · rintro e es h -
    cases h
    exact hnext
  · rw [Gen.finish,hseq] at hx
    cases hx

/-- The test of the while loop, with the last number taken and nobody asleep. -/
theorem loop_spec (hg : g.issued=e::es) (he : atPlace p e) (hts : e.timestamp.toNat=g.ctx.timestamp)
    (hlt : e.sequence.toNat<1023) (hs : g.sleeps=[]) (hz : g.ctx.sequence=0) (hmax : d.sequence=maxSequence)
    (hd : atPlace p d) : Told p (g.loop () d) ∧
      (Climbs (g.loop () d) ↔ Climbs g ∧ g.ctx.timestamp≤d.timestamp.toNat) := by
  have hnum : d.sequence.toNat=1023 := by
    rw [hmax]
    rfl
  unfold Gen.loop
  split
  · rename_i heq
    refine ⟨⟨by rw [hz]; decide,fun h => ?_,?_,?_,?_⟩,?_⟩
    · rw [hg] at h
      cases h
    · intro e' es' h
      rw [hg] at h
      cases h
      exact ⟨he,hts⟩
    · intro _ _ _ h
      cases h
    · intro x hx
      rw [hs,List.mem_singleton] at hx
      subst hx
      refine ⟨hmax,hd,hz,fun e' es' h => ?_⟩
      rw [hg] at h
      cases h
      exact hlt
    · exact ⟨fun h => ⟨h,heq.ge⟩,And.left⟩
  · rename_i hne
    refine ⟨told_finish hs (by rw [hz]; decide) (by rw [hnum,hz]) hd,?_⟩
    rw [climbs_finish hg he hts hd]
    exact and_congr_right fun _ => by omega

theorem step_spec (h : Told p s.gen) (hu : step p s a=some u) :
    Told p u.gen ∧ (Climbs u.gen ↔ Climbs s.gen ∧ advances s a) := by
  cases a with
  | call now =>
    obtain ⟨⟨-,hs⟩,hu⟩ := Option.ite_none_right_eq_some.mp hu
    cases hu
    have hroom := h.room
    have hseq : (BitVec.ofNat 10 s.gen.ctx.sequence).toNat=s.gen.ctx.sequence := by
      rw [BitVec.toNat_ofNat]
      exact Nat.mod_eq_of_lt hroom
    simp only [idNext]
    split
    · rename_i hmax
      have hnum : s.gen.ctx.sequence=1023 := by
        rw [← hseq,hmax]
        rfl
      rcases eq_or_ne s.gen.issued [] with hi | hne
      · have hz := (h.none hi).1
        omega
      · obtain ⟨e,es,hi⟩ := List.exists_cons_of_ne_nil hne
        obtain ⟨he,hts⟩ := h.last e es hi
        have hnext := h.next e es hi hs
        have hlt := e.sequence.isLt
        obtain ⟨htold,hiff⟩ := loop_spec (g := {s.gen with clock := word now, ctx := {s.gen.ctx with sequence := 0}})
          (d := ⟨BitVec.ofNat 10 s.gen.ctx.sequence,BitVec.ofNat 8 p.threadId,BitVec.ofNat 5 p.machineId,
            BitVec.ofNat 41 (word now)⟩) hi he hts (by omega) hs rfl hmax ⟨rfl,rfl⟩
        refine ⟨htold,hiff.trans (and_congr_right fun _ => ?_)⟩
        change s.gen.ctx.timestamp≤ stamp now ↔ _
        simp only [advances,hi]
        simp
        omega
    · rename_i hmax
      have hsmall : s.gen.ctx.sequence<1023 := by
        by_contra hge
        have hlast : s.gen.ctx.sequence=1023 := by omega
        exact hmax (by rw [hlast]; rfl)
      refine ⟨told_finish hs (Nat.succ_lt_succ hsmall) ?_ ⟨rfl,rfl⟩,?_⟩
      · rw [hseq]
        exact Nat.mod_eq_of_lt (by omega)
      rcases eq_or_ne s.gen.issued [] with hi | hne
      · refine ⟨fun _ => ⟨?_,.inl hi⟩,fun _ => ?_⟩
        · rw [Climbs,hi]
          exact .nil
        · rw [Climbs,Gen.finish,hi]
          exact .singleton _
      · obtain ⟨e,es,hi⟩ := List.exists_cons_of_ne_nil hne
        obtain ⟨he,hts⟩ := h.last e es hi
        have hnext := h.next e es hi hs
        have hlt := e.sequence.isLt
        have hd : atPlace p ⟨BitVec.ofNat 10 s.gen.ctx.sequence,BitVec.ofNat 8 p.threadId,
            BitVec.ofNat 5 p.machineId,BitVec.ofNat 41 (word now)⟩ := ⟨rfl,rfl⟩
        refine (climbs_finish (g := {s.gen with
          clock := word now, ctx := {s.gen.ctx with sequence := s.gen.ctx.sequence+1}}) hi he hts hd).trans ?_
        refine and_congr_right fun _ => ?_
        change s.gen.ctx.timestamp<stamp now ∨ s.gen.ctx.timestamp=stamp now ∧ _ ↔ _
        rw [hseq]
        simp only [advances,hi]
        simp
        omega
  | wake now =>
    obtain ⟨-,hu⟩ := Option.ite_none_right_eq_some.mp hu
    obtain ⟨x,hx,hu⟩ := Option.map_eq_some_iff.mp hu
    cases hu
    have hmem := List.mem_of_find?_eq_some hx
    obtain ⟨hmax,hpx,hz,hlt⟩ := h.sleep x hmem
    rcases eq_or_ne s.gen.issued [] with hi | hne
    · have hnil := (h.none hi).2
      rw [hnil] at hmem
      cases hmem
    · obtain ⟨e,es,hi⟩ := List.exists_cons_of_ne_nil hne
      obtain ⟨he,hts⟩ := h.last e es hi
      have hnone : s.gen.sleeps.filter (·.1≠())=[] := by simp
      exact loop_spec (g := {s.gen with clock := word now, sleeps := s.gen.sleeps.filter (·.1≠())})
        (d := {x.2 with timestamp := BitVec.ofNat 41 (word now)}) hi he hts (hlt e es hi) hnone hz hmax hpx

/-- In a run the ids rise if and only if each of its steps advances. -/
theorem climbs_iff {as : List Act} (h : Told p s.gen) (hr : Runs (step p) anyStep s as u) :
    Climbs u.gen ↔ Climbs s.gen ∧ Runs (step p) (fun s a => advances s a) s as u := by
  induction hr with
  | nil s => exact ⟨fun hc => ⟨hc,.nil s⟩,And.left⟩
  | @cons s t u a as _ ha hrest ih =>
    obtain ⟨htold,hiff⟩ := step_spec h ha
    rw [ih htold,hiff]
    constructor
    · rintro ⟨⟨hc,hadv⟩,hruns⟩
      exact ⟨hc,.cons hadv ha hruns⟩
    · rintro ⟨hc,hruns⟩
      cases hruns with
      | cons hadv hb hruns =>
        cases Option.some.inj (ha.symm.trans hb)
        exact ⟨⟨hc,hadv⟩,hruns⟩

end Steps

theorem id_next_rising (p : Place) (start : ℤ) (as : List Act) (s : Solo)
    (h : Runs (step p) anyStep {clock := start} as s) :
    Rising s ↔ Runs (step p) (fun s a => advances s a) {clock := start} as s := by
  rw [rising_iff]
  refine (climbs_iff (told_start p) h).trans ?_
  have hnil : Climbs ({clock := start} : Solo).gen := .nil
  exact and_iff_right hnil

instance (s : Solo) (a : Act) : Decidable (advances s a) := by
  cases a with
  | call now => exact inferInstanceAs (Decidable (_ ∨ _ ∨ _ ∧ _))
  | wake now => exact inferInstanceAs (Decidable (_≤_))

/-- Two calls in one millisecond. -/
theorem id_next_rising_twice : ∃ s,Runs (step ⟨0,0⟩) anyStep {clock := 5} [.call 5,.call 5] s ∧ Rising s := by
  have hok : (execOk (step ⟨0,0⟩) (fun s a => advances s a) {clock := 5} [.call 5,.call 5]).isSome := by decide
  obtain ⟨s,hs⟩ := Option.isSome_iff_exists.mp hok
  have hruns := execOk_runs hs
  have hany : Runs (step ⟨0,0⟩) anyStep {clock := 5} [.call 5,.call 5] s := hruns.mono fun _ _ _ => trivial
  exact ⟨s,hany,(id_next_rising ⟨0,0⟩ 5 _ s hany).mpr hruns⟩

/-- Up to 1023 calls in the fifth millisecond. -/
theorem burst_reach (n : ℕ) (hn : n≤1023) : ∃ s,Reach (step ⟨0,0⟩) anyStep {clock := 5} s ∧ s.clock=5 ∧
    s.gen.ctx.sequence=n ∧ s.gen.sleeps=[] ∧ (0<n → s.gen.ctx.timestamp=5) := by
  induction n with
  | zero => exact ⟨_,.refl,rfl,rfl,rfl,fun h => (Nat.lt_irrefl 0 h).elim⟩
  | succ n ih =>
    obtain ⟨s,hr,hclock,hseq,hsleeps,-⟩ := ih (by omega)
    have hmax : BitVec.ofNat 10 n≠maxSequence := by
      intro h
      have := congrArg BitVec.toNat h
      rw [BitVec.toNat_ofNat,Nat.mod_eq_of_lt (by omega)] at this
      change n=1023 at this
      omega
    have hstep : step ⟨0,0⟩ s (.call 5)=some ⟨Gen.finish {s.gen with
        clock := 5, ctx := {s.gen.ctx with sequence := n+1}} ⟨BitVec.ofNat 10 n,0,0,5⟩,5⟩ := by
      simp [step,idNext,hseq,hsleeps,hclock,hmax,word]
    exact ⟨_,hr.tail trivial hstep,rfl,rfl,hsleeps,fun _ => rfl⟩

/-- The call with the last number returns in the sixth millisecond, and so does the one after it. -/
theorem id_next_falls : ¬∀ s,Reach (step ⟨0,0⟩) anyStep {clock := 5} s → Rising s := by
  intro hall
  obtain ⟨s,hr,hclock,hseq,hsleeps,hts⟩ := burst_reach 1023 le_rfl
  have hlast : step ⟨0,0⟩ s (.call 6)=some ⟨Gen.finish {s.gen with
      clock := 6, ctx := {s.gen.ctx with sequence := 0}} ⟨1023,0,0,6⟩,6⟩ := by
    simp [step,idNext,Gen.loop,hseq,hsleeps,hclock,maxSequence,word,hts]
  have hfirst : ∀ g : Gen Unit,g.sleeps=[] → g.ctx.sequence=0 → step ⟨0,0⟩ ⟨g,6⟩ (.call 6)=
      some ⟨Gen.finish {g with clock := 6, ctx := {g.ctx with sequence := 1}} ⟨0,0,0,6⟩,6⟩ := by
    intro g hs hz
    simp [step,idNext,hs,hz,maxSequence,word]
  have hrise := (hall _ ((hr.tail trivial hlast).tail trivial (hfirst _ hsleeps rfl))).1
  simp [Gen.finish] at hrise
  exact absurd hrise.1 (by decide)

end Dpapp.IdOrder
