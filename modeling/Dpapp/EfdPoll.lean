import Dpapp.EfdWake
import Dpapp.Machine

/-! # dpefd_poll (dpasc.c, os/linux/dpevp_epoll.c)

The events of an element, the mask of a poll, and what a poll that completes returns and uses up. -/

namespace Dpapp.EfdPoll
open Dpapp.Machine Dpapp.Ret Dpapp.EfdWake

/-! ### Masks -/

section Masks
variable {w : ℕ} {m : BitVec w} {e : Evt} {evs evs' : Evts}

def bit : Evt → ℕ
  | .inp => 0
  | .pri => 1
  | .out => 2
  | .err => 3
  | .hup => 4

/-- DPEVT_ALL -/
def evtAll : Evts := {.inp,.pri,.out,.err,.hup}

/-- The five events of a mask, as a bit field of five bits keeps them. -/
def evts (m : BitVec w) : Evts := evtAll.filter fun e => m.getLsbD (bit e)=true

/-- The mask of some events, as a number. -/
def num (evs : Evts) : ℕ := ∑ e∈evs,2^bit e

theorem mem_all : e∈evtAll := by cases e <;> decide

theorem mem_evts : e∈evts m ↔ m.getLsbD (bit e)=true := by
  rw [evts,Finset.mem_filter]
  exact and_iff_right mem_all

theorem num_evts : num (evts m)=m.toNat%32 := by
  have hbit : ∀ i,(if m.getLsbD i=true then 2^i else 0)=m.toNat/2^i%2*2^i := by
    intro i
    rw [← BitVec.testBit_toNat,Nat.testBit_eq_decide_div_mod_eq]
    rcases Nat.mod_two_eq_zero_or_one (m.toNat/2^i) with h | h <;> simp [h]
  have hsum : num (evts m)=m.toNat%2+(m.toNat/2%2*2+(m.toNat/4%2*4+(m.toNat/8%2*8+m.toNat/16%2*16))) := by
    unfold num evts evtAll
    rw [Finset.sum_filter]
    have hterm : ∀ e,(if m.getLsbD (bit e)=true then 2^bit e else 0)=m.toNat/2^bit e%2*2^bit e := fun e => hbit (bit e)
    rw [Finset.sum_congr rfl fun e _ => hterm e]
    simp [bit]
  rw [hsum]
  omega

/-- What five bits hold comes back from a mask made of them. -/
theorem evts_num : evts (BitVec.ofNat 16 (num evs))=evs := by
  have hall : ∀ x∈evtAll.powerset,evts (BitVec.ofNat 16 (num x))=x := by decide +kernel
  exact hall evs (Finset.mem_powerset.mpr fun _ _ => mem_all)

theorem num_lt : num evs<32 := by
  have hall : ∀ x∈evtAll.powerset,num x<32 := by decide +kernel
  exact hall evs (Finset.mem_powerset.mpr fun _ _ => mem_all)

theorem num_inj (h : num evs=num evs') : evs=evs' := by
  rw [← @evts_num evs,h,evts_num]

end Masks

/-! ### The operation -/

/- `before` and `after` are the element's able events when the post function is called and when it has returned. -/
structure Done where
  mask : BitVec 32
  atOnce : Bool
  before : Evts
  ret : Dpret
  after : Evts
  deriving DecidableEq

/- `polling` is the mask of the poll that waits; `done` are the polls that completed without an error, the last first. -/
structure Ele where
  efd : Efd := {}
  polling : Option (BitVec 32) := none
  done : List Done := []

/-- `_dpefd_poll_prep`: what it returns, and its `want_events`. -/
def pollPrep (types evs : BitVec 32) : Dpret × BitVec 16 :=
  if evs &&& (types ||| 0x1f)=0 then (dpeInval,0) else (dpeContinue,evs.setWidth 16)

/-- `_dpefd_poll_post` -/
def pollPost (want : BitVec 16) : PostRet := ⟨want.toNat,⟨evts want,evts want⟩⟩

section Operation
variable (s : Ele) (mask : BitVec 32)

def Ele.wait (f : Efd) : Ele := {s with efd := f, polling := some mask}

/-- `_dpefd_wake` for a poll whose `want_events` are these. -/
def Ele.wake (f : Efd) (want : BitVec 16) (atOnce : Bool) : Ele :=
  match dpefdWake f ⟨evts want,∅⟩ with
  | (f,.ret r) => if r=dpeWait then s.wait mask f else {s with efd := f, polling := none}
  | (f,.post) =>
      match dpefdPosted f (pollPost want) with
      | (g,.ret r) =>
          if r=dpeWait then s.wait mask g
          else {s with efd := g, polling := none, done := ⟨mask,atOnce,f.able,r,g.able⟩::s.done}
      | (g,.post) => s.wait mask g

/-- dpevp_addv -/
def Ele.add (types : BitVec 32) : Ele :=
  match pollPrep types mask with
  | (r,want) => if r=dpeContinue then s.wake mask s.efd want true else s

/-- `_dpefd_feed`. The mask that the post function sees is the element's bit field. -/
def Ele.feed (evs : Evts) : Ele :=
  let f : Efd := {s.efd with able := s.efd.able∪evs}
  match s.polling with
  | none => {s with efd := f}
  | some mask => if f.want=∅ then {s with efd := f} else s.wake mask f (BitVec.ofNat 16 (num f.want)) false

end Operation

/- `take` is another operation on the element that uses up events, and `stop` the timer or dpevp_end. -/
inductive Act
  | harvest (h : Harvest)
  | take (evs : Evts)
  | poll (mask : BitVec 32)
  | stop

def step (types : BitVec 32) (s : Ele) : Act → Option Ele
  | .harvest h => some (s.feed h.bits)
  | .take evs => if s.polling=none then some {s with efd := {s.efd with able := s.efd.able\evs}} else none
  | .poll mask => if s.polling=none then some (s.add mask types) else none
  | .stop => if s.polling≠none then some {s with efd := {s.efd with want := ∅}, polling := none} else none

/-! ### The result is the ready part of the mask -/

/-- The wanted events that were ready are what is returned, and what is used up. -/
structure Right (c : Done) : Prop where
  ret : c.ret=num (c.before∩evts c.mask)
  nonempty : (c.before∩evts c.mask).Nonempty
  taken : c.after=c.before\(c.before∩evts c.mask)

instance (c : Done) : Decidable (Right c) := decidable_of_iff
  (c.ret=num (c.before∩evts c.mask) ∧ (c.before∩evts c.mask).Nonempty ∧ c.after=c.before\(c.before∩evts c.mask))
  ⟨fun ⟨h,h',h''⟩ => ⟨h,h',h''⟩,fun h => ⟨h.ret,h.nonempty,h.taken⟩⟩

/-- With these events remembered the poll is over, and not with an error. -/
def completes (able : Evts) (mask : BitVec 32) : Prop := evtGetErr able=dpeOk ∧ (able∩evts mask).Nonempty

instance (able : Evts) (mask : BitVec 32) : Decidable (completes able mask) := inferInstanceAs (Decidable (_ ∧ _))

/-- A poll that this step completes finds all the events of its mask ready; and a mask that is not kept in the element
first has no bits above the five. -/
def fits (s : Ele) : Act → Prop
  | .harvest h => ∀ mask∈ s.polling,completes (s.efd.able∪h.bits) mask → evts mask⊆s.efd.able∪h.bits
  | .poll mask => completes s.efd.able mask → evts mask⊆s.efd.able ∧ mask.toNat%65536<32
  | .take _ | .stop => True

instance (s : Ele) : (a : Act) → Decidable (fits s a)
  | .harvest h =>
      match hp : s.polling with
      | none => .isTrue fun m hm => by cases hp.symm.trans hm
      | some mask => decidable_of_iff (completes (s.efd.able∪h.bits) mask → evts mask⊆s.efd.able∪h.bits)
          ⟨fun hall m hm => by cases hp.symm.trans hm; exact hall,fun hall => hall mask hp⟩
  | .poll mask => inferInstanceAs (Decidable (completes s.efd.able mask → _ ∧ _))
  | .take _ => .isTrue trivial
  | .stop => .isTrue trivial

/-- The bit field holds the events of the mask. -/
def Inv (s : Ele) : Prop := ∀ mask∈ s.polling,s.efd.want=evts mask

section Steps
variable {types : BitVec 32} {s s' : Ele} {f : Efd} {mask : BitVec 32} {want : BitVec 16} {atOnce : Bool} {a : Act}
  {evs : Evts} {c : Done}

theorem evtGetErr_cases : evtGetErr evs=dpeOk ∨ dpretIserr (evtGetErr evs) ∧ evtGetErr evs≠dpeWait ∧ evtGetErr evs≠dpeOk := by
  unfold evtGetErr
  split
  · exact .inr (by decide)
  · split
    · exact .inr (by decide)
    · exact .inl rfl

theorem setWidth_evts : evts (mask.setWidth 16)=evts mask := by
  refine Finset.ext fun e => ?_
  rw [mem_evts,mem_evts,BitVec.getLsbD_setWidth]
  cases e <;> simp [bit]

/-- A poll is over with an error, over with its mask, or waits; and takes no more than its mask. -/
theorem wake_cases (hwant : evts want=evts mask) :
    (¬completes f.able mask ∧ evtGetErr f.able≠dpeOk ∧ s.wake mask f want atOnce={s with efd := ⟨f.able,∅⟩, polling := none}) ∨
    (¬completes f.able mask ∧ s.wake mask f want atOnce=s.wait mask ⟨f.able,evts mask⟩) ∨
    (completes f.able mask ∧ s.wake mask f want atOnce=
      ⟨⟨f.able\evts mask,∅⟩,none,⟨mask,atOnce,f.able,want.toNat,f.able\evts mask⟩::s.done⟩) := by
  unfold Ele.wake dpefdWake
  rcases @evtGetErr_cases f.able with hok | ⟨herr,hwait,hne⟩
  · have hno : ¬dpretIserr (evtGetErr f.able) := by
      rw [hok]
      decide
    rw [if_neg hno]
    simp only [wakeTest,Finset.sdiff_empty,hwant]
    by_cases hin : (f.able∩evts mask).Nonempty
    · have hr : (want.toNat : ℤ)≠dpeWait := fun h => by
        have : (want.toNat : ℤ)= -11 := h
        omega
      refine .inr (.inr ⟨⟨hok,hin⟩,?_⟩)
      rw [if_pos hin]
      simp only [dpefdPosted,pollPost,hwant]
      rw [if_neg hr]
      simp only
      rw [if_neg hr]
    · refine .inr (.inl ⟨fun h => hin h.2,?_⟩)
      rw [if_neg hin]
      exact if_pos rfl
  · rw [if_pos herr]
    exact .inl ⟨fun h => hne h.1,hne,if_neg hwait⟩

/-- The mask in full is the ready part of it only when all of it is ready, and nothing stands above. -/
theorem right_iff {r : ℕ} (hin : (f.able∩evts mask).Nonempty) (hr : r%32=num (evts mask)) :
    Right ⟨mask,atOnce,f.able,r,f.able\evts mask⟩ ↔ evts mask⊆f.able ∧ r<32 := by
  have htaken : f.able\evts mask=f.able\(f.able∩evts mask) := (Finset.sdiff_inter_self_left _ _).symm
  constructor
  · intro h
    have hret : (r : ℤ)=num (f.able∩evts mask) := h.ret
    have hlt : num (f.able∩evts mask)<32 := num_lt
    have heq : num (evts mask)=num (f.able∩evts mask) := by omega
    exact ⟨Finset.inter_eq_right.mp (num_inj heq).symm,by omega⟩
  · rintro ⟨hsub,hlt⟩
    have hret : (r : ℤ)=num (f.able∩evts mask) := by
      rw [Finset.inter_eq_right.mpr hsub]
      omega
    exact ⟨hret,hin,htaken⟩

/-- What a step of the poll does to the log: nothing, or one more entry; and whether that entry is right. -/
structure Adds (s t : Ele) (p : Prop) : Prop where
  inv : Inv t
  log : t.done=s.done ∨ ∃ c,t.done=c::s.done
  right : (∀ c,t.done=c::s.done → Right c) ↔ p

theorem adds_none {t : Ele} {p : Prop} (hinv : Inv t) (hlog : t.done=s.done) (hp : p) : Adds s t p :=
  ⟨hinv,.inl hlog,iff_of_true (fun c hc => absurd (hc.symm.trans hlog) (List.cons_ne_self c s.done)) hp⟩

theorem adds_wake (hwant : evts want=evts mask) :
    Adds s (s.wake mask f want atOnce) (completes f.able mask → evts mask⊆f.able ∧ want.toNat<32) := by
  rcases @wake_cases s f mask want atOnce hwant with ⟨hno,-,heq⟩ | ⟨hno,heq⟩ | ⟨hover,heq⟩
  · rw [heq]
    exact adds_none (fun _ hm => by cases hm) rfl fun h => absurd h hno
  · rw [heq]
    exact adds_none (fun _ hm => by cases hm; rfl) rfl fun h => absurd h hno
  · have hlow : want.toNat%32=num (evts mask) := by rw [← hwant,num_evts]
    have hright := @right_iff f mask atOnce want.toNat hover.2 hlow
    rw [heq]
    refine ⟨fun _ hm => (by cases hm),.inr ⟨_,rfl⟩,?_⟩
    constructor
    · exact fun h _ => hright.mp (h _ rfl)
    · intro h c hc
      obtain ⟨rfl,-⟩ := List.cons_eq_cons.mp hc
      exact hright.mpr (h hover)

/-- A mask that prep refuses has none of the five events. -/
theorem evts_refused (h : mask &&& (types ||| 0x1f)=0) : evts mask=∅ := by
  refine Finset.eq_empty_of_forall_notMem fun e he => ?_
  have hbit : (mask &&& (types ||| 0x1f)).getLsbD (bit e)=true := by
    rw [BitVec.getLsbD_and,mem_evts.mp he,BitVec.getLsbD_or]
    cases e <;> simp [bit]
  rw [h] at hbit
  cases e <;> simp at hbit

theorem adds_add (h : s.polling=none) : Adds s (s.add mask types) (fits s (.poll mask)) := by
  unfold Ele.add pollPrep
  by_cases hno : mask &&& (types ||| 0x1f)=0
  · rw [if_pos hno]
    simp only
    rw [if_neg (by decide)]
    refine adds_none (fun m hm => ?_) rfl fun hover => ?_
    · rw [h] at hm
      cases hm
    · obtain ⟨x,hx⟩ := hover.2
      rw [evts_refused hno,Finset.inter_empty] at hx
      exact absurd hx (Finset.notMem_empty x)
  · rw [if_neg hno]
    simp only
    rw [if_pos trivial]
    have hadds := @adds_wake s s.efd mask (mask.setWidth 16) true setWidth_evts
    rw [BitVec.toNat_setWidth] at hadds
    exact hadds

theorem feed_idle (h : s.polling=none) : s.feed evs={s with efd := {s.efd with able := s.efd.able∪evs}} := by
  unfold Ele.feed
  rw [h]

theorem feed_unwanted (h : s.efd.want=∅) : s.feed evs={s with efd := {s.efd with able := s.efd.able∪evs}} := by
  unfold Ele.feed
  cases s.polling with
  | none => rfl
  | some mask => exact if_pos h

theorem feed_wanted (hp : s.polling=some mask) (hwant : s.efd.want≠∅) :
    s.feed evs=s.wake mask ⟨s.efd.able∪evs,s.efd.want⟩ (BitVec.ofNat 16 (num s.efd.want)) false := by
  unfold Ele.feed
  rw [hp]
  exact if_neg hwant

theorem adds_feed (h : Inv s) (x : Harvest) : Adds s (s.feed x.bits) (fits s (.harvest x)) := by
  have hkeep : Inv {s with efd := {s.efd with able := s.efd.able∪x.bits}} := h
  cases hp : s.polling with
  | none =>
    rw [feed_idle hp]
    refine adds_none hkeep rfl fun m hm => ?_
    cases hp.symm.trans hm
  | some mask =>
    have hwant : s.efd.want=evts mask := h mask hp
    by_cases hnone : s.efd.want=∅
    · rw [feed_unwanted hnone]
      refine adds_none hkeep rfl fun m hm hover => ?_
      cases hp.symm.trans hm
      obtain ⟨e,he⟩ := hover.2
      rw [← hwant,hnone,Finset.inter_empty] at he
      exact absurd he (Finset.notMem_empty e)
    · rw [feed_wanted hp hnone]
      have hkept : evts (BitVec.ofNat 16 (num s.efd.want))=evts mask := evts_num.trans hwant
      have hlow : (BitVec.ofNat 16 (num s.efd.want)).toNat<32 := by
        have hlt : num s.efd.want<32 := num_lt
        rw [BitVec.toNat_ofNat]
        omega
      have hadds := @adds_wake s ⟨s.efd.able∪x.bits,s.efd.want⟩ mask _ false hkept
      refine ⟨hadds.inv,hadds.log,hadds.right.trans ?_⟩
      constructor
      · intro hall m hm hover
        cases hp.symm.trans hm
        exact (hall hover).1
      · exact fun hall hover => ⟨hall mask hp hover,hlow⟩

theorem adds_step (h : Inv s) (hu : step types s a=some s') : Adds s s' (fits s a) := by
  cases a with
  | harvest x =>
    cases hu
    exact adds_feed h x
  | take evs =>
    obtain ⟨hp,hu⟩ := Option.ite_none_right_eq_some.mp hu
    cases hu
    exact adds_none (fun m hm => by cases hp.symm.trans hm) rfl trivial
  | poll mask =>
    obtain ⟨hp,hu⟩ := Option.ite_none_right_eq_some.mp hu
    cases hu
    exact adds_add hp
  | stop =>
    obtain ⟨-,hu⟩ := Option.ite_none_right_eq_some.mp hu
    cases hu
    exact adds_none (fun _ hm => by cases hm) rfl trivial

theorem inv_start : Inv {} := fun _ hm => by cases hm

theorem reach_inv (h : Reach (step types) anyStep {} s) : Inv s :=
  h.invariant inv_start fun _ _ _ hi _ hu => (adds_step hi hu).inv

theorem poll_right :
    (Reach (step types) fits {} s → ∀ c∈ s.done,Right c) ∧
    (Reach (step types) anyStep {} s → ∀ a s',step types s a=some s' → ((∀ c,s'.done=c::s.done → Right c) ↔ fits s a)) := by
  constructor
  · intro h
    have hboth : Inv s ∧ ∀ c∈ s.done,Right c := by
      refine h.invariant (I := fun s => Inv s ∧ ∀ c∈ s.done,Right c) ⟨inv_start,fun c hc => by cases hc⟩ ?_
      rintro s t a ⟨hinv,hall⟩ hok hu
      obtain ⟨hinv',hlog,hright⟩ := adds_step hinv hu
      refine ⟨hinv',?_⟩
      rcases hlog with hlog | ⟨c,hlog⟩
      · rw [hlog]
        exact hall
      · rw [hlog]
        exact List.forall_mem_cons.mpr ⟨hright.mpr hok c hlog,hall⟩
    exact hboth.2
  · exact fun h a s' hu => (adds_step (reach_inv h) hu).right

end Steps

/-- IN and OUT come in two events, the second while the poll waits. -/
def bothReady : List Act := [.harvest ⟨{.inp},false⟩,.take {.inp},.poll 5#32,.harvest ⟨{.inp,.out},false⟩]

theorem poll_right_both : ∃ s : Ele,(∃ c∈ s.done,c.ret=5) ∧ ∀ c∈ s.done,Right c := by
  have hrun : ((execOk (step 5#32) fits {} bothReady).any fun s => decide (∃ c∈ s.done,c.ret=5))=true := by decide +kernel
  obtain ⟨s,hs,hr⟩ := (Option.any_eq_true _ _).mp hrun
  exact ⟨s,of_decide_eq_true hr,poll_right.1 (execOk_reach hs)⟩

/-- Only OUT is ready. -/
def outReady : List Act := [.harvest ⟨{.out},false⟩,.poll 5#32]

/-- The poll for IN and OUT returns both. -/
theorem poll_whole_mask : ¬∀ types s,Reach (step types) anyStep {} s → ∀ c∈ s.done,Right c := by
  intro hall
  have hrun : ((exec (step 5#32) {} outReady).any fun s =>
      decide (∃ c∈ s.done,c.before={.out} ∧ c.mask=5#32 ∧ c.ret=5 ∧ ¬Right c))=true := by decide +kernel
  obtain ⟨s,hs,hr⟩ := (Option.any_eq_true _ _).mp hrun
  obtain ⟨c,hc,-,-,-,hno⟩ : ∃ c∈ s.done,c.before={.out} ∧ c.mask=5#32 ∧ c.ret=5 ∧ ¬Right c := of_decide_eq_true hr
  exact hno (hall _ s (exec_reach hs) c hc)

end Dpapp.EfdPoll
