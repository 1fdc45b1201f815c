import Dpapp.EfdWake
import Dpapp.Machine

/-! # dpskt_connect (os/linux/dpasc_epoll.c, os/linux/dpevp_epoll.c)

A socket that is registered with epoll when it is made, its attempt to connect, and the events that are harvested before
and while the operation waits. -/

namespace Dpapp.SktConnect
open Dpapp.Machine Dpapp.Ret Dpapp.EfdWake

/-- What the kernel makes of the attempt. -/
inductive Attempt
  | fresh
  | connecting
  | established
  | failed (errno : ℕ)
  deriving DecidableEq

/-- What connect returns: 0, or -1 with EINPROGRESS or another errno. -/
inductive Answer
  | connected
  | inProgress
  | fail (errno : ℕ)
  deriving DecidableEq

/- `doing` tells whether the operation waits; `done` is its result, with the attempt as it was then. -/
structure Skt where
  efd : Efd := {}
  attempt : Attempt := .fresh
  doing : Bool := false
  done : Option (Dpret × Attempt) := none

/-- `_dpskt_connect_prep` with an address: what it returns, and what it leaves in dpasc_out_t. -/
def connectPrep : Answer → Dpret × AscOut
  | .connected => (dpeOk,{})
  | .inProgress => (dpeContinue,⟨{.out},evtAio⟩)
  | .fail e => (-e,{})

/-- `_dpskt_connect_post` -/
def connectPost (out : AscOut) : PostRet := ⟨dpeOk,out⟩

def Skt.settle (s : Skt) (f : Efd) (r : Dpret) : Skt :=
  if r=dpeWait then {s with efd := f, doing := true}
  else {s with efd := f, doing := false, done := some (r,s.attempt)}

/-- `_dpefd_wake` for the operation. -/
def Skt.wake (s : Skt) (f : Efd) (o : AscOut) : Skt :=
  match dpefdWake f o with
  | (f,.ret r) => s.settle f r
  | (f,.post) =>
      match dpefdPosted f (connectPost ⟨f.want,∅⟩) with
      | (f,.ret r) => s.settle f r
      | (f,.post) => s.settle f dpeWait

/-- What becomes of the attempt when connect is called. -/
def Answer.attempt : Answer → Attempt
  | .connected => .established
  | .inProgress => .connecting
  | .fail e => .failed e

/-- dpevp_addv -/
def Skt.add (s : Skt) (a : Answer) : Skt :=
  let s := {s with attempt := a.attempt}
  match connectPrep a with
  | (r,o) => if r=dpeContinue then s.wake s.efd o else s.settle s.efd r

/-- `_dpefd_feed` -/
def Skt.feed (s : Skt) (evs : Evts) : Skt :=
  let f : Efd := {s.efd with able := s.efd.able∪evs}
  if f.want=∅ ∨ s.doing=false then {s with efd := f} else s.wake f ⟨f.want,∅⟩

/-- What epoll reports of a socket: nothing that an attempt waits for while it goes on, and an error or a hang-up once it
has failed. -/
def reports (evs : Evts) : Attempt → Prop
  | .fresh | .established => True
  | .connecting => .out∉evs ∧ .err∉evs ∧ .hup∉evs
  | .failed _ => .err∈evs ∨ .hup∈evs

instance (evs : Evts) : (a : Attempt) → Decidable (reports evs a)
  | .fresh | .established => .isTrue trivial
  | .connecting => inferInstanceAs (Decidable (_ ∧ _))
  | .failed _ => inferInstanceAs (Decidable (_ ∨ _))

/-- An errno of connect other than EINPROGRESS. -/
def Answer.valid : Answer → Bool
  | .connected | .inProgress => true
  | .fail e => decide (0<e ∧ e<134 ∧ e≠115)

/- `take` is another operation on the element that has used up events, and `stop` the timer or dpevp_end. -/
inductive Act
  | harvest (h : Harvest)
  | take (evs : Evts)
  | connect (addr : Bool) (a : Answer)
  | succeed
  | fail (errno : ℕ)
  | stop

def step (s : Skt) : Act → Option Skt
  | .harvest h => if reports h.bits s.attempt then some (s.feed h.bits) else none
  | .take evs => if s.doing=false then some {s with efd := {s.efd with able := s.efd.able\evs}} else none
  | .connect addr a =>
      if s.doing=false then
        -- a null pointer is refused before connect is called
        if addr=false then some s
        else if s.attempt=.fresh ∧ a.valid=true then some (s.add a) else none
      else none
  | .succeed => if s.attempt=.connecting then some {s with attempt := .established} else none
  | .fail e => if s.attempt=.connecting ∧ 0<e then some {s with attempt := .failed e} else none
  | .stop => if s.doing=true then some {s with efd := {s.efd with want := ∅}, doing := false} else none

/-! ### The result is the outcome -/

/-- EAGAIN -/
def eagain : ℕ := 11

/-- The error that the events stand for is the attempt's. -/
def tells (evs : Evts) : Attempt → Prop
  | .established => evtGetErr evs=dpeOk
  | .failed e => evtGetErr evs=-e
  | .fresh | .connecting => True

instance (evs : Evts) : (a : Attempt) → Decidable (tells evs a)
  | .established => inferInstanceAs (Decidable (evtGetErr evs=dpeOk))
  | .failed e => inferInstanceAs (Decidable (evtGetErr evs=-e))
  | .fresh => .isTrue trivial
  | .connecting => .isTrue trivial

/-- connect does not fail with EAGAIN; when it has to wait, no error or hang-up is remembered from the time before; and
what is harvested while it waits has none if the connection is established, or stands for just the error of the attempt. -/
def plain (s : Skt) : Act → Prop
  | .connect _ a => a≠.fail eagain ∧ (a=.inProgress → evtGetErr s.efd.able=dpeOk)
  | .harvest h => s.doing=true → tells h.bits s.attempt
  | .take _ | .succeed | .fail _ | .stop => True

/-- The result says what has become of the attempt. -/
def Matches (r : Dpret) : Attempt → Prop
  | .established => 0≤r
  | .failed e => r=-e
  | .fresh | .connecting => False

/-- An operation that is over has the outcome of its attempt; one that waits goes on until that is reported, and no
longer. -/
structure Sound (s : Skt) : Prop where
  result : ∀ x∈ s.done,Matches x.1 x.2
  ends : ∀ h s',s.doing=true → plain s (.harvest h) → step s (.harvest h)=some s' →
    (s'.doing=false ↔ .out∈h.bits ∨ .err∈h.bits ∨ .hup∈h.bits) ∧ (s'.doing=false → ∃ r,s'.done=some (r,s.attempt))

structure Inv (s : Skt) : Prop where
  result : ∀ x∈ s.done,Matches x.1 x.2
  tried : s.doing=true → s.attempt≠.fresh
  want : s.doing=true → s.efd.want={.out}
  unable : s.doing=true → .out∉ s.efd.able ∧ .err∉ s.efd.able ∧ .hup∉ s.efd.able

section Steps
variable {s s' : Skt} {f : Efd} {evs : Evts} {o : AscOut} {r : Dpret} {a : Act}

theorem evtGetErr_eq : evtGetErr evs=dpeOk ↔ .err∉evs ∧ .hup∉evs := by
  unfold evtGetErr
  by_cases hh : Evt.hup∈evs
  · rw [if_pos hh]
    exact iff_of_false (by decide) fun hx => hx.2 hh
  · rw [if_neg hh]
    by_cases he : Evt.err∈evs
    · rw [if_pos he]
      exact iff_of_false (by decide) fun hx => hx.1 he
    · rw [if_neg he]
      exact iff_of_true rfl ⟨he,hh⟩

theorem evtGetErr_neg (h : .err∈evs ∨ .hup∈evs) : evtGetErr evs<0 := by
  unfold evtGetErr
  split
  · decide
  · rename_i hh
    rw [if_pos (h.resolve_right hh)]
    decide

/-- What has been remembered does not matter where there was neither an error nor a hang-up. -/
theorem evtGetErr_union (h : .err∉ f.able ∧ .hup∉ f.able) : evtGetErr (f.able∪evs)=evtGetErr evs := by
  simp [evtGetErr,h.1,h.2]

/-- An operation that wants to write is over as soon as the wake loop sees an error, a hang-up or an OUT. -/
theorem wake_cases (ho : o.want={.out}) :
    (evtGetErr f.able<0 ∧ s.wake f o=s.settle ⟨f.able,∅⟩ (evtGetErr f.able)) ∨
    (¬evtGetErr f.able<0 ∧ .out∈ f.able\o.inva ∧ s.wake f o=s.settle ⟨f.able\o.inva,∅⟩ dpeOk) ∨
    (¬evtGetErr f.able<0 ∧ .out∉ f.able\o.inva ∧ s.wake f o=s.settle ⟨f.able\o.inva,{.out}⟩ dpeWait) := by
  unfold Skt.wake dpefdWake
  by_cases herr : dpretIserr (evtGetErr f.able)
  · rw [if_pos herr]
    exact .inl ⟨herr,rfl⟩
  · rw [if_neg herr]
    simp only [ho,wakeTest]
    by_cases hout : .out∈ f.able\o.inva
    · have hne : ((f.able\o.inva)∩{.out}).Nonempty := ⟨.out,Finset.mem_inter.mpr ⟨hout,Finset.mem_singleton_self _⟩⟩
      rw [if_pos hne]
      refine .inr (.inl ⟨herr,hout,?_⟩)
      simp only [dpefdPosted,connectPost,Finset.sdiff_empty]
      rw [if_neg (by decide)]
    · have hempty : ¬((f.able\o.inva)∩{.out}).Nonempty := by
        intro hne
        obtain ⟨x,hx⟩ := hne
        obtain ⟨hx,heq⟩ := Finset.mem_inter.mp hx
        rw [Finset.mem_singleton.mp heq] at hx
        exact hout hx
      rw [if_neg hempty]
      exact .inr (.inr ⟨herr,hout,rfl⟩)

theorem settle_done (hr : r≠dpeWait) : s.settle f r={s with efd := f, doing := false, done := some (r,s.attempt)} := if_neg hr

theorem inv_settle (hr : r≠dpeWait) (hm : Matches r s.attempt) : Inv (s.settle f r) := by
  rw [settle_done hr]
  exact ⟨fun x hx => by cases hx; exact hm,fun hd => (by cases hd),fun hd => (by cases hd),fun hd => by cases hd⟩

theorem inv_add {x : Answer} (h : Inv s) (hvalid : x.valid=true) (hok : plain s (.connect true x)) : Inv (s.add x) := by
  obtain ⟨hagain,hclean⟩ := hok
  cases x with
  | connected =>
    change Inv (Skt.settle {s with attempt := .established} s.efd dpeOk)
    exact inv_settle (by decide) (Int.le_refl 0)
  | fail e =>
    have he : 0<e ∧ e<134 ∧ e≠115 := of_decide_eq_true hvalid
    have hcont : (-(e : ℤ))≠dpeContinue := fun hx => by
      have : (-(e : ℤ))= -190 := hx
      omega
    have hwait : (-(e : ℤ))≠dpeWait := fun hx => by
      have : (-(e : ℤ))= -11 := hx
      exact hagain (congrArg Answer.fail (by unfold eagain; omega))
    unfold Skt.add connectPrep
    simp only
    rw [if_neg hcont]
    exact inv_settle hwait rfl
  | inProgress =>
    have hno := evtGetErr_eq.mp (hclean rfl)
    have hgone : .out∉ s.efd.able\evtAio := fun hx => (Finset.mem_sdiff.mp hx).2 (by decide)
    unfold Skt.add connectPrep
    simp only
    rw [if_pos trivial]
    rcases @wake_cases {s with attempt := .connecting} s.efd ⟨{.out},evtAio⟩ rfl with ⟨herr,-⟩ | ⟨-,hout,-⟩ | ⟨-,hout,heq⟩
    · rw [hclean rfl] at herr
      exact absurd herr (by decide)
    · exact absurd hout hgone
    · change Inv (Skt.wake {s with attempt := .connecting} s.efd ⟨{.out},evtAio⟩)
      rw [heq,Skt.settle,if_pos rfl]
      exact ⟨h.result,fun _ => Attempt.noConfusion,fun _ => rfl,fun _ => ⟨hout,fun hx => hno.1 (Finset.mem_sdiff.mp hx).1,
        fun hx => hno.2 (Finset.mem_sdiff.mp hx).1⟩⟩

/-- Events that are reported while the operation waits. -/
theorem inv_feed (h : Inv s) (hd : s.doing=true) (hreports : reports evs s.attempt) (hok : tells evs s.attempt) :
    Inv (s.feed evs) ∧ ((s.feed evs).doing=false ↔ .out∈evs ∨ .err∈evs ∨ .hup∈evs) ∧
      ((s.feed evs).doing=false → ∃ r,(s.feed evs).done=some (r,s.attempt)) := by
  obtain ⟨hnout,hnerr,hnhup⟩ := h.unable hd
  have hwant := h.want hd
  have hfresh := h.tried hd
  have hunion : evtGetErr (s.efd.able∪evs)=evtGetErr evs := evtGetErr_union ⟨hnerr,hnhup⟩
  have hout : .out∈ s.efd.able∪evs ↔ .out∈evs := by rw [Finset.mem_union,or_iff_right hnout]
  have hrun : s.feed evs=s.wake ⟨s.efd.able∪evs,{.out}⟩ ⟨{.out},∅⟩ := by
    unfold Skt.feed
    simp only [hwant,hd]
    rw [if_neg (by simp)]
  rw [hrun]
  rcases @wake_cases s ⟨s.efd.able∪evs,{.out}⟩ ⟨{.out},∅⟩ rfl with ⟨herr,heq⟩ | ⟨herr,hin,heq⟩ | ⟨herr,hin,heq⟩
  · rw [hunion] at herr heq
    have hwait : evtGetErr evs≠dpeWait := by
      unfold evtGetErr
      split
      · decide
      · split <;> decide
    have hbits : .err∈evs ∨ .hup∈evs := by
      by_contra hno
      rw [evtGetErr_eq.mpr (not_or.mp hno)] at herr
      exact absurd herr (by decide)
    rw [heq]
    refine ⟨inv_settle hwait ?_,iff_of_true (by rw [settle_done hwait]) (.inr hbits),
      fun _ => ⟨_,by rw [settle_done hwait]⟩⟩
    cases hatt : s.attempt with
    | fresh => exact absurd hatt hfresh
    | connecting =>
      rw [hatt] at hreports
      exact hbits.elim hreports.2.1 hreports.2.2
    | established =>
      rw [hatt] at hok
      rw [hok] at herr
      exact absurd herr (by decide)
    | failed e =>
      rw [hatt] at hok
      exact hok
  · rw [hunion] at herr
    rw [Finset.sdiff_empty] at hin
    have hin := hout.mp hin
    rw [heq]
    refine ⟨inv_settle (by decide) ?_,iff_of_true (by rw [settle_done (by decide)]) (.inl hin),
      fun _ => ⟨_,by rw [settle_done (by decide)]⟩⟩
    cases hatt : s.attempt with
    | fresh => exact absurd hatt hfresh
    | connecting =>
      rw [hatt] at hreports
      exact hreports.1 hin
    | established => exact Int.le_refl 0
    | failed e =>
      rw [hatt] at hreports
      exact absurd (evtGetErr_neg hreports) herr
  · rw [hunion] at herr
    rw [Finset.sdiff_empty] at hin heq
    have hnone : .err∉evs ∧ .hup∉evs := by
      constructor
      · exact fun hx => herr (evtGetErr_neg (.inl hx))
      · exact fun hx => herr (evtGetErr_neg (.inr hx))
    have hstay : s.settle ⟨s.efd.able∪evs,{.out}⟩ dpeWait={s with efd := ⟨s.efd.able∪evs,{.out}⟩, doing := true} := if_pos rfl
    rw [heq,hstay]
    refine ⟨⟨h.result,fun _ => hfresh,fun _ => rfl,fun _ => ⟨hin,?_,?_⟩⟩,iff_of_false Bool.noConfusion ?_,fun hx => by cases hx⟩
    · exact fun hx => (Finset.mem_union.mp hx).elim hnerr hnone.1
    · exact fun hx => (Finset.mem_union.mp hx).elim hnhup hnone.2
    · exact fun hx => hx.elim (fun hx => hin (hout.mpr hx)) fun hx => hx.elim hnone.1 hnone.2

theorem inv_idle {t : Skt} (h : Inv s) (hd : t.doing=false) (hr : t.done=s.done) : Inv t := by
  have hnot : t.doing≠true := by
    rw [hd]
    exact Bool.noConfusion
  exact ⟨fun x hx => h.result x (hr ▸ hx),fun hx => absurd hx hnot,fun hx => absurd hx hnot,fun hx => absurd hx hnot⟩

theorem step_inv (h : Inv s) (hok : plain s a) (hu : step s a=some s') : Inv s' := by
  cases a with
  | harvest x =>
    obtain ⟨hreports,hu⟩ := Option.ite_none_right_eq_some.mp hu
    cases hu
    cases hd : s.doing with
    | true => exact (inv_feed h hd hreports (hok hd)).1
    | false =>
      have hrun : s.feed x.bits={s with efd := {s.efd with able := s.efd.able∪x.bits}} := if_pos (.inr hd)
      rw [hrun]
      exact inv_idle h hd rfl
  | take evs =>
    obtain ⟨hd,hu⟩ := Option.ite_none_right_eq_some.mp hu
    cases hu
    exact inv_idle h hd rfl
  | connect addr x =>
    obtain ⟨hd,hu⟩ := Option.ite_none_right_eq_some.mp hu
    split at hu
    · cases hu
      exact h
    · obtain ⟨hx,hu⟩ := Option.ite_none_right_eq_some.mp hu
      cases hu
      exact inv_add h hx.2 hok
  | succeed =>
    obtain ⟨-,hu⟩ := Option.ite_none_right_eq_some.mp hu
    cases hu
    exact ⟨h.result,fun _ => Attempt.noConfusion,h.want,h.unable⟩
  | fail e =>
    obtain ⟨-,hu⟩ := Option.ite_none_right_eq_some.mp hu
    cases hu
    exact ⟨h.result,fun _ => Attempt.noConfusion,h.want,h.unable⟩
  | stop =>
    obtain ⟨-,hu⟩ := Option.ite_none_right_eq_some.mp hu
    cases hu
    exact inv_idle h rfl rfl

theorem connect_right (h : Reach step plain {} s) : Sound s := by
  have hstart : Inv {} := ⟨fun _ hx => (by cases hx),fun hd => (by cases hd),fun hd => (by cases hd),fun hd => by cases hd⟩
  have hinv : Inv s := h.invariant hstart fun _ _ _ hi hok hu => step_inv hi hok hu
  refine ⟨hinv.result,fun x s' hd hok hu => ?_⟩
  obtain ⟨hreports,hu⟩ := Option.ite_none_right_eq_some.mp hu
  cases hu
  exact (inv_feed hinv hd hreports (hok hd)).2

end Steps

instance (s : Skt) : (a : Act) → Decidable (plain s a)
  | .connect _ a => inferInstanceAs (Decidable (a≠.fail eagain ∧ (a=.inProgress → evtGetErr s.efd.able=dpeOk)))
  | .harvest h => inferInstanceAs (Decidable (s.doing=true → tells h.bits s.attempt))
  | .take _ => .isTrue trivial
  | .succeed => .isTrue trivial
  | .fail _ => .isTrue trivial
  | .stop => .isTrue trivial

/-- Events of the time before are only an OUT; the attempt takes a while, and succeeds. -/
def waiting : List Act :=
  [.harvest ⟨{.out},false⟩,.connect true .inProgress,.harvest ⟨∅,false⟩,.succeed,.harvest ⟨{.out},false⟩]

theorem connect_right_waiting : ∃ s : Skt,s.done=some (0,.established) ∧ Sound s := by
  have hrun : ((execOk step plain {} waiting).any fun s => decide (s.done=some (0,.established)))=true := by decide +kernel
  obtain ⟨s,hs,hr⟩ := (Option.any_eq_true _ _).mp hrun
  exact ⟨s,of_decide_eq_true hr,connect_right (execOk_reach hs)⟩

/-- The hang-up of a socket that is not connected is harvested before the attempt. -/
def hungUp : List Act := [.harvest ⟨{.out,.hup},false⟩,.connect true .inProgress]

/-- The operation is over while the attempt goes on. -/
theorem connect_hung_up : ¬∀ s,Reach step anyStep {} s → Sound s := by
  intro hall
  have hrun : ((exec step {} hungUp).any fun s => decide (s.done=some (dpeConnreset,.connecting)))=true := by decide +kernel
  obtain ⟨s,hs,hr⟩ := (Option.any_eq_true _ _).mp hrun
  exact (hall s (exec_reach hs)).result _ (of_decide_eq_true hr)

end Dpapp.SktConnect
