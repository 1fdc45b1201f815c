import Dpapp.EfdWake

/-! # Operations of an EFD (dpasc.h, os/linux/dpevp_epoll.c)

One element and its operation: what dpevp_addv and `_dpefd_feed` do through `_dpefd_wake`, with the calls of the post
function one by one. A post function is left to the caller: `δ` is its data, `μ` its local variables between two calls,
and `γ` what a call answers. -/

namespace Dpapp.EfdIo
open Dpapp.Ret Dpapp.EfdWake

variable {δ μ γ : Type*}

/-- What a post function does with an answer: it calls again, or returns. -/
inductive Next (δ μ : Type*)
  | call (d : δ) (m : μ)
  | ret (d : δ) (p : PostRet)

/-- A post function up to its first call, and from one call to the next; it can read the events it is called for. -/
structure Post (δ μ γ : Type*) where
  enter : δ → μ
  turn : Evts → δ → μ → γ → Next δ μ

/-- The pending operation, and the local variables of its post function while it runs. -/
structure Pend (δ μ : Type*) where
  data : δ
  run : Option μ := none

structure Fd (δ μ : Type*) where
  efd : Efd := {}
  pend : Option (Pend δ μ) := none

/-- The rest of `_dpefd_wake`: the operation goes on, or it ends with a result. -/
def turned (post : Post δ μ γ) (d : δ) (x : Efd × Turn) : Fd δ μ × Option Dpret :=
  match x.2 with
  | .ret r => if r=dpeWait then (⟨x.1,some ⟨d,none⟩⟩,none) else (⟨x.1,none⟩,some r)
  | .post => (⟨x.1,some ⟨d,some (post.enter d)⟩⟩,none)

/-- dpevp_addv once the prep function has returned DPE_CONTINUE. -/
def Fd.add (post : Post δ μ γ) (f : Fd δ μ) (d : δ) (o : AscOut) : Fd δ μ × Option Dpret :=
  turned post d (dpefdWake f.efd o)

/-- The post function goes on. -/
def Fd.next (post : Post δ μ γ) (f : Fd δ μ) : Next δ μ → Fd δ μ × Option Dpret
  | .call d m => (⟨f.efd,some ⟨d,some m⟩⟩,none)
  | .ret d p => turned post d (dpefdPosted f.efd p)

def Fd.feedBits (f : Fd δ μ) (evs : Evts) : Efd := {f.efd with able := f.efd.able∪evs}

/-- `_dpefd_feed`, which only dpevp_pop calls. -/
def Fd.feed (post : Post δ μ γ) (f : Fd δ μ) (evs : Evts) : Option (Fd δ μ × Option Dpret) :=
  match f.pend with
  | none => some (⟨f.feedBits evs,none⟩,none)
  | some ⟨d,none⟩ =>
      if f.efd.want=∅ then some (⟨f.feedBits evs,some ⟨d,none⟩⟩,none)
      else some (turned post d (dpefdWake (f.feedBits evs) ⟨f.efd.want,∅⟩))
  | some ⟨_,some _⟩ => none

/-- The timer or dpevp_end ends an operation that waits. -/
def Fd.stop (f : Fd δ μ) : Fd δ μ := ⟨{f.efd with want := ∅},none⟩

section Turns
variable {post : Post δ μ γ} {f : Fd δ μ} {d : δ} {x : Efd × Turn} {evs : Evts}

theorem turned_efd : (turned post d x).1.efd=x.1 := by
  unfold turned
  split
  · split <;> rfl
  · rfl

/-- The wake loop waits, has called the post function, or has ended the operation. -/
theorem turned_cases (post : Post δ μ γ) (d : δ) (x : Efd × Turn) :
    (x.2=.ret dpeWait ∧ turned post d x=(⟨x.1,some ⟨d,none⟩⟩,none)) ∨
    (x.2=.post ∧ turned post d x=(⟨x.1,some ⟨d,some (post.enter d)⟩⟩,none)) ∨
    ∃ r,x.2=.ret r ∧ r≠dpeWait ∧ turned post d x=(⟨x.1,none⟩,some r) := by
  unfold turned
  cases hx : x.2 with
  | ret r =>
    by_cases hr : r=dpeWait
    · subst hr
      exact .inl ⟨rfl,if_pos rfl⟩
    · exact .inr (.inr ⟨r,rfl,hr,if_neg hr⟩)
  | post => exact .inr (.inl ⟨rfl,rfl⟩)

/-- What an event does to an operation that waits. -/
theorem feed_cases {y : Fd δ μ × Option Dpret} (h : f.feed post evs=some y) :
    (f.pend=none ∧ y=(⟨f.feedBits evs,none⟩,none)) ∨
    ∃ d,f.pend=some ⟨d,none⟩ ∧ (y=(⟨f.feedBits evs,some ⟨d,none⟩⟩,none) ∨
      y=turned post d (dpefdWake (f.feedBits evs) ⟨f.efd.want,∅⟩)) := by
  unfold Fd.feed at h
  split at h
  · rename_i hp
    exact .inl ⟨hp,(Option.some.inj h).symm⟩
  · rename_i d hp
    refine .inr ⟨d,hp,?_⟩
    split at h
    · exact .inl (Option.some.inj h).symm
    · exact .inr (Option.some.inj h).symm
  · cases h

end Turns

end Dpapp.EfdIo
