import Dpapp.Ret
import Mathlib

/-! # Events of an EFD and the wake loop (dpdef.h, os/linux/dpevp_epoll.c)

`able` are the events the kernel has reported and no operation has used up,
`want` those the pending operation waits for. -/

namespace Dpapp.EfdWake
open Dpapp.Ret

/-- The bits of DPEVT_ALL. -/
inductive Evt | inp | pri | out | err | hup
  deriving DecidableEq, Repr

abbrev Evts := Finset Evt

def evtAin : Evts := {.inp,.pri}
def evtAio : Evts := {.inp,.out,.pri}

/-- DPEVT_GET_ERR -/
def evtGetErr (evs : Evts) : Dpret :=
  if .hup∈evs then dpeConnreset else if .err∈evs then dpeBadfd else dpeOk

/-- What epoll_wait reports for an fd: the five common bits and EPOLLRDHUP. -/
structure Harvest where
  evs : Evts
  rdhup : Bool
  deriving DecidableEq

/-- The bits that reach `able_events`. -/
def Harvest.bits (h : Harvest) : Evts := if h.rdhup then insert .hup h.evs else h.evs

structure Efd where
  able : Evts := ∅
  want : Evts := ∅
  deriving DecidableEq

/-- The event fields of dpasc_out_t. -/
structure AscOut where
  want : Evts := ∅
  inva : Evts := ∅
  deriving DecidableEq

/-- A post function's return value, and the event fields as it leaves them. -/
structure PostRet where
  ret : Dpret
  out : AscOut

/-- What `_dpefd_wake` does next: return, or call the post function. -/
inductive Turn
  | ret (r : Dpret)
  | post
  deriving DecidableEq

def wakeTest (f : Efd) : Turn := if (f.able∩f.want).Nonempty then .post else .ret dpeWait

/-- `_dpefd_wake` up to its loop. -/
def dpefdWake (f : Efd) (o : AscOut) : Efd × Turn :=
  if dpretIserr (evtGetErr f.able) then ({f with want := ∅},.ret (evtGetErr f.able))
  else
    let f : Efd := ⟨f.able\o.inva,o.want⟩
    (f,wakeTest f)

/-- The rest of a turn of its loop, once the post function has returned. -/
def dpefdPosted (f : Efd) (p : PostRet) : Efd × Turn :=
  let f : Efd := {f with able := f.able\p.out.inva}
  if p.ret=dpeWait then
    let f : Efd := if p.out.want.Nonempty then {f with want := p.out.want} else f
    (f,wakeTest f)
  else ({f with want := ∅},.ret p.ret)

theorem wakeTest_ret {f : Efd} {r : Dpret} (h : wakeTest f=.ret r) : r=dpeWait ∧ f.able∩f.want=∅ := by
  unfold wakeTest at h
  split at h
  · cases h
  · cases h
    exact ⟨rfl,Finset.not_nonempty_iff_eq_empty.mp ‹_›⟩

/-- Left waiting, an EFD wants none of the events it has. -/
theorem dpefdWake_ret {f : Efd} {o : AscOut} {r : Dpret} (h : (dpefdWake f o).2=.ret r) :
    (dpefdWake f o).1.able∩(dpefdWake f o).1.want=∅ ∧
    (r≠dpeWait → (dpefdWake f o).1.want=∅ ∧ dpretIserr r ∧ r=evtGetErr f.able) := by
  unfold dpefdWake at h ⊢
  split at h
  · rename_i he
    cases h
    simp only [if_pos he]
    exact ⟨by simp,fun _ => ⟨trivial,he,trivial⟩⟩
  · rename_i he
    obtain ⟨hr,hd⟩ := wakeTest_ret h
    simp only [if_neg he]
    exact ⟨hd,fun hne => (hne hr).elim⟩

theorem dpefdPosted_ret {f : Efd} {p : PostRet} {r : Dpret} (h : (dpefdPosted f p).2=.ret r) :
    r=p.ret ∧ (dpefdPosted f p).1.able∩(dpefdPosted f p).1.want=∅ ∧ (r≠dpeWait → (dpefdPosted f p).1.want=∅) := by
  unfold dpefdPosted at h ⊢
  split at h
  · rename_i hp
    obtain ⟨hr,hd⟩ := wakeTest_ret h
    simp only [if_pos hp]
    exact ⟨hr.trans hp.symm,hd,fun hne => (hne hr).elim⟩
  · rename_i hp
    cases h
    simp only [if_neg hp]
    exact ⟨trivial,by simp,fun _ => trivial⟩

theorem dpefdWake_able {f : Efd} {o : AscOut} : (dpefdWake f o).1.able⊆f.able := by
  unfold dpefdWake
  split
  · exact subset_rfl
  · exact Finset.sdiff_subset

theorem dpefdPosted_able {f : Efd} {p : PostRet} : (dpefdPosted f p).1.able⊆f.able := by
  unfold dpefdPosted
  split
  · split <;> exact Finset.sdiff_subset
  · exact Finset.sdiff_subset

end Dpapp.EfdWake
