import Dpapp.CtcKqueue
import Mathlib.Data.List.Nodup

/-! # The timers of the kqueue back end (os/bsd/dpevp_kqueue.c)

A timer is an EVFILT_TIMER event of its element, which kevent() reports once, in the same array as the other events. -/

set_option linter.unusedSectionVars false

namespace Dpapp.KqTmr
open Dpapp.Machine
open Dpapp.CtcKqueue (Pc dpevpReapLimit)

/-- A timer as the kernel has it; `op` is the number of the operation that it has been registered for. -/
structure Ticket (κ : Type*) where
  ele : κ
  op : ℕ
  due : ℕ
  deriving DecidableEq

/-- What kevent() reports: a timer, or a read, a write or a signal of an EFD. -/
inductive Ev (κ : Type*)
  | timer (t : Ticket κ)
  | other (k : κ)
  deriving DecidableEq

/-- `tmr` is tmr_spec->after in ticks of the clock, `op` is asc_type, by the number of the operation; `doomed` is what has no
reference left. -/
structure Ele where
  tmr : Option ℤ := none
  op : Option ℕ := none
  isTiming : Bool := false
  isDetach : Bool := false
  doomed : Bool := false
  freed : Bool := false

/-- What has become of a timer. It has fired, while the operation `cur` went on; EV_DELETE has found it, or another EV_ADD; or
kevent() has written over its event, after so many elements from this array, and whether one of them was not returned. -/
inductive End
  | fired (cur : Option ℕ) (now : ℕ)
  | dropped
  | replaced
  | lost (popLimit : ℕ) (skipped : Bool)
  deriving DecidableEq

/- `evs` is the part of the array that has not been walked. History: `missed` are the timers that were to be dropped while
their event was in the array, and `stray` those that were registered when their operation ended. -/
structure Kq (κ : Type*) where
  ele : κ → Ele := fun _ => {}
  now : ℕ := 0
  knotes : List (Ticket κ) := []
  evs : List (Ev κ) := []
  ready : List κ := []
  pc : Pc := .out
  popLimit : ℕ := 0
  skipped : Bool := false
  next : ℕ := 0
  armed : List (Ticket κ) := []
  ended : List (Ticket κ × End) := []
  missed : List (Ticket κ) := []
  stray : List (Ticket κ) := []

variable {κ : Type*} [DecidableEq κ]

def Ev.ticket? : Ev κ → Option (Ticket κ)
  | .timer t => some t
  | .other _ => none

def tickets (evs : List (Ev κ)) : List (Ticket κ) := evs.filterMap Ev.ticket?

def Kq.setEle (s : Kq κ) (k : κ) (e : Ele) : Kq κ := {s with ele := Function.update s.ele k e}

/-- The timer that the kernel has for this element becomes something else. -/
def Kq.retire (s : Kq κ) (k : κ) (e : End) : Kq κ :=
  {s with
    knotes := s.knotes.filter (·.ele≠k)
    ended := s.ended++(s.knotes.filter (·.ele=k)).map (·,e)}

/-- EV_ADD with EV_ONESHOT -/
def Kq.register (s : Kq κ) (t : Ticket κ) : Kq κ :=
  let s := (s.retire t.ele .replaced).setEle t.ele {s.ele t.ele with isTiming := true}
  {s with knotes := s.knotes++[t], armed := s.armed++[t]}

/-- `_dpevp_watch_tmr`, with a tick at least; `ok` tells whether kevent() succeeds. -/
def dpevpWatchTmr (s : Kq κ) (k : κ) (ok : Bool) : Kq κ :=
  match (s.ele k).tmr,(s.ele k).op with
  | some after,some op => if 0≤after ∧ ok=true then s.register ⟨k,op,s.now+max 1 after.toNat⟩ else s
  | _,_ => s

/-- `_dpevp_unwatch_tmr` -/
def dpevpUnwatchTmr (s : Kq κ) (k : κ) : Kq κ :=
  if (s.ele k).isTiming=true then
    {(s.retire k .dropped).setEle k {s.ele k with isTiming := false} with
      missed := s.missed++(tickets s.evs).filter (·.ele=k)}
  else s

/-- `_dpele_asc_over`, which deletes an element without references, and whether dpevp_pop returns the element. -/
def dpeleAscOver (s : Kq κ) (k : κ) : Kq κ × Bool :=
  ({s.setEle k {s.ele k with op := none, freed := (s.ele k).doomed} with
    stray := s.stray++s.knotes.filter (·.ele=k)},!(s.ele k).doomed && !(s.ele k).isDetach)

/-- `_dpele_deque_push_back` -/
def Kq.pushReady (s : Kq κ) (k : κ) : Kq κ := if k∈s.ready then s else {s with ready := s.ready++[k]}

/-- The end of a turn of DPEVP_REAP_ELE, for an element that is not an EFD. -/
def Kq.reaped (x : Kq κ × Bool) : Kq κ := if x.2 then {x.1 with pc := .out, popLimit := x.1.popLimit+1} else x.1

/- `done` is an operation that is over when it begins, `fin` tells whether the event, or the CTC's return, ends one. -/
inductive Act (κ : Type*)
  | clock (d : ℕ)
  | setTimeout (k : κ) (after : ℤ)
  | setDetach (k : κ) (b : Bool)
  | add (k : κ) (done ok : Bool)
  | end_ (k : κ)
  | del (k : κ)
  | pop
  | reapEfd (fin : Bool)
  | reapUsd
  | reapCtc (k : κ) (fin : Bool)
  | reapTmr
  | next
  | kevent (evs : List (Ev κ))

/-- kevent() may report the timers whose time has come, once each, and any other events. -/
def reported (s : Kq κ) (evs : List (Ev κ)) : Prop :=
  (tickets evs).Nodup ∧ ∀ t∈tickets evs,t∈s.knotes ∧ t.due≤ s.now

instance (s : Kq κ) (evs : List (Ev κ)) : Decidable (reported s evs) := inferInstanceAs (Decidable (_ ∧ _))

/-- The array goes on with an event that is not a timer. -/
def otherFirst : List (Ev κ) → Bool
  | .other _::_ => true
  | _ => false

def timerFirst : List (Ev κ) → Bool
  | .timer _::_ => true
  | _ => false

/-- `ctc` tells which elements are CTCs. There is no step with an event of an element that has been freed. -/
def step (ctc : κ → Bool) (s : Kq κ) : Act κ → Option (Kq κ)
  | .clock d => some {s with now := s.now+d}
  | .setTimeout k after =>
      if s.pc=.out ∧ (s.ele k).freed=false then
        some (if ctc k ∨ (s.ele k).tmr=none ∧ after<0 then s else s.setEle k {s.ele k with tmr := some after})
      else none
  | .setDetach k b =>
      if s.pc=.out ∧ (s.ele k).freed=false then
        some (if (s.ele k).op=none then s.setEle k {s.ele k with isDetach := b} else s)
      else none
  | .add k done ok =>
      if s.pc=.out ∧ (s.ele k).freed=false ∧ (s.ele k).op=none ∧ (ctc k=true → done=false) then
        let s := {s.setEle k {s.ele k with op := some s.next} with next := s.next+1}
        some (if done then s.pushReady k else dpevpWatchTmr s k ok)
      else none
  | .end_ k =>
      if s.pc=.out ∧ (s.ele k).freed=false then
        if (s.ele k).op=none then some s
        else some (if ctc k then dpevpUnwatchTmr s k else (dpevpUnwatchTmr s k).pushReady k)
      else none
  | .del k =>
      if s.pc=.out ∧ (s.ele k).freed=false ∧ (s.ele k).doomed=false then
        some (s.setEle k {s.ele k with doomed := true, freed := (s.ele k).op.isNone})
      else none
  | .pop => if s.pc=.out then some {s with pc := .efd, skipped := false} else none
  | .reapEfd fin =>
      match s.evs with
      | .other k::evs =>
          if s.pc=.efd ∧ (s.ele k).freed=false then
            let s := {s with evs := evs}
            if fin=false then some s
            else if ctc k=false ∧ (s.ele k).op≠none ∧ k∉s.ready then
              let x := dpeleAscOver (dpevpUnwatchTmr s k) k
              some (if x.2 then {x.1 with pc := .out} else x.1)
            else none
          else none
      | _ => none
  | .reapUsd =>
      match s.ready with
      | k::ready => if s.pc=.usd then some (Kq.reaped (dpeleAscOver {s with ready := ready} k)) else none
      | [] => none
  | .reapCtc k fin =>
      if s.pc=.ctc ∧ ctc k=true ∧ (s.ele k).op≠none then
        some (Kq.reaped (if fin then dpeleAscOver (dpevpUnwatchTmr s k) k else (s,true)))
      else none
  | .reapTmr =>
      match s.evs with
      | .timer t::evs =>
          if s.pc=.tmr ∧ (s.ele t.ele).freed=false then
            let s := {s.setEle t.ele {s.ele t.ele with isTiming := false} with
              evs := evs, ended := s.ended++[(t,.fired (s.ele t.ele).op s.now)]}
            if ctc t.ele then some {s with skipped := true}
            else
              let x := dpeleAscOver s t.ele
              some (if x.2 then Kq.reaped x else {x.1 with skipped := true})
          else none
      | _ => none
  -- a reap function has returned NULL
  | .next =>
      match s.pc with
      | .efd => if otherFirst s.evs then none else some {s with pc := if s.popLimit<dpevpReapLimit then .usd else .poll}
      | .usd => if s.ready=[] then some {s with pc := .ctc} else none
      | .ctc => some {s with pc := .tmr}
      | .tmr => if timerFirst s.evs then none else some {s with pc := .poll}
      | .out | .poll => none
  | .kevent evs =>
      if s.pc=.poll ∧ reported s evs then
        some {s with
          pc := .out
          popLimit := 0
          evs := evs
          knotes := s.knotes.filter (·∉tickets evs)
          ended := s.ended++(tickets s.evs).map (·,.lost s.popLimit s.skipped)}
      else none

/-! ### The invariant -/

/-- A timer that was to be dropped too late, or that another one has left behind. -/
def Astray (s : Kq κ) (t : Ticket κ) : Prop := t∈s.missed ∨ t∈s.stray

structure Inv (ctc : κ → Bool) (s : Kq κ) : Prop where
  books : s.armed.Perm (s.knotes++tickets s.evs++s.ended.map Prod.fst)
  once : (s.armed.map (·.op)).Nodup
  bound : ∀ t∈s.armed,t.op<s.next
  knotes : (s.knotes.map (·.ele)).Nodup
  batch : ((tickets s.evs).map (·.ele)).Nodup
  due : ∀ t∈tickets s.evs,t.due≤ s.now
  inTime : ∀ t cur now,(t,.fired cur now)∈s.ended → t.due≤now
  mine : ∀ t∈s.knotes++tickets s.evs,Astray s t ∨ (s.ele t.ele).op=some t.op ∧ (s.ele t.ele).isTiming=true
  right : ∀ t cur now,(t,.fired cur now)∈s.ended → cur=some t.op ∨ Astray s t
  clean : s.missed=[] → s.stray=[]
  owed : ∀ k,(s.ele k).isTiming=true → ∃ t,t.ele=k ∧ (s.ele k).op=some t.op ∧
    (t∈s.knotes ∨ t∈tickets s.evs ∨ ∃ n b,(t,.lost n b)∈s.ended)
  lost : ∀ t n b,(t,.lost n b)∈s.ended → dpevpReapLimit≤n ∨ b=true
  freed : ∀ k,(s.ele k).freed=true → (s.ele k).op=none
  queue : s.ready.Nodup ∧ ∀ k∈s.ready,ctc k=false ∧ (s.ele k).op≠none ∧ (s.ele k).isTiming=false
  ctcs : ∀ k,ctc k=true → (s.ele k).tmr=none ∧ (s.ele k).isTiming=false ∧ ∀ t∈s.armed,t.ele≠k

/-- What the reap functions have left of the array. -/
def Walk (s : Kq κ) : Prop :=
  match s.pc with
  | .out | .efd => True
  | .usd => otherFirst s.evs=false
  | .ctc => otherFirst s.evs=false ∧ s.ready=[]
  | .tmr => (otherFirst s.evs=false ∨ s.skipped=true) ∧ s.ready=[]
  | .poll => tickets s.evs=[] ∨ dpevpReapLimit≤ s.popLimit ∨ s.skipped=true

section Steps
variable {ctc : κ → Bool} {s s' : Kq κ} {k j : κ} {e : Ele} {t : Ticket κ} {evs : List (Ev κ)} {xs ys : List (Ticket κ)}

theorem setEle_self : (s.setEle k e).ele k=e := Function.update_self ..
theorem setEle_ne (h : j≠k) : (s.setEle k e).ele j=s.ele j := Function.update_of_ne h ..

theorem split_perm (k : κ) (xs : List (Ticket κ)) : (xs.filter (·.ele≠k)++xs.filter (·.ele=k)).Perm xs := by
  have h := List.filter_append_perm (fun t : Ticket κ => decide (t.ele≠k)) xs
  simpa using h

theorem map_fst (xs : List (Ticket κ)) (e : End) : (xs.map (·,e)).map Prod.fst=xs := by simp [Function.comp_def]

theorem mem_ended {zs : List (Ticket κ × End)} {c d : End} (h : (t,c)∈zs++xs.map (·,d)) : (t,c)∈zs ∨ t∈xs ∧ c=d := by
  rcases List.mem_append.mp h with h | h
  · exact .inl h
  · obtain ⟨u,hu,heq⟩ := List.mem_map.mp h
    cases heq
    exact .inr ⟨hu,rfl⟩

theorem mem_armed (h : Inv ctc s) (ht : t∈s.knotes++tickets s.evs) : t∈s.armed :=
  h.books.mem_iff.mpr (List.mem_append_left _ ht)

/-- Two timers of one operation are one. -/
theorem op_inj (h : Inv ctc s) {u : Ticket κ} (ht : t∈s.armed) (hu : u∈s.armed) (hop : t.op=u.op) : t=u :=
  List.inj_on_of_nodup_map h.once ht hu hop

theorem not_timing (h : Inv ctc s) (hop : (s.ele k).op=none) : (s.ele k).isTiming=false := by
  by_contra hc
  obtain ⟨t,-,hop',-⟩ := h.owed k (by simpa using hc)
  rw [hop] at hop'
  cases hop'

/-- The timers of an element that is not timing. -/
theorem astray_of (h : Inv ctc s) (htim : (s.ele k).isTiming=false) (ht : t∈s.knotes++tickets s.evs) (hk : t.ele=k) :
    Astray s t := by
  refine (h.mine t ht).resolve_right fun hr => ?_
  rw [hk,htim] at hr
  cases hr.2

/-! ### The parts of a step -/

theorem inv_pc (h : Inv ctc s) (pc : Pc) (n : ℕ) (b : Bool) : Inv ctc {s with pc := pc, popLimit := n, skipped := b} :=
  ⟨h.books,h.once,h.bound,h.knotes,h.batch,h.due,h.inTime,h.mine,h.right,h.clean,h.owed,h.lost,h.freed,h.queue,h.ctcs⟩

theorem inv_clock (h : Inv ctc s) (d : ℕ) : Inv ctc {s with now := s.now+d} :=
  {h with due := fun t ht => (h.due t ht).trans (Nat.le_add_right _ _)}

/-- An event that is not a timer. -/
theorem inv_evs (h : Inv ctc s) (hevs : tickets s.evs=tickets evs) : Inv ctc {s with evs := evs} := by
  obtain ⟨hbooks,honce,hbound,hknotes,hbatch,hdue,hinTime,hmine,hright,hclean,howed,hlost,hfreed,hqueue,hctcs⟩ := h
  rw [hevs] at hbooks hbatch hdue hmine
  exact ⟨hbooks,honce,hbound,hknotes,hbatch,hdue,hinTime,hmine,hright,hclean,hevs ▸ howed,hlost,hfreed,hqueue,hctcs⟩

theorem inv_edit (h : Inv ctc s) (hop : e.op=(s.ele k).op) (htim : e.isTiming=(s.ele k).isTiming)
    (htmr : ctc k=true → e.tmr=none) (hfreed : e.freed=true → e.op=none) : Inv ctc (s.setEle k e) := by
  have hsame : ∀ j,((s.setEle k e).ele j).op=(s.ele j).op ∧ ((s.setEle k e).ele j).isTiming=(s.ele j).isTiming := by
    intro j
    by_cases hj : j=k
    · rw [hj,setEle_self]
      exact ⟨hop,htim⟩
    · rw [setEle_ne hj]
      exact ⟨rfl,rfl⟩
  refine {h with
    mine := fun t ht => ?_, owed := fun j hj => ?_, freed := fun j hj => ?_, queue := ⟨h.queue.1,fun j hj => ?_⟩,
    ctcs := fun j hj => ⟨?_,?_,(h.ctcs j hj).2.2⟩}
  · rw [(hsame _).1,(hsame _).2]
    exact h.mine t ht
  · rw [(hsame _).2] at hj
    rw [(hsame _).1]
    exact h.owed j hj
  · by_cases hjk : j=k
    · rw [hjk,setEle_self] at hj ⊢
      exact hfreed hj
    · rw [setEle_ne hjk] at hj ⊢
      exact h.freed j hj
  · rw [(hsame _).1,(hsame _).2]
    exact h.queue.2 j hj
  · by_cases hjk : j=k
    · rw [hjk,setEle_self]
      exact htmr (hjk ▸ hj)
    · rw [setEle_ne hjk]
      exact (h.ctcs j hj).1
  · rw [(hsame _).2]
    exact (h.ctcs j hj).2.1

theorem inv_begin (h : Inv ctc s) (hop : (s.ele k).op=none) (hlive : (s.ele k).freed=false) :
    Inv ctc {s.setEle k {s.ele k with op := some s.next} with next := s.next+1} := by
  have htim := not_timing h hop
  have hready : k∉s.ready := fun hk => (h.queue.2 k hk).2.1 hop
  refine {h with
    bound := fun t ht => (h.bound t ht).trans (Nat.lt_succ_self _), mine := fun t ht => ?_, owed := fun j hj => ?_,
    freed := fun j hj => ?_, queue := ⟨h.queue.1,fun j hj => ?_⟩, ctcs := fun j hj => ?_}
  · by_cases hk : t.ele=k
    · exact .inl (show Astray s t from astray_of h htim ht hk)
    · rw [show _ from setEle_ne hk]
      exact h.mine t ht
  · have hjk : j≠k := by
      rintro rfl
      rw [show _ from setEle_self] at hj
      exact Bool.false_ne_true (htim.symm.trans hj)
    rw [show _ from setEle_ne hjk] at hj ⊢
    exact h.owed j hj
  · have hjk : j≠k := by
      rintro rfl
      rw [show _ from setEle_self] at hj
      exact Bool.false_ne_true (hlive.symm.trans hj)
    rw [show _ from setEle_ne hjk] at hj ⊢
    exact h.freed j hj
  · have hjk : j≠k := by
      rintro rfl
      exact hready hj
    rw [show _ from setEle_ne hjk]
    exact h.queue.2 j hj
  · by_cases hjk : j=k
    · subst hjk
      rw [show _ from setEle_self]
      exact h.ctcs j hj
    · rw [show _ from setEle_ne hjk]
      exact h.ctcs j hj

theorem register_books (h : Inv ctc s) :
    (s.register t).armed.Perm ((s.register t).knotes++tickets (s.register t).evs++(s.register t).ended.map Prod.fst) := by
  refine List.perm_iff_count.mpr fun x => ?_
  have hb := h.books.count_eq x
  have hs := (split_perm t.ele s.knotes).count_eq x
  simp only [Kq.register,Kq.retire,Kq.setEle,List.map_append,map_fst,List.count_append] at hb hs ⊢
  omega

theorem inv_register (h : Inv ctc s) (hop : (s.ele t.ele).op=some t.op) (htim : (s.ele t.ele).isTiming=false)
    (hfresh : ∀ u∈s.armed,u.op≠t.op) (hlt : t.op<s.next) (hctc : ctc t.ele=false) (hready : t.ele∉s.ready) :
    Inv ctc (s.register t) := by
  have hself : (s.register t).ele t.ele={s.ele t.ele with isTiming := true} := setEle_self (s := s)
  have hother : ∀ j,j≠t.ele → (s.register t).ele j=s.ele j := fun j hj => setEle_ne (s := s) hj
  have hmem : ∀ u,u∈(s.register t).knotes ↔ (u∈s.knotes ∧ u.ele≠t.ele) ∨ u=t := fun u => by
    simp [Kq.register,Kq.retire,Kq.setEle]
  have harmed : ∀ u,u∈(s.register t).armed ↔ u∈s.armed ∨ u=t := fun u => by simp [Kq.register,Kq.retire,Kq.setEle]
  refine ⟨register_books h,?_,fun u hu => ?_,?_,h.batch,h.due,fun u cur now hu => ?_,fun u hu => ?_,fun u cur now hu => ?_,
    h.clean,fun j hj => ?_,fun u n b hu => ?_,fun j hj => ?_,⟨h.queue.1,fun j hj => ?_⟩,fun j hj => ?_⟩
  · show ((s.armed++[t]).map (·.op)).Nodup
    rw [List.map_append]
    refine List.nodup_append.mpr ⟨h.once,List.nodup_singleton _,fun a ha b hb => ?_⟩
    obtain ⟨u,hu,rfl⟩ := List.mem_map.mp ha
    rw [List.map_singleton,List.mem_singleton] at hb
    rw [hb]
    exact hfresh u hu
  · rcases (harmed u).mp hu with hu | rfl
    · exact h.bound u hu
    · exact hlt
  · show ((s.knotes.filter (·.ele≠t.ele)++[t]).map (·.ele)).Nodup
    rw [List.map_append]
    refine List.nodup_append.mpr ⟨(List.filter_sublist.map _).nodup h.knotes,List.nodup_singleton _,fun a ha b hb => ?_⟩
    obtain ⟨u,hu,rfl⟩ := List.mem_map.mp ha
    rw [List.map_singleton,List.mem_singleton] at hb
    rw [hb]
    simpa using (List.mem_filter.mp hu).2
  · rcases mem_ended hu with hu | ⟨-,hu⟩
    · exact h.inTime u cur now hu
    · cases hu
  · by_cases hk : u.ele=t.ele
    · rcases List.mem_append.mp hu with hu | hu
      · rcases (hmem u).mp hu with ⟨-,hne⟩ | rfl
        · exact absurd hk hne
        · rw [hself]
          exact .inr ⟨hop,rfl⟩
      · exact .inl (show Astray s u from astray_of h htim (List.mem_append_right _ hu) hk)
    · rw [hother _ hk]
      rcases List.mem_append.mp hu with hu | hu
      · rcases (hmem u).mp hu with ⟨hu,-⟩ | rfl
        · exact h.mine u (List.mem_append_left _ hu)
        · exact absurd rfl hk
      · exact h.mine u (List.mem_append_right _ hu)
  · rcases mem_ended hu with hu | ⟨-,hu⟩
    · exact h.right u cur now hu
    · cases hu
  · by_cases hk : j=t.ele
    · subst hk
      rw [hself]
      exact ⟨t,rfl,hop,.inl ((hmem t).mpr (.inr rfl))⟩
    · rw [hother j hk] at hj ⊢
      obtain ⟨u,hu,huop,hwhere⟩ := h.owed j hj
      refine ⟨u,hu,huop,?_⟩
      rcases hwhere with hu' | hu' | ⟨n,b,hu'⟩
      · exact .inl ((hmem u).mpr (.inl ⟨hu',fun heq => hk (hu.symm.trans heq)⟩))
      · exact .inr (.inl hu')
      · exact .inr (.inr ⟨n,b,List.mem_append_left _ hu'⟩)
  · rcases mem_ended hu with hu | ⟨-,hu⟩
    · exact h.lost u n b hu
    · cases hu
  · by_cases hk : j=t.ele
    · subst hk
      rw [hself] at hj ⊢
      exact h.freed _ hj
    · rw [hother j hk] at hj ⊢
      exact h.freed j hj
  · rw [hother j (fun hk => hready (hk ▸ hj))]
    exact h.queue.2 j hj
  · have hk : j≠t.ele := by
      rintro rfl
      exact Bool.false_ne_true (hctc.symm.trans hj)
    rw [hother j hk]
    obtain ⟨htmr,htim',harm⟩ := h.ctcs j hj
    refine ⟨htmr,htim',fun u hu => ?_⟩
    rcases (harmed u).mp hu with hu | rfl
    · exact harm u hu
    · exact hk.symm

theorem inv_unwatch (h : Inv ctc s) : Inv ctc (dpevpUnwatchTmr s k) := by
  unfold dpevpUnwatchTmr
  split
  swap
  · exact h
  have hself : ((s.retire k .dropped).setEle k {s.ele k with isTiming := false}).ele k={s.ele k with isTiming := false} :=
    setEle_self
  have hother : ∀ j,j≠k → ((s.retire k .dropped).setEle k {s.ele k with isTiming := false}).ele j=s.ele j :=
    fun j hj => setEle_ne hj
  have hmore : ∀ u,Astray s u → (u∈s.missed++(tickets s.evs).filter (·.ele=k) ∨ u∈s.stray) :=
    fun u hu => hu.imp_left (List.mem_append_left _)
  refine ⟨List.perm_iff_count.mpr fun x => ?_,h.once,h.bound,(List.filter_sublist.map _).nodup h.knotes,h.batch,h.due,
    fun u cur now hu => ?_,fun u hu => ?_,fun u cur now hu => ?_,fun hm => h.clean (List.append_eq_nil_iff.mp hm).1,
    fun j hj => ?_,fun u n b hu => ?_,fun j hj => ?_,⟨h.queue.1,fun j hj => ?_⟩,fun j hj => ?_⟩
  · have hb := h.books.count_eq x
    have hs := (split_perm k s.knotes).count_eq x
    simp only [Kq.retire,Kq.setEle,List.map_append,map_fst,List.count_append] at hb hs ⊢
    omega
  · rcases mem_ended hu with hu | ⟨-,hu⟩
    · exact h.inTime u cur now hu
    · cases hu
  · by_cases hk : u.ele=k
    · rcases List.mem_append.mp hu with hu | hu
      · exact absurd hk (by simpa using (List.mem_filter.mp hu).2)
      · exact .inl (.inl (List.mem_append_right _ (List.mem_filter.mpr ⟨hu,by simpa using hk⟩)))
    · rw [show _ from hother _ hk]
      refine (h.mine u ?_).imp_left (hmore u)
      rcases List.mem_append.mp hu with hu | hu
      · exact List.mem_append_left _ (List.mem_of_mem_filter hu)
      · exact List.mem_append_right _ hu
  · rcases mem_ended hu with hu | ⟨-,hu⟩
    · exact (h.right u cur now hu).imp_right (hmore u)
    · cases hu
  · have hk : j≠k := by
      rintro rfl
      rw [show _ from hself] at hj
      cases hj
    rw [show _ from hother j hk] at hj ⊢
    obtain ⟨u,hu,huop,hwhere⟩ := h.owed j hj
    refine ⟨u,hu,huop,?_⟩
    rcases hwhere with hu' | hu' | ⟨n,b,hu'⟩
    · exact .inl (List.mem_filter.mpr ⟨hu',by simpa [hu] using hk⟩)
    · exact .inr (.inl hu')
    · exact .inr (.inr ⟨n,b,List.mem_append_left _ hu'⟩)
  · rcases mem_ended hu with hu | ⟨-,hu⟩
    · exact h.lost u n b hu
    · cases hu
  · by_cases hk : j=k
    · subst hk
      rw [show _ from hself] at hj ⊢
      exact h.freed _ hj
    · rw [show _ from hother j hk] at hj ⊢
      exact h.freed j hj
  · by_cases hk : j=k
    · subst hk
      rw [show _ from hself]
      exact ⟨(h.queue.2 _ hj).1,(h.queue.2 _ hj).2.1,rfl⟩
    · rw [show _ from hother j hk]
      exact h.queue.2 j hj
  · by_cases hk : j=k
    · subst hk
      rw [show _ from hself]
      exact ⟨(h.ctcs _ hj).1,rfl,(h.ctcs _ hj).2.2⟩
    · rw [show _ from hother j hk]
      exact h.ctcs j hj

/-- The end of an operation, with the timers of its element that have fired. -/
theorem inv_close (k : κ) (e : Ele) (evs : List (Ev κ)) (zs : List (Ticket κ × End)) (h : Inv ctc s)
    (hop : e.op=none) (htim : e.isTiming=false)
    (htmr : e.tmr=(s.ele k).tmr) (hevs : tickets s.evs=zs.map Prod.fst++tickets evs)
    (hzs : ∀ z∈zs,z.1.ele=k ∧ z.2=.fired (s.ele k).op s.now) (hrest : ∀ u∈tickets evs,u.ele=k → Astray s u)
    (hclean : s.missed=[] → s.stray=[] → ∀ u∈s.knotes,u.ele≠k) (hready : k∉s.ready) :
    Inv ctc {s.setEle k e with
      evs := evs, ended := s.ended++zs, stray := s.stray++s.knotes.filter (·.ele=k)} := by
  have hself : (s.setEle k e).ele k=e := setEle_self
  have hother : ∀ j,j≠k → (s.setEle k e).ele j=s.ele j := fun j hj => setEle_ne hj
  have hbatch : ∀ u∈tickets evs,u∈tickets s.evs := fun u hu => hevs ▸ List.mem_append_right _ hu
  have hzmem : ∀ z∈zs,z.1∈tickets s.evs := fun z hz => hevs ▸ List.mem_append_left _ (List.mem_map_of_mem hz)
  have hmore : ∀ u,Astray s u → (u∈s.missed ∨ u∈s.stray++s.knotes.filter (·.ele=k)) :=
    fun u hu => hu.imp_right (List.mem_append_left _)
  refine ⟨List.perm_iff_count.mpr fun x => ?_,h.once,h.bound,h.knotes,?_,fun u hu => h.due u (hbatch u hu),
    fun u cur now hu => ?_,fun u hu => ?_,fun u cur now hu => ?_,fun hm => ?_,
    fun j hj => ?_,fun u n b hu => ?_,fun j hj => ?_,⟨h.queue.1,fun j hj => ?_⟩,fun j hj => ?_⟩
  · have hb := h.books.count_eq x
    rw [hevs] at hb
    simp only [Kq.setEle,List.map_append,List.count_append] at hb ⊢
    omega
  · have hb := h.batch
    rw [hevs,List.map_append] at hb
    exact (List.nodup_append.mp hb).2.1
  · rcases List.mem_append.mp hu with hu | hu
    · exact h.inTime u cur now hu
    · obtain ⟨-,heq⟩ := hzs _ hu
      cases heq
      exact h.due u (hzmem _ hu)
  · by_cases hk : u.ele=k
    · rcases List.mem_append.mp hu with hu | hu
      · exact .inl (.inr (List.mem_append_right _ (List.mem_filter.mpr ⟨hu,by simpa using hk⟩)))
      · exact .inl (hmore u (hrest u hu hk))
    · rw [show _ from hother _ hk]
      refine (h.mine u ?_).imp_left (hmore u)
      rcases List.mem_append.mp hu with hu | hu
      · exact List.mem_append_left _ hu
      · exact List.mem_append_right _ (hbatch u hu)
  · rcases List.mem_append.mp hu with hu | hu
    · exact (h.right u cur now hu).imp_right (hmore u)
    · obtain ⟨hk,heq⟩ := hzs _ hu
      cases heq
      have hele : u.ele=k := hk
      rcases h.mine u (List.mem_append_right _ (hzmem _ hu)) with hu' | hu'
      · exact .inr (hmore u hu')
      · exact .inl (hele ▸ hu'.1)
  · have hs := h.clean hm
    refine List.append_eq_nil_iff.mpr ⟨hs,List.filter_eq_nil_iff.mpr fun u hu => ?_⟩
    simpa using hclean hm hs u hu
  · have hk : j≠k := by
      rintro rfl
      rw [show _ from hself,htim] at hj
      cases hj
    rw [show _ from hother j hk] at hj ⊢
    obtain ⟨u,hu,huop,hwhere⟩ := h.owed j hj
    refine ⟨u,hu,huop,?_⟩
    rcases hwhere with hu' | hu' | ⟨n,b,hu'⟩
    · exact .inl hu'
    · rw [hevs] at hu'
      rcases List.mem_append.mp hu' with hu' | hu'
      · obtain ⟨z,hz,rfl⟩ := List.mem_map.mp hu'
        exact absurd (hu.symm.trans (hzs z hz).1) hk
      · exact .inr (.inl hu')
    · exact .inr (.inr ⟨n,b,List.mem_append_left _ hu'⟩)
  · rcases List.mem_append.mp hu with hu | hu
    · exact h.lost u n b hu
    · cases (hzs _ hu).2
  · by_cases hk : j=k
    · subst hk
      rw [show _ from hself]
      exact hop
    · rw [show _ from hother j hk] at hj ⊢
      exact h.freed j hj
  · rw [show _ from hother j (fun hk => hready (hk ▸ hj))]
    exact h.queue.2 j hj
  · by_cases hk : j=k
    · subst hk
      rw [show _ from hself]
      exact ⟨htmr.trans (h.ctcs _ hj).1,htim,(h.ctcs _ hj).2.2⟩
    · rw [show _ from hother j hk]
      exact h.ctcs j hj

theorem inv_over (h : Inv ctc s) (htim : (s.ele k).isTiming=false) (hready : k∉s.ready) : Inv ctc (dpeleAscOver s k).1 := by
  have hclose := inv_close k {s.ele k with op := none, freed := (s.ele k).doomed} s.evs [] h rfl htim rfl rfl
    (fun z hz => absurd hz List.not_mem_nil) (fun u hu hk => astray_of h htim (List.mem_append_right _ hu) hk)
    (fun hm hs u hu hk => ?_) hready
  · rw [List.append_nil] at hclose
    exact hclose
  · rcases astray_of h htim (List.mem_append_left _ hu) hk with hu' | hu'
    · exact List.not_mem_nil (hm ▸ hu')
    · exact List.not_mem_nil (hs ▸ hu')

/-- A timer fires, and ends what goes on. -/
theorem inv_fire (h : Inv ctc s) (hevs : s.evs=.timer t::evs) (hready : t.ele∉s.ready) :
    Inv ctc (dpeleAscOver {s.setEle t.ele {s.ele t.ele with isTiming := false} with
      evs := evs, ended := s.ended++[(t,.fired (s.ele t.ele).op s.now)]} t.ele).1 := by
  have htick : tickets s.evs=t::tickets evs := by rw [hevs]; rfl
  have hbatch := h.batch
  rw [htick,List.map_cons] at hbatch
  have hclose := inv_close t.ele {s.ele t.ele with op := none, isTiming := false, freed := (s.ele t.ele).doomed} evs
    [(t,.fired (s.ele t.ele).op s.now)] h rfl rfl rfl htick (fun z hz => ?_) (fun u hu hk => ?_)
    (fun hm hs u hu hk => ?_) hready
  · simp only [dpeleAscOver,Kq.setEle,Function.update_self,Function.update_idem] at hclose ⊢
    exact hclose
  · obtain rfl := List.mem_singleton.mp hz
    exact ⟨rfl,rfl⟩
  · exact absurd (List.mem_map.mpr ⟨u,hu,hk⟩) (List.nodup_cons.mp hbatch).1
  · have htmem : t∈s.knotes++tickets s.evs := List.mem_append_right _ (htick ▸ List.mem_cons_self)
    have humem : u∈s.knotes++tickets s.evs := List.mem_append_left _ hu
    have hop : ∀ v∈s.knotes++tickets s.evs,v.ele=t.ele → (s.ele t.ele).op=some v.op := fun v hv hvk => by
      rcases h.mine v hv with (hv' | hv') | hv'
      · exact absurd (hm ▸ hv') List.not_mem_nil
      · exact absurd (hs ▸ hv') List.not_mem_nil
      · exact hvk ▸ hv'.1
    have heq : t=u := op_inj h (mem_armed h htmem) (mem_armed h humem)
      (Option.some.inj ((hop t htmem rfl).symm.trans (hop u humem hk)))
    have hb := h.books.nodup_iff.mp h.once.of_map
    have happ := (List.nodup_append.mp hb).1
    exact (List.nodup_append.mp happ).2.2 u hu t (htick ▸ List.mem_cons_self) heq.symm

theorem inv_push (h : Inv ctc s) (hctc : ctc k=false) (hop : (s.ele k).op≠none) (htim : (s.ele k).isTiming=false) :
    Inv ctc (s.pushReady k) := by
  unfold Kq.pushReady
  split
  · exact h
  · rename_i hk
    refine {h with queue := ⟨List.nodup_append.mpr ⟨h.queue.1,List.nodup_singleton _,fun a ha b hb => ?_⟩,fun j hj => ?_⟩}
    · rw [List.mem_singleton.mp hb]
      exact fun hak => hk (hak ▸ ha)
    · rcases List.mem_append.mp hj with hj | hj
      · exact h.queue.2 j hj
      · rw [List.mem_singleton.mp hj]
        exact ⟨hctc,hop,htim⟩

theorem inv_kevent (h : Inv ctc s) (hrep : reported s evs)
    (hlost : tickets s.evs=[] ∨ dpevpReapLimit≤ s.popLimit ∨ s.skipped=true) :
    Inv ctc {s with
      pc := .out
      popLimit := 0
      evs := evs
      knotes := s.knotes.filter (·∉tickets evs)
      ended := s.ended++(tickets s.evs).map (·,.lost s.popLimit s.skipped)} := by
  have hsub : ∀ u∈tickets evs,u∈s.knotes := fun u hu => (hrep.2 u hu).1
  have hsplit : (s.knotes.filter (·∉tickets evs)++tickets evs).Perm s.knotes := by
    have hperm := List.filter_append_perm (fun u : Ticket κ => decide (u∉tickets evs)) s.knotes
    have hin : (s.knotes.filter fun u => !decide (u∉tickets evs)).Perm (tickets evs) :=
      (List.perm_ext_iff_of_nodup (h.knotes.of_map.filter _) hrep.1).mpr fun u => by
        simpa using hsub u
    exact (hin.symm.append_left _).trans hperm
  have hmem : ∀ u,u∈s.knotes → u∈s.knotes.filter (·∉tickets evs) ∨ u∈tickets evs := fun u hu => by
    rw [← List.mem_append]
    exact hsplit.mem_iff.mpr hu
  refine ⟨List.perm_iff_count.mpr fun x => ?_,h.once,h.bound,(List.filter_sublist.map _).nodup h.knotes,?_,
    fun u hu => (hrep.2 u hu).2,fun u cur now hu => ?_,fun u hu => h.mine u ?_,fun u cur now hu => ?_,h.clean,
    fun j hj => ?_,fun u n b hu => ?_,h.freed,h.queue,h.ctcs⟩
  · have hb := h.books.count_eq x
    have hs := hsplit.count_eq x
    simp only [List.map_append,map_fst,List.count_append] at hb hs ⊢
    omega
  · exact hrep.1.map_on fun u hu v hv heq => List.inj_on_of_nodup_map h.knotes (hsub u hu) (hsub v hv) heq
  · rcases mem_ended hu with hu | ⟨-,hu⟩
    · exact h.inTime u cur now hu
    · cases hu
  · rcases List.mem_append.mp hu with hu | hu
    · exact List.mem_append_left _ (List.mem_of_mem_filter hu)
    · exact List.mem_append_left _ (hsub u hu)
  · rcases mem_ended hu with hu | ⟨-,hu⟩
    · exact h.right u cur now hu
    · cases hu
  · obtain ⟨u,hu,huop,hwhere⟩ := h.owed j hj
    refine ⟨u,hu,huop,?_⟩
    rcases hwhere with hu' | hu' | ⟨n,b,hu'⟩
    · exact (hmem u hu').imp_right .inl
    · exact .inr (.inr ⟨_,_,List.mem_append_right _ (List.mem_map_of_mem hu')⟩)
    · exact .inr (.inr ⟨n,b,List.mem_append_left _ hu'⟩)
  · rcases mem_ended hu with hu' | ⟨hu',heq⟩
    · exact h.lost u n b hu'
    · cases heq
      refine hlost.resolve_left fun hnil => ?_
      rw [hnil] at hu'
      cases hu'

/-! ### What the parts of a step leave as it is -/

theorem unwatch_timing : ((dpevpUnwatchTmr s k).ele k).isTiming=false := by
  unfold dpevpUnwatchTmr
  split
  · exact congrArg Ele.isTiming (setEle_self (s := s.retire k .dropped))
  · rename_i h
    simpa using h

theorem unwatch_op : ((dpevpUnwatchTmr s k).ele j).op=(s.ele j).op := by
  unfold dpevpUnwatchTmr
  split
  · show (Function.update s.ele k {s.ele k with isTiming := false} j).op=(s.ele j).op
    by_cases hj : j=k
    · rw [hj,Function.update_self]
    · rw [Function.update_of_ne hj]
  · rfl

theorem unwatch_rest : (dpevpUnwatchTmr s k).ready=s.ready ∧ (dpevpUnwatchTmr s k).evs=s.evs ∧ (dpevpUnwatchTmr s k).pc=s.pc ∧
    (dpevpUnwatchTmr s k).skipped=s.skipped ∧ (dpevpUnwatchTmr s k).popLimit=s.popLimit := by
  unfold dpevpUnwatchTmr
  split <;> exact ⟨rfl,rfl,rfl,rfl,rfl⟩

theorem watch_pc {ok : Bool} : (dpevpWatchTmr s k ok).pc=s.pc := by
  unfold dpevpWatchTmr
  split
  · split <;> rfl
  · rfl

theorem push_pc : (s.pushReady k).pc=s.pc := by
  unfold Kq.pushReady
  split <;> rfl

theorem walk_out (h : s.pc=.out) : Walk s := by
  unfold Walk
  rw [h]
  trivial

theorem walk_efd (h : s.pc=.efd) : Walk s := by
  unfold Walk
  rw [h]
  trivial

theorem ticket_cases : otherFirst evs=false → timerFirst evs=false → tickets evs=[] := by
  intro ho ht
  cases evs with
  | nil => rfl
  | cons ev evs => cases ev <;> simp [otherFirst,timerFirst] at ho ht

theorem inv_watch {ok : Bool} (h : Inv ctc s) (hop : ∀ n,(s.ele k).op=some n → n<s.next ∧ ∀ u∈s.armed,u.op≠n)
    (htim : (s.ele k).isTiming=false) (hready : k∉s.ready) : Inv ctc (dpevpWatchTmr s k ok) := by
  unfold dpevpWatchTmr
  split
  · rename_i after op hafter hop'
    split
    · obtain ⟨hlt,hfresh⟩ := hop op hop'
      refine inv_register h hop' htim hfresh hlt ?_ hready
      cases hctc : ctc k with
      | false => rfl
      | true =>
        rw [(h.ctcs k hctc).1] at hafter
        cases hafter
    · exact h
  · exact h

theorem inv_reaped {x : Kq κ × Bool} (h : Inv ctc x.1) : Inv ctc (Kq.reaped x) := by
  unfold Kq.reaped
  split
  · exact inv_pc h _ _ _
  · exact h

theorem walk_reaped {x : Kq κ × Bool} (h : Walk x.1) : Walk (Kq.reaped x) := by
  unfold Kq.reaped
  split
  · exact walk_out rfl
  · exact h

theorem inv_finish (h : Inv ctc s) (hready : k∉s.ready) : Inv ctc (dpeleAscOver (dpevpUnwatchTmr s k) k).1 :=
  inv_over (inv_unwatch h) unwatch_timing (by rw [unwatch_rest.1]; exact hready)

/-! ### Steps -/

theorem inv_add {done ok : Bool} (h : Inv ctc s) (hs : step ctc s (.add k done ok)=some s') : Inv ctc s' ∧ Walk s' := by
  obtain ⟨⟨hpc,hlive,hop,hctc⟩,hs⟩ := Option.ite_none_right_eq_some.mp hs
  have hbegin := inv_begin h hop hlive
  have hself : (s.setEle k {s.ele k with op := some s.next}).ele k={s.ele k with op := some s.next} := setEle_self
  have htim := not_timing h hop
  have hready : k∉s.ready := fun hk => (h.queue.2 k hk).2.1 hop
  cases done with
  | true =>
    cases hs
    refine ⟨inv_push hbegin ?_ ?_ ?_,walk_out (push_pc.trans hpc)⟩
    · cases hk : ctc k with
      | false => rfl
      | true => cases hctc hk
    · rw [show _ from hself]
      exact Option.some_ne_none _
    · rw [show _ from hself]
      exact htim
  | false =>
    cases hs
    refine ⟨inv_watch hbegin (fun n hn => ?_) ?_ hready,walk_out (watch_pc.trans hpc)⟩
    · rw [show _ from hself] at hn
      cases hn
      exact ⟨Nat.lt_succ_self _,fun u hu => (h.bound u hu).ne⟩
    · rw [show _ from hself]
      exact htim

theorem inv_end (h : Inv ctc s) (hs : step ctc s (.end_ k)=some s') : Inv ctc s' ∧ Walk s' := by
  obtain ⟨⟨hpc,-⟩,hs⟩ := Option.ite_none_right_eq_some.mp hs
  have hrest := unwatch_rest (s := s) (k := k)
  split at hs
  · cases hs
    exact ⟨h,walk_out hpc⟩
  · rename_i hop
    cases hs
    cases hctc : ctc k with
    | true =>
      rw [if_pos rfl]
      exact ⟨inv_unwatch h,walk_out (hrest.2.2.1.trans hpc)⟩
    | false =>
      rw [if_neg Bool.false_ne_true]
      refine ⟨inv_push (inv_unwatch h) hctc ?_ unwatch_timing,walk_out (push_pc.trans (hrest.2.2.1.trans hpc))⟩
      rw [unwatch_op]
      exact hop

theorem inv_reapEfd {fin : Bool} (h : Inv ctc s) (hs : step ctc s (.reapEfd fin)=some s') : Inv ctc s' ∧ Walk s' := by
  simp only [step] at hs
  split at hs
  · rename_i k evs hevs
    obtain ⟨⟨hpc,-⟩,hs⟩ := Option.ite_none_right_eq_some.mp hs
    have hrest : Inv ctc {s with evs := evs} := inv_evs h (by rw [hevs]; rfl)
    split at hs
    · cases hs
      exact ⟨hrest,walk_efd hpc⟩
    · obtain ⟨⟨-,-,hready⟩,hs⟩ := Option.ite_none_right_eq_some.mp hs
      have hfin := inv_finish (k := k) hrest hready
      have hpc' : (dpeleAscOver (dpevpUnwatchTmr {s with evs := evs} k) k).1.pc=.efd := unwatch_rest.2.2.1.trans hpc
      cases hs
      split
      · exact ⟨inv_pc hfin _ _ _,walk_out rfl⟩
      · exact ⟨hfin,walk_efd hpc'⟩
  · cases hs

theorem inv_reapUsd (h : Inv ctc s) (hw : Walk s) (hs : step ctc s .reapUsd=some s') : Inv ctc s' ∧ Walk s' := by
  simp only [step] at hs
  split at hs
  · rename_i k ready hready
    obtain ⟨hpc,hs⟩ := Option.ite_none_right_eq_some.mp hs
    cases hs
    obtain ⟨hnd,hall⟩ := h.queue
    rw [hready] at hnd hall
    obtain ⟨hk,hnd⟩ := List.nodup_cons.mp hnd
    have hrest : Inv ctc {s with ready := ready} :=
      {h with queue := ⟨hnd,fun j hj => hall j (List.mem_cons_of_mem _ hj)⟩}
    refine ⟨inv_reaped (inv_over hrest (hall k List.mem_cons_self).2.2 hk),walk_reaped ?_⟩
    unfold Walk at hw ⊢
    rw [hpc] at hw
    rw [show (dpeleAscOver {s with ready := ready} k).1.pc=Pc.usd from hpc]
    exact hw
  · cases hs

theorem inv_reapCtc {fin : Bool} (h : Inv ctc s) (hw : Walk s) (hs : step ctc s (.reapCtc k fin)=some s') :
    Inv ctc s' ∧ Walk s' := by
  obtain ⟨⟨hpc,hctc,-⟩,hs⟩ := Option.ite_none_right_eq_some.mp hs
  cases hs
  have hready : k∉s.ready := fun hk => Bool.false_ne_true ((h.queue.2 k hk).1.symm.trans hctc)
  cases fin with
  | false => exact ⟨inv_reaped h,walk_reaped hw⟩
  | true =>
    rw [if_pos rfl]
    refine ⟨inv_reaped (inv_finish h hready),walk_reaped ?_⟩
    have hrest := unwatch_rest (s := s) (k := k)
    unfold Walk at hw ⊢
    rw [hpc] at hw
    rw [show (dpeleAscOver (dpevpUnwatchTmr s k) k).1.pc=Pc.ctc from hrest.2.2.1.trans hpc]
    exact ⟨(congrArg otherFirst hrest.2.1).trans hw.1,hrest.1.trans hw.2⟩

theorem inv_reapTmr (h : Inv ctc s) (hw : Walk s) (hs : step ctc s .reapTmr=some s') : Inv ctc s' ∧ Walk s' := by
  simp only [step] at hs
  split at hs
  · rename_i t evs hevs
    obtain ⟨⟨hpc,-⟩,hs⟩ := Option.ite_none_right_eq_some.mp hs
    unfold Walk at hw
    rw [hpc] at hw
    have htick : t∈tickets s.evs := by
      rw [hevs]
      exact List.mem_cons_self
    have hctc : ctc t.ele=false := by
      cases hc : ctc t.ele with
      | false => rfl
      | true => exact absurd rfl ((h.ctcs _ hc).2.2 t (mem_armed h (List.mem_append_right _ htick)))
    have hfire := inv_fire h hevs (hw.2 ▸ List.not_mem_nil)
    rw [hctc,if_neg Bool.false_ne_true] at hs
    cases hs
    split
    · rename_i hret
      refine ⟨inv_reaped hfire,?_⟩
      unfold Kq.reaped
      rw [if_pos hret]
      exact walk_out rfl
    · refine ⟨inv_pc hfire _ _ _,?_⟩
      unfold Walk
      rw [show (dpeleAscOver {s.setEle t.ele {s.ele t.ele with isTiming := false} with
        evs := evs, ended := s.ended++[(t,.fired (s.ele t.ele).op s.now)]} t.ele).1.pc=Pc.tmr from hpc]
      exact ⟨.inr rfl,hw.2⟩
  · cases hs

theorem inv_next (h : Inv ctc s) (hw : Walk s) (hs : step ctc s .next=some s') : Inv ctc s' ∧ Walk s' := by
  simp only [step] at hs
  unfold Walk at hw
  split at hs <;> rename_i hpc <;> rw [hpc] at hw
  · split at hs
    · cases hs
    · rename_i hother
      cases hs
      refine ⟨inv_pc h _ _ _,?_⟩
      by_cases hlim : s.popLimit<dpevpReapLimit
      · simp only [Walk,if_pos hlim]
        exact Bool.eq_false_of_not_eq_true hother
      · simp only [Walk,if_neg hlim]
        exact .inr (.inl (not_lt.mp hlim))
  · obtain ⟨hready,hs⟩ := Option.ite_none_right_eq_some.mp hs
    cases hs
    exact ⟨inv_pc h _ _ _,hw,hready⟩
  · cases hs
    exact ⟨inv_pc h _ _ _,.inl hw.1,hw.2⟩
  · split at hs
    · cases hs
    · rename_i htimer
      cases hs
      refine ⟨inv_pc h _ _ _,?_⟩
      rcases hw.1 with hother | hskip
      · exact .inl (ticket_cases hother (Bool.eq_false_of_not_eq_true htimer))
      · exact .inr (.inr hskip)
  · cases hs
  · cases hs

theorem inv_step {a : Act κ} (h : Inv ctc s ∧ Walk s) (hs : step ctc s a=some s') : Inv ctc s' ∧ Walk s' := by
  obtain ⟨h,hw⟩ := h
  cases a with
  | clock d =>
    cases hs
    exact ⟨inv_clock h d,hw⟩
  | setTimeout k after =>
    obtain ⟨⟨hpc,-⟩,hs⟩ := Option.ite_none_right_eq_some.mp hs
    cases hs
    split
    · exact ⟨h,walk_out hpc⟩
    · rename_i hc
      exact ⟨inv_edit h rfl rfl (fun hctc => absurd (.inl hctc) hc) (h.freed k),walk_out hpc⟩
  | setDetach k b =>
    obtain ⟨⟨hpc,-⟩,hs⟩ := Option.ite_none_right_eq_some.mp hs
    cases hs
    split
    · exact ⟨inv_edit h rfl rfl (fun hctc => (h.ctcs k hctc).1) (h.freed k),walk_out hpc⟩
    · exact ⟨h,walk_out hpc⟩
  | add k done ok => exact inv_add h hs
  | end_ k => exact inv_end h hs
  | del k =>
    obtain ⟨⟨hpc,-⟩,hs⟩ := Option.ite_none_right_eq_some.mp hs
    cases hs
    exact ⟨inv_edit h rfl rfl (fun hctc => (h.ctcs k hctc).1) fun hf => Option.isNone_iff_eq_none.mp hf,walk_out hpc⟩
  | pop =>
    obtain ⟨-,hs⟩ := Option.ite_none_right_eq_some.mp hs
    cases hs
    exact ⟨inv_pc h _ _ _,walk_efd rfl⟩
  | reapEfd fin => exact inv_reapEfd h hs
  | reapUsd => exact inv_reapUsd h hw hs
  | reapCtc k fin => exact inv_reapCtc h hw hs
  | reapTmr => exact inv_reapTmr h hw hs
  | next => exact inv_next h hw hs
  | kevent evs =>
    obtain ⟨⟨hpc,hrep⟩,hs⟩ := Option.ite_none_right_eq_some.mp hs
    cases hs
    unfold Walk at hw
    rw [hpc] at hw
    exact ⟨inv_kevent h hrep hw,walk_out rfl⟩

theorem inv_start : Inv ctc ({} : Kq κ) ∧ Walk ({} : Kq κ) := by
  refine ⟨⟨List.Perm.nil,List.nodup_nil,?_,List.nodup_nil,List.nodup_nil,?_,?_,?_,?_,fun _ => rfl,?_,?_,?_,
    ⟨List.nodup_nil,?_⟩,?_⟩,trivial⟩ <;> intros <;> simp_all [tickets]

/-! ### Runs -/

/-- What holds of the timers after any run. A timer is in the kernel, in the array, or has ended once. Where it has fired it
was time, for its own operation unless it had gone astray; only such a timer outlives its element. And an operation that
waits has its timer unless that has been lost, behind the limit or behind an element that is not returned. -/
structure Sound (ctc : κ → Bool) (s : Kq κ) : Prop where
  books : s.armed.Perm (s.knotes++tickets s.evs++s.ended.map Prod.fst) ∧ s.armed.Nodup
  fired : ∀ t cur now,(t,.fired cur now)∈s.ended → t.due≤now ∧ (cur=some t.op ∨ Astray s t)
  freed : ∀ t∈s.knotes++tickets s.evs,(s.ele t.ele).freed=true → Astray s t
  astray : s.missed=[] → s.stray=[]
  owed : ∀ k,(s.ele k).isTiming=true → ∃ t,t.ele=k ∧ (s.ele k).op=some t.op ∧
    (t∈s.knotes ∨ t∈tickets s.evs ∨ ∃ n b,(t,.lost n b)∈s.ended)
  lost : ∀ t n b,(t,.lost n b)∈s.ended → dpevpReapLimit≤n ∨ b=true
  ctcs : ∀ t∈s.armed,ctc t.ele=false

theorem Inv.sound (h : Inv ctc s) : Sound ctc s := by
  refine ⟨⟨h.books,h.once.of_map⟩,fun t cur now ht => ⟨h.inTime t cur now ht,h.right t cur now ht⟩,fun t ht hf => ?_,h.clean,
    h.owed,h.lost,fun t ht => ?_⟩
  · refine (h.mine t ht).resolve_right fun hr => ?_
    rw [h.freed _ hf] at hr
    cases hr.1
  · cases hc : ctc t.ele with
    | false => rfl
    | true => exact absurd rfl ((h.ctcs _ hc).2.2 t ht)

end Steps

/-- The second operation of an element gets the timer of its first one, whose event was in the array when that was ended. -/
def stale : List (Act ℕ) :=
  [.setTimeout 0 1,.setTimeout 1 1,.add 0 false true,.add 1 false true,.clock 1,.pop,.next,.next,.next,.next,
    .kevent [.timer ⟨0,0,1⟩,.timer ⟨1,1,1⟩],.pop,.next,.next,.next,.reapTmr,.end_ 1,.pop,.next,.reapUsd,.add 1 false true,
    .pop,.next,.next,.next,.reapTmr]

end Dpapp.KqTmr
