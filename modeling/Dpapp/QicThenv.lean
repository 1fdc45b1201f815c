import Dpapp.Machine
import Dpapp.Ret
import Mathlib.Data.Finset.Card

/-! # The QUIC environments of threads (dpqic.c)

`_qic_thenv` of every thread, and `_qic_thcount`, which tells when lsquic is initialised and cleaned up. -/

set_option linter.unusedSectionVars false

namespace Dpapp.QicThenv
open Dpapp.Machine Dpapp.Ret

def dpeNomem : Dpret := -12
def dpeUninit : Dpret := -152

/-! ### The engines of a thread -/

/-- `dpqic_engine_t`; `count` is how many listeners and clients use it. -/
structure Engine where
  group : List UInt8
  count : ℤ := 0

/-- `_dpqic_get_engine`; `fit` tells whether the group has an ALPN and TLS 1.3, `made` whether an engine can be made. -/
def getEngine (es : List Engine) (group : List UInt8) (fit made : Bool) : List Engine × Option ℕ :=
  if fit=true then
    match es.findIdx? fun e => decide (e.group=group) with
    | some i => (es,some i)
    | none => if made=true then (es++[⟨group.take 31,0⟩],some es.length) else (es,none)
  else (es,none)

def taken (group : Option (List UInt8)) (e : Engine) : Prop := e.count=0 ∧ ∀ g∈group,e.group=g

instance (group : Option (List UInt8)) (e : Engine) : Decidable (taken group e) :=
  inferInstanceAs (Decidable (_ ∧ ∀ g∈group,_))

/-- `dpqic_del_engine` -/
def dpqicDelEngine (es : List Engine) (group : Option (List UInt8)) : List Engine × ℕ :=
  (es.filter fun e => decide (¬taken group e),es.countP fun e => decide (taken group e))

/-- `_dpqic_listen_vopen`, `_dpqic_client_vopen`; `opened` tells whether the rest of them succeeds. -/
def vopen (es : List Engine) (group : List UInt8) (fit made opened : Bool) : List Engine :=
  match getEngine es group fit made with
  | (es,some i) => if opened=true then es.modify i fun e => {e with count := e.count+1} else es
  | (es,none) => es

/-- `_dpqic_listen_clean`, `_dpqic_client_clean` of one that uses engine `i`. -/
def clean (es : List Engine) (i : ℕ) : List Engine := es.modify i fun e => {e with count := e.count-1}

/-! ### Threads -/

/-- Where a thread is: outside of both functions, or before the lock of one. -/
inductive Pc | idle | init | exit
  deriving DecidableEq

/-- `thenv` is `_qic_thenv` of each thread with its engine_head. `lib` tells whether lsquic is initialised; `ok` has the
threads that dpqic_thrd_init has answered with DPE_OK, until dpqic_thrd_exit has released their environment. -/
structure Sys (τ : Type*) where
  thenv : τ → Option (List Engine) := fun _ => none
  pc : τ → Pc := fun _ => .idle
  thcount : ℤ := 0
  lib : Bool := false
  ok : Finset τ := ∅

inductive Act (τ : Type*)
  | init (t : τ) (alloc : Bool)
  | initLock (t : τ) (ginit : Bool)
  | exit (t : τ)
  | exitLock (t : τ)
  | addEngine (t : τ) (group : List UInt8) (fit made : Bool)
  | delEngine (t : τ) (group : Option (List UInt8))
  | vopen (t : τ) (group : List UInt8) (fit made opened : Bool)
  | clean (t : τ) (i : ℕ)

variable {τ : Type*} [DecidableEq τ]

def Sys.setEnv (s : Sys τ) (t : τ) (env : Option (List Engine)) : Sys τ := {s with thenv := Function.update s.thenv t env}
def Sys.setPc (s : Sys τ) (t : τ) (pc : Pc) : Sys τ := {s with pc := Function.update s.pc t pc}

def Sys.answer (s : Sys τ) (t : τ) (r : Dpret) : Sys τ :=
  {s.setPc t .idle with ok := if r=dpeOk then insert t s.ok else s.ok}

/-- `dpqic_thrd_init` up to its lock -/
def initEnv (s : Sys τ) (t : τ) (alloc : Bool) : Sys τ :=
  match s.thenv t with
  | none => if alloc=true then (s.setEnv t (some [])).setPc t .init else s.answer t dpeNomem
  | some _ => s.answer t dpeOk

/-- `dpqic_thrd_init` under its lock; `ginit` tells whether lsquic_global_init would succeed. -/
def initCount (s : Sys τ) (t : τ) (ginit : Bool) : Sys τ :=
  if s.thcount=0 then
    if ginit=true then {s.answer t dpeOk with thcount := s.thcount+1, lib := true}
    else s.answer t dpeUninit
  else {s.answer t dpeOk with thcount := s.thcount+1}

/-- `dpqic_thrd_exit` up to its lock -/
def exitEnv (s : Sys τ) (t : τ) : Sys τ :=
  match s.thenv t with
  | none => s
  | some es =>
      match (dpqicDelEngine es none).1 with
      | [] => (s.setEnv t none).setPc t .exit
      | e::es => (s.setEnv t (some (e::es))).setPc t .exit

/-- `dpqic_thrd_exit` under its lock -/
def exitCount (s : Sys τ) (t : τ) : Sys τ :=
  {s.setPc t .idle with
    thcount := s.thcount-1
    lib := if s.thcount-1=0 then false else s.lib
    ok := if s.thenv t=none then s.ok.erase t else s.ok}

/-- The engines of a thread that runs outside of both functions. Without an environment the other functions read
through a null pointer. -/
def Sys.engines (s : Sys τ) (t : τ) : Option (List Engine) := if s.pc t=.idle then s.thenv t else none

def step (s : Sys τ) : Act τ → Option (Sys τ)
  | .init t alloc => if s.pc t=.idle then some (initEnv s t alloc) else none
  | .initLock t ginit => if s.pc t=.init then some (initCount s t ginit) else none
  | .exit t => if s.pc t=.idle then some (exitEnv s t) else none
  | .exitLock t => if s.pc t=.exit then some (exitCount s t) else none
  | .addEngine t group fit made => (s.engines t).map fun es => s.setEnv t (some (getEngine es group fit made).1)
  | .delEngine t group => (s.engines t).map fun es => s.setEnv t (some (dpqicDelEngine es group).1)
  | .vopen t group fit made opened => (s.engines t).map fun es => s.setEnv t (some (vopen es group fit made opened))
  | .clean t i =>
      (s.engines t).bind fun es =>
        (es[i]?).bind fun e => if 0<e.count then some (s.setEnv t (some (clean es i))) else none

/-! ### Counting -/

structure Right (s : Sys τ) : Prop where
  counted : s.thcount=s.ok.card
  nonneg : 0≤ s.thcount
  global : s.lib=true ↔ 0<s.thcount
  engines : ∀ t∈s.ok,∀ es,s.thenv t=some es → es≠[] → s.lib=true

/-- A thread whose lsquic_global_init has failed calls neither function again, and no thread calls dpqic_thrd_exit while
one of its engines is in use. -/
def proper (s : Sys τ) : Act τ → Prop
  | .init t _ => s.thenv t≠none → t∈s.ok
  | .exit t => ∀ es∈s.thenv t,t∈s.ok ∧ ∀ e∈es,e.count=0
  | .initLock .. | .exitLock _ | .addEngine .. | .delEngine .. | .vopen .. | .clean .. => True

/-- What there is of a thread at each place. -/
def fits (ok : Prop) (env : Option (List Engine)) : Pc → Prop
  | .idle => ok → env≠none
  | .init => ¬ok ∧ env≠none
  | .exit => ok ∧ env=none

structure Inv (s : Sys τ) : Prop where
  counted : s.thcount=s.ok.card
  global : s.lib=true ↔ 0<s.thcount
  threads : ∀ t,fits (t∈s.ok) (s.thenv t) (s.pc t)

section Steps
variable {s s' : Sys τ} {t : τ} {a : Act τ} {env : Option (List Engine)} {pc : Pc} {ok : Finset τ}

/-- Only thread `t` has moved. -/
theorem threads_update (h : ∀ t,fits (t∈s.ok) (s.thenv t) (s.pc t)) (hok : ∀ t',t'≠t → (t'∈ok ↔ t'∈s.ok))
    (ht : fits (t∈ok) env pc) (t' : τ) :
    fits (t'∈ok) (Function.update s.thenv t env t') (Function.update s.pc t pc t') := by
  by_cases heq : t'=t
  · subst heq
    rw [Function.update_self,Function.update_self]
    exact ht
  · rw [Function.update_of_ne heq,Function.update_of_ne heq,hok t' heq]
    exact h t'

theorem mem_insert_of_ne {t' : τ} (hne : t'≠t) : t'∈insert t s.ok ↔ t'∈s.ok := by
  rw [Finset.mem_insert,or_iff_right hne]

theorem mem_erase_of_ne {t' : τ} (hne : t'≠t) : t'∈s.ok.erase t ↔ t'∈s.ok := by
  rw [Finset.mem_erase,and_iff_right hne]

/-- An answer changes `pc` and `ok` only. -/
theorem threads_answer (h : ∀ t,fits (t∈s.ok) (s.thenv t) (s.pc t)) (hok : ∀ t',t'≠t → (t'∈ok ↔ t'∈s.ok))
    (ht : t∈ok → s.thenv t≠none) (t' : τ) : fits (t'∈ok) (s.thenv t') (Function.update s.pc t .idle t') := by
  have hall : fits (t'∈ok) (Function.update s.thenv t (s.thenv t) t') (Function.update s.pc t .idle t') :=
    threads_update h hok (show fits _ (s.thenv t) .idle from ht) t'
  rwa [Function.update_eq_self] at hall

theorem inv_start : Inv ({} : Sys τ) := by
  refine ⟨rfl,⟨fun h => (by cases h),fun h => absurd h (lt_irrefl _)⟩,fun t ht => ?_⟩
  exact absurd ht (Finset.notMem_empty t)

theorem inv_initEnv (h : Inv s) (hpc : s.pc t=.idle) (hok : s.thenv t≠none → t∈s.ok) (alloc : Bool) :
    Inv (initEnv s t alloc) := by
  have ht := h.threads t
  rw [hpc] at ht
  unfold initEnv
  cases henv : s.thenv t with
  | none =>
    have hno : t∉s.ok := fun hmem => ht hmem henv
    cases alloc with
    | false => exact ⟨h.counted,h.global,threads_answer h.threads (fun _ _ => Iff.rfl) ht⟩
    | true => exact ⟨h.counted,h.global,threads_update h.threads (fun _ _ => Iff.rfl) ⟨hno,Option.some_ne_none []⟩⟩
  | some es =>
    -- the call answers for an environment that it has not made
    have hmem : t∈s.ok := hok (by rw [henv]; exact Option.some_ne_none es)
    refine ⟨?_,h.global,threads_answer h.threads (fun _ hne => mem_insert_of_ne hne) fun _ => ht hmem⟩
    simp only [Sys.answer,Sys.setPc,if_pos,Finset.insert_eq_of_mem hmem]
    exact h.counted

/-- An answered init counts its thread. -/
theorem counted_insert (h : s.thcount=s.ok.card) (hno : t∉s.ok) : s.thcount+1=(insert t s.ok).card := by
  rw [Finset.card_insert_of_notMem hno,h]
  push_cast
  rfl

theorem counted_erase (h : s.thcount=s.ok.card) (hmem : t∈s.ok) : s.thcount-1=(s.ok.erase t).card := by
  have hcard := Finset.card_erase_add_one hmem
  rw [h]
  omega

theorem inv_initCount (h : Inv s) (hpc : s.pc t=.init) (ginit : Bool) : Inv (initCount s t ginit) := by
  have ht := h.threads t
  rw [hpc] at ht
  obtain ⟨hno,henv⟩ := ht
  have hnonneg : 0≤ s.thcount := by rw [h.counted]; exact Int.natCast_nonneg _
  have hcounted := counted_insert h.counted hno
  have hthreads : ∀ t',fits (t'∈insert t s.ok) (s.thenv t') (Function.update s.pc t .idle t') :=
    threads_answer h.threads (fun _ hne => mem_insert_of_ne hne) fun _ => henv
  unfold initCount
  split
  · rename_i hzero
    cases ginit with
    | false => exact ⟨h.counted,h.global,threads_answer h.threads (fun _ _ => Iff.rfl) fun hmem => absurd hmem hno⟩
    | true => exact ⟨hcounted,⟨fun _ => by show 0< s.thcount+1; omega,fun _ => rfl⟩,hthreads⟩
  · rename_i hpos
    have hlib : s.lib=true := h.global.mpr (by omega)
    exact ⟨hcounted,⟨fun _ => by simp only; omega,fun _ => hlib⟩,hthreads⟩

/-- dpqic_del_engine of NULL takes all of the engines that are not in use. -/
theorem delEngine_unused {es : List Engine} (hunused : ∀ e∈es,e.count=0) : (dpqicDelEngine es none).1=[] := by
  refine List.filter_eq_nil_iff.mpr fun e he => ?_
  rw [decide_eq_true_eq,not_not]
  exact ⟨hunused e he,fun g hg => by cases hg⟩

theorem inv_exitEnv (h : Inv s) (hok : ∀ es∈s.thenv t,t∈s.ok ∧ ∀ e∈es,e.count=0) :
    Inv (exitEnv s t) := by
  unfold exitEnv
  cases henv : s.thenv t with
  | none => exact h
  | some es =>
    obtain ⟨hmem,hunused⟩ := hok es henv
    simp only [delEngine_unused hunused]
    exact ⟨h.counted,h.global,threads_update h.threads (fun _ _ => Iff.rfl) ⟨hmem,rfl⟩⟩

theorem inv_exitCount (h : Inv s) (hpc : s.pc t=.exit) : Inv (exitCount s t) := by
  have ht := h.threads t
  rw [hpc] at ht
  obtain ⟨hmem,henv⟩ := ht
  have hpos : 0<s.thcount := by rw [h.counted]; exact_mod_cast Finset.card_pos.mpr ⟨t,hmem⟩
  unfold exitCount
  rw [if_pos henv]
  refine ⟨counted_erase h.counted hmem,?_,
    threads_answer h.threads (fun _ hne => mem_erase_of_ne hne) fun hin => absurd hin (Finset.notMem_erase t _)⟩
  show (if s.thcount-1=0 then false else s.lib)=true ↔ 0<s.thcount-1
  split
  · rename_i hzero
    rw [hzero]
    decide
  · rw [h.global]
    omega

/-- A step on the engines of a thread leaves it its environment. -/
theorem inv_setEnv (h : Inv s) {es es' : List Engine} (hes : s.engines t=some es) : Inv (s.setEnv t (some es')) := by
  obtain ⟨hpc,-⟩ := Option.ite_none_right_eq_some.mp hes
  have hidle : ∀ t',fits (t'∈s.ok) (Function.update s.thenv t (some es') t') (Function.update s.pc t .idle t') :=
    threads_update h.threads (fun _ _ => Iff.rfl) (show fits _ (some es') .idle from fun _ => Option.some_ne_none es')
  refine ⟨h.counted,h.global,fun t' => ?_⟩
  have ht' := hidle t'
  rwa [← hpc,Function.update_eq_self] at ht'

theorem inv_step (h : Inv s) (hok : proper s a) (hu : step s a=some s') : Inv s' := by
  cases a with
  | init t alloc =>
    obtain ⟨hpc,hu⟩ := Option.ite_none_right_eq_some.mp hu
    cases hu
    exact inv_initEnv h hpc hok alloc
  | initLock t ginit =>
    obtain ⟨hpc,hu⟩ := Option.ite_none_right_eq_some.mp hu
    cases hu
    exact inv_initCount h hpc ginit
  | exit t =>
    obtain ⟨hpc,hu⟩ := Option.ite_none_right_eq_some.mp hu
    cases hu
    exact inv_exitEnv h hok
  | exitLock t =>
    obtain ⟨hpc,hu⟩ := Option.ite_none_right_eq_some.mp hu
    cases hu
    exact inv_exitCount h hpc
  | addEngine t group fit made =>
    obtain ⟨es,hes,hu⟩ := Option.map_eq_some_iff.mp hu
    cases hu
    exact inv_setEnv h hes
  | delEngine t group =>
    obtain ⟨es,hes,hu⟩ := Option.map_eq_some_iff.mp hu
    cases hu
    exact inv_setEnv h hes
  | vopen t group fit made opened =>
    obtain ⟨es,hes,hu⟩ := Option.map_eq_some_iff.mp hu
    cases hu
    exact inv_setEnv h hes
  | clean t i =>
    obtain ⟨es,hes,hu⟩ := Option.bind_eq_some_iff.mp hu
    obtain ⟨e,-,hu⟩ := Option.bind_eq_some_iff.mp hu
    obtain ⟨-,hu⟩ := Option.ite_none_right_eq_some.mp hu
    cases hu
    exact inv_setEnv h hes

/-- Nobody who has been answered is without lsquic, with engines or not. -/
theorem Inv.right (h : Inv s) : Right s := by
  refine ⟨h.counted,?_,h.global,fun t hmem es henv hes => ?_⟩
  · rw [h.counted]
    exact Int.natCast_nonneg _
  · rw [h.global,h.counted]
    exact_mod_cast Finset.card_pos.mpr ⟨t,hmem⟩

/-! ### The condition is exact -/

theorem init_miscounts (h : Inv s) (henv : s.thenv t≠none) (hno : t∉s.ok) (alloc : Bool) : ¬Right (initEnv s t alloc) := by
  intro hright
  obtain ⟨es,henv⟩ := Option.ne_none_iff_exists'.mp henv
  have hcounted := hright.counted
  unfold initEnv at hcounted
  rw [henv] at hcounted
  have hgrows := counted_insert h.counted hno
  change s.thcount=(insert t s.ok).card at hcounted
  omega

theorem exit_miscounts {es : List Engine} (h : Inv s) (henv : s.thenv t=some es)
    (hno : ¬(t∈s.ok ∧ ∀ e∈es,e.count=0)) : ¬Right (exitCount (exitEnv s t) t) := by
  intro hright
  have hcounted := hright.counted
  unfold exitEnv at hcounted
  rw [henv] at hcounted
  cases hdel : (dpqicDelEngine es none).1 with
  | nil =>
    -- the environment goes, but it has not been counted
    have hunused : ∀ e∈es,e.count=0 := fun e he =>
      (not_not.mp fun hc => List.filter_eq_nil_iff.mp hdel e he (decide_eq_true hc)).1
    have hout : t∉s.ok := fun hmem => hno ⟨hmem,hunused⟩
    simp only [hdel,exitCount,Sys.setPc,Sys.setEnv,Function.update_self,if_pos,Finset.erase_eq_of_notMem hout] at hcounted
    have := h.counted
    omega
  | cons e es' =>
    -- the environment stays, but it is no longer counted
    simp only [hdel,exitCount,Sys.setPc,Sys.setEnv,Function.update_self,reduceCtorEq,if_false] at hcounted
    have := h.counted
    omega

theorem improper_breaks (h : Inv s) (hno : ¬proper s a) (hu : step s a=some s') :
    ∃ as u,exec step s (a::as)=some u ∧ ¬Right u := by
  cases a with
  | init t alloc =>
    obtain ⟨henv,hout⟩ := Classical.not_imp.mp hno
    obtain ⟨hpc,-⟩ := Option.ite_none_right_eq_some.mp hu
    refine ⟨[],initEnv s t alloc,?_,init_miscounts h henv hout alloc⟩
    simp only [exec,step,if_pos hpc,Option.bind_some]
  | exit t =>
    simp only [proper,not_forall] at hno
    obtain ⟨es,henv,hout⟩ := hno
    obtain ⟨hpc,-⟩ := Option.ite_none_right_eq_some.mp hu
    refine ⟨[.exitLock t],exitCount (exitEnv s t) t,?_,exit_miscounts h henv hout⟩
    have hexit : (exitEnv s t).pc t=.exit := by
      unfold exitEnv
      rw [henv]
      cases hdel : (dpqicDelEngine es none).1 with
      | nil =>
        simp only [hdel]
        exact Function.update_self t _ _
      | cons e es' =>
        simp only [hdel]
        exact Function.update_self t _ _
    simp only [exec,step,if_pos hpc,if_pos hexit,Option.bind_some]
  | initLock t ginit => exact absurd trivial hno
  | exitLock t => exact absurd trivial hno
  | addEngine t group fit made => exact absurd trivial hno
  | delEngine t group => exact absurd trivial hno
  | vopen t group fit made opened => exact absurd trivial hno
  | clean t i => exact absurd trivial hno

end Steps

theorem thcount_right {s : Sys τ} (h : Reach step proper {} s) : Right s := by
  have hinv : Inv s := h.invariant inv_start fun _ _ _ hi hok hu => inv_step hi hok hu
  exact hinv.right

instance (s : Sys τ) (a : Act τ) : Decidable (proper s a) := by
  unfold proper
  split <;> infer_instance

/-- Thread 1 fails to allocate its environment at first, and outlives thread 0. -/
def twoThreads : List (Act ℕ) :=
  [.init 0 true,.init 1 false,.init 1 true,.initLock 1 true,.initLock 0 true,.init 0 true,.vopen 0 [104] true true true,
    .vopen 1 [104] true true true,.clean 0 0,.exit 0,.exitLock 0,.exit 0]

theorem thcount_two : ∃ s : Sys ℕ,(s.thcount=1 ∧ s.lib=true) ∧ Right s := by
  have hrun : ((execOk step proper {} twoThreads).any fun s => decide (s.thcount=1 ∧ s.lib=true))=true := by
    decide +kernel
  obtain ⟨s,hs,hr⟩ := (Option.any_eq_true _ _).mp hrun
  exact ⟨s,of_decide_eq_true hr,thcount_right (execOk_reach hs)⟩

/-- A thread exits while a listener uses its engine. -/
def busyExit : List (Act ℕ) := [.init 0 true,.initLock 0 true,.vopen 0 [104] true true true,.exit 0,.exitLock 0]

/-- lsquic is cleaned up, and the thread still has the engine. -/
theorem busy_cleanup : ¬∀ s : Sys ℕ,Reach step anyStep {} s → Right s := by
  intro hall
  have hrun : ((exec step {} busyExit).any fun s => decide (0∈s.ok ∧ s.thcount=0))=true := by
    decide +kernel
  obtain ⟨s,hs,hr⟩ := (Option.any_eq_true _ _).mp hrun
  obtain ⟨hmem,hzero⟩ := of_decide_eq_true hr
  have hcounted := (hall s (exec_reach hs)).counted
  rw [hzero] at hcounted
  have hpos := Finset.card_pos.mpr ⟨0,hmem⟩
  omega

end Dpapp.QicThenv
