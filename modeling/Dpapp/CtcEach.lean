import Dpapp.Machine
import Dpapp.Ret
import Mathlib.Data.List.Nodup
import Mathlib.Order.Defs.LinearOrder

/-! # A function on every worker of a type (dpcwc_aux.c, dpcpp_aux.cc, dpasc.lua)

`dpcwc_ctc_each`, `ctc_each` and `M.ctc_each`: the calls are sent one after the other, and then awaited one after the
other, whatever the order in which the workers answer. -/

set_option linter.unusedSectionVars false

namespace Dpapp.CtcEach
open Dpapp.Machine Dpapp.Ret

/-- The implementations. `cwcMain` is the one in C, called from the main coroutine (a step or an exit function), where an
await does not suspend. -/
inductive Impl
  | cwc | cwcMain | cpp | lua
deriving DecidableEq

/-- What comes of a dispatch: the call is on its way, `dpele_new` fails, or `dpevp_add` does. -/
inductive Sent
  | wait
  | new (errno : Dpret)
  | add (err : Dpret)
deriving DecidableEq

def Sent.ret : Sent → Dpret
  | .wait => dpeWait
  | .new errno => errno
  | .add err => err

/-- A call of ctc_each: the workers of the type, what comes of the dispatch to each of them, and what each of them would
answer. `dpele_new` leaves a negative code in errno. -/
structure Call (ω : Type*) where
  impl : Impl
  workers : List ω
  out : ω → Sent
  ans : ω → Dpret
  distinct : workers.Nodup
  fails : ∀ w,out w≠.wait → dpretIserr (out w).ret ∧ (out w).ret≠dpeWait

inductive Stat
  | idle | sent | running | answered
deriving DecidableEq

/-- Where the caller is: in the first loop with these workers left, in the second with these calls, or back. -/
inductive Pc (ω : Type*)
  | dispatch (rest : List ω)
  | await (calls : List ω)
  | done (ret : Dpret)
deriving DecidableEq

structure State (ω : Type*) where
  pc : Pc ω
  lastErr : Dpret := dpeOk
  calls : List ω := []
  stat : ω → Stat := fun _ => .idle
  runs : ω → ℕ := fun _ => 0

inductive Act (ω : Type*)
  | caller
  | run (w : ω)
  | answer (w : ω)
deriving DecidableEq

variable {ω : Type*} [DecidableEq ω]

/-- C and C++ refuse a type without workers, Lua has an empty list of them. -/
def start (c : Call ω) : State ω :=
  {pc := if c.workers=[] ∧ c.impl≠.lua then .done dpeInval else .dispatch c.workers}

/-- `dpcwc_await`, `await` or `dplua.await` on the call to `w`: none while the caller is suspended. The yield of the main
coroutine comes back at once, with a zero. -/
def await (c : Call ω) (s : State ω) (w : ω) : Option Dpret :=
  if s.stat w=.answered then some (c.ans w) else if c.impl=.cwcMain then some dpeOk else none

def step (c : Call ω) (s : State ω) : Act ω → Option (State ω)
  | .caller =>
      match s.pc with
      | .dispatch [] => some {s with pc := .await s.calls}
      | .dispatch (w::rest) =>
          if c.out w=.wait then
            some {s with
              pc := .dispatch rest, lastErr := dpeWait, calls := s.calls++[w], stat := Function.update s.stat w .sent}
          else some {s with pc := .await s.calls, lastErr := (c.out w).ret}
      | .await [] => some {s with pc := .done s.lastErr}
      | .await (w::rest) => (await c s w).map fun r => {s with pc := .await rest, lastErr := r}
      | .done _ => none
  | .run w =>
      if s.stat w=.sent then
        some {s with stat := Function.update s.stat w .running, runs := Function.update s.runs w (s.runs w+1)}
      else none
  | .answer w => if s.stat w=.running then some {s with stat := Function.update s.stat w .answered} else none

/-- The calls that are on their way before the first loop ends. -/
def Call.dispatched (c : Call ω) : List ω := c.workers.takeWhile fun w => c.out w=.wait

/-- No worker runs the function twice; on return each worker that it has been sent to has run and answered, a result that
is not negative tells that all has gone well, and the other implementations make the same of the same answers. -/
structure Good (c : Call ω) (s : State ω) : Prop where
  once : ∀ w,s.runs w≤1
  ret : ∀ r,s.pc=.done r → ∀ w∈s.calls,s.runs w=1 ∧ s.stat w=.answered
  well : ∀ r,s.pc=.done r → 0≤r → s.calls=c.workers ∧ ∀ w∈s.calls,0≤c.ans w
  same : ∀ r,s.pc=.done r → ∀ impl,impl≠.cwcMain → ∀ s' r',
    Reach (step {c with impl := impl}) anyStep (start {c with impl := impl}) s' → s'.pc=.done r' → r'=r

/-- There are workers; and no call gets on its way, or the caller is no main coroutine, and the worker that is awaited
last answers with an error or there is no error at all. -/
def Call.calm (c : Call ω) : Prop :=
  c.workers≠[] ∧ ∀ w,c.dispatched.getLast?=some w →
    c.impl≠.cwcMain ∧ (c.ans w<0 ∨ c.dispatched=c.workers ∧ ∀ w∈c.workers,0≤c.ans w)

/-- What the caller gets: the answer to the call that it awaits last, or else why there is none. -/
def Call.result (c : Call ω) : Dpret :=
  match c.dispatched.getLast? with
  | some w => c.ans w
  | none =>
      match c.workers with
      | [] => if c.impl=.lua then dpeOk else dpeInval
      | w::_ => (c.out w).ret

/-- What is known where the caller is. -/
def At (c : Call ω) (s : State ω) : Prop :=
  match s.pc with
  | .dispatch rest => s.calls++rest=c.workers ∧ (∀ w∈s.calls,c.out w=.wait) ∧ (s.calls=[] → s.lastErr=dpeOk) ∧
      (c.workers=[] → c.impl=.lua)
  | .await rest => s.calls=c.dispatched ∧ (s.calls=[] → s.lastErr=c.result) ∧ ∃ l,s.calls=l++rest ∧
      (c.impl≠.cwcMain → (∀ w∈l,s.stat w=.answered) ∧ ∀ w,l.getLast?=some w → s.lastErr=c.ans w)
  | .done r => s.calls=c.dispatched ∧ (s.calls=[] → r=c.result) ∧
      (c.impl≠.cwcMain → (∀ w∈s.calls,s.stat w=.answered) ∧ ∀ w,s.calls.getLast?=some w → r=c.ans w)

structure Inv (c : Call ω) (s : State ω) : Prop where
  runs : ∀ w,s.runs w=if s.stat w=.running ∨ s.stat w=.answered then 1 else 0
  idle : ∀ w,w∉s.calls → s.stat w=.idle
  place : At c s

section Steps
variable {c : Call ω} {s t : State ω} {w : ω} {a : Act ω}

theorem start_inv (c : Call ω) : Inv c (start c) := by
  refine ⟨fun w => (if_neg (by simp [start])).symm,fun w _ => rfl,?_⟩
  unfold start
  split
  · rename_i h
    have hd : c.dispatched=[] := by rw [Call.dispatched,h.1,List.takeWhile_nil]
    refine ⟨hd.symm,fun _ => ?_,fun _ => ⟨fun w hw => (by cases hw),fun w hw => (by cases hw)⟩⟩
    unfold Call.result
    rw [hd]
    simp only [List.getLast?_nil]
    rw [h.1]
    exact (if_neg h.2).symm
  · rename_i h
    exact ⟨List.nil_append _,fun w hw => (by cases hw),fun _ => rfl,fun hw => not_not.mp fun hl => h ⟨hw,hl⟩⟩

/-- The calls of other workers stay as they are, and no answer is taken back. -/
theorem at_stat {f : ω → Stat} {g : ω → ℕ} (h : At c s) (hf : ∀ v,s.stat v=.answered → f v=.answered) :
    At c {s with stat := f, runs := g} := by
  unfold At at h ⊢
  simp only
  split
  · rename_i hpc
    rw [hpc] at h
    exact h
  · rename_i hpc
    rw [hpc] at h
    obtain ⟨hcalls,herr,l,hl,hmain⟩ := h
    exact ⟨hcalls,herr,l,hl,fun hm => ⟨fun v hv => hf v ((hmain hm).1 v hv),(hmain hm).2⟩⟩
  · rename_i hpc
    rw [hpc] at h
    obtain ⟨hcalls,herr,hmain⟩ := h
    exact ⟨hcalls,herr,fun hm => ⟨fun v hv => hf v ((hmain hm).1 v hv),(hmain hm).2⟩⟩

/-- A worker goes on. -/
theorem move_inv {x : Stat} {n : ℕ} (h : Inv c s) (hw : s.stat w≠.idle) (hn : s.stat w≠.answered)
    (hx : n=if x=.running ∨ x=.answered then 1 else 0) :
    Inv c {s with stat := Function.update s.stat w x, runs := Function.update s.runs w n} := by
  refine ⟨fun v => ?_,fun v hv => ?_,at_stat h.place fun v hv => ?_⟩
  · by_cases hvw : v=w
    · subst hvw
      simp only [Function.update_self]
      exact hx
    · simp only [Function.update_of_ne hvw]
      exact h.runs v
  · have hvw : v≠w := by
      rintro rfl
      exact hw (h.idle v hv)
    exact (Function.update_of_ne hvw ..).trans (h.idle v hv)
  · have hvw : v≠w := by
      rintro rfl
      exact hn hv
    rw [Function.update_of_ne hvw]
    exact hv

/-- The first loop is over. -/
theorem dispatched_eq {l r : List ω} (hl : l++r=c.workers) (hw : ∀ w∈l,c.out w=.wait)
    (hr : ∀ w,r.head?=some w → c.out w≠.wait) : c.dispatched=l := by
  have hp : ∀ w∈l,decide (c.out w=.wait)=true := fun w hin => decide_eq_true (hw w hin)
  unfold Call.dispatched
  rw [← hl,List.takeWhile_append_of_pos hp]
  cases r with
  | nil => rw [List.takeWhile_nil,List.append_nil]
  | cons w r => rw [List.takeWhile_cons,if_neg (by simpa using hr w rfl),List.append_nil]

/-- From the first loop to the second. -/
theorem loop_inv {r : List ω} {e : Dpret} (h : Inv c s) (hl : s.calls++r=c.workers) (hw : ∀ w∈s.calls,c.out w=.wait)
    (hr : ∀ w,r.head?=some w → c.out w≠.wait) (he : s.calls=[] → e=c.result) :
    Inv c {s with pc := .await s.calls, lastErr := e} :=
  ⟨h.runs,h.idle,(dispatched_eq hl hw hr).symm,he,[],rfl,fun _ => ⟨fun w hw => (by cases hw),fun w hw => (by cases hw)⟩⟩

/-- A call is on its way. -/
theorem sent_inv {rest : List ω} (h : Inv c s) (hpc : s.pc=.dispatch (w::rest)) (hw : c.out w=.wait) :
    Inv c {s with
      pc := .dispatch rest, lastErr := dpeWait, calls := s.calls++[w], stat := Function.update s.stat w .sent} := by
  have hat := h.place
  unfold At at hat
  rw [hpc] at hat
  obtain ⟨hcalls,hwait,herr,hlua⟩ := hat
  have hin : w∉s.calls := fun hin => by
    have hnodup := c.distinct
    rw [← hcalls] at hnodup
    exact (List.nodup_append.mp hnodup).2.2 w hin w List.mem_cons_self rfl
  refine ⟨fun v => ?_,fun v hv => ?_,(List.append_cons ..).symm.trans hcalls,fun v hv => ?_,fun hnil => ?_,hlua⟩
  · by_cases hvw : v=w
    · subst hvw
      simp only [Function.update_self]
      rw [h.runs v,h.idle v hin]
      rfl
    · simp only [Function.update_of_ne hvw]
      exact h.runs v
  · have hvw : v≠w := by
      rintro rfl
      exact hv (List.mem_append_right _ (List.mem_singleton.mpr rfl))
    exact (Function.update_of_ne hvw ..).trans (h.idle v fun hin => hv (List.mem_append_left _ hin))
  · rcases List.mem_append.mp hv with hv | hv
    · exact hwait v hv
    · rw [List.mem_singleton.mp hv]
      exact hw
  · exact (List.append_ne_nil_of_right_ne_nil _ (List.cons_ne_nil _ _) hnil).elim

/-- A call has been awaited. -/
theorem await_inv {rest : List ω} {r : Dpret} (h : Inv c s) (hpc : s.pc=.await (w::rest)) (hr : await c s w=some r) :
    Inv c {s with pc := .await rest, lastErr := r} := by
  have hat := h.place
  unfold At at hat
  rw [hpc] at hat
  obtain ⟨hcalls,herr,l,hl,hmain⟩ := hat
  refine ⟨h.runs,h.idle,hcalls,fun hnil => ?_,l++[w],hl.trans (List.append_cons ..),fun hm => ?_⟩
  · rw [show s.calls=[] from hnil] at hl
    exact (List.append_ne_nil_of_right_ne_nil _ (List.cons_ne_nil _ _) hl.symm).elim
  · unfold await at hr
    rw [if_neg hm] at hr
    split at hr
    · rename_i hans
      cases hr
      refine ⟨fun v hv => ?_,fun v hv => ?_⟩
      · rcases List.mem_append.mp hv with hv | hv
        · exact (hmain hm).1 v hv
        · rw [List.mem_singleton.mp hv]
          exact hans
      · rw [List.getLast?_concat] at hv
        cases hv
        rfl
    · cases hr

theorem caller_inv (h : Inv c s) (hu : step c s .caller=some t) : Inv c t := by
  have hat := h.place
  unfold At at hat
  simp only [step] at hu
  split at hu
  · rename_i hpc
    rw [hpc] at hat
    obtain ⟨hcalls,hwait,herr,hlua⟩ := hat
    cases hu
    refine loop_inv h hcalls hwait (fun w hw => (by cases hw)) fun hnil => ?_
    have hw : c.workers=[] := by rw [← hcalls,hnil,List.append_nil]
    unfold Call.result Call.dispatched
    rw [hw]
    exact (herr hnil).trans (if_pos (hlua hw)).symm
  · rename_i w rest hpc
    split at hu
    · rename_i hw
      cases hu
      exact sent_inv h hpc hw
    · rename_i hw
      rw [hpc] at hat
      obtain ⟨hcalls,hwait,-,-⟩ := hat
      cases hu
      refine loop_inv h hcalls hwait (fun v hv => (by cases hv; exact hw)) fun hnil => ?_
      rw [hnil,List.nil_append] at hcalls
      unfold Call.result Call.dispatched
      rw [← hcalls,List.takeWhile_cons,if_neg (by simpa using hw)]
      rfl
  · rename_i hpc
    rw [hpc] at hat
    obtain ⟨hcalls,herr,l,hl,hmain⟩ := hat
    cases hu
    rw [List.append_nil] at hl
    refine ⟨h.runs,h.idle,hcalls,herr,fun hm => ?_⟩
    simp only [hl]
    exact hmain hm
  · rename_i w rest hpc
    obtain ⟨r,hr,rfl⟩ := Option.map_eq_some_iff.mp hu
    exact await_inv h hpc hr
  · cases hu

theorem inv_step (h : Inv c s) (hu : step c s a=some t) : Inv c t := by
  cases a with
  | caller => exact caller_inv h hu
  | run w =>
    simp only [step] at hu
    split at hu
    · rename_i hw
      cases hu
      have hz := h.runs w
      rw [hw,if_neg (by decide)] at hz
      exact move_inv h (by rw [hw]; decide) (by rw [hw]; decide) (by rw [hz]; rfl)
    · cases hu
  | answer w =>
    simp only [step] at hu
    split at hu
    · rename_i hw
      cases hu
      have hz := h.runs w
      rw [hw,if_pos (by decide)] at hz
      have hm : Inv c _ := move_inv (x := .answered) h (by rw [hw]; decide) (by rw [hw]; decide) hz
      rw [Function.update_eq_self] at hm
      exact hm
    · cases hu

theorem reach_inv (h : Reach (step c) anyStep (start c) s) : Inv c s :=
  h.invariant (start_inv c) fun _ _ _ hi _ hu => inv_step hi hu

theorem reach_done {r : Dpret} (h : Reach (step c) anyStep (start c) s) (hr : s.pc=.done r) :
    s.calls=c.dispatched ∧ (s.calls=[] → r=c.result) ∧
      (c.impl≠.cwcMain → (∀ w∈s.calls,s.stat w=.answered) ∧ ∀ w,s.calls.getLast?=some w → r=c.ans w) := by
  have hat := (reach_inv h).place
  unfold At at hat
  rw [hr] at hat
  exact hat

/-- The result depends on the dispatches and the answers only. -/
theorem done_result {r : Dpret} (h : Reach (step c) anyStep (start c) s) (hr : s.pc=.done r)
    (hm : c.impl≠.cwcMain ∨ c.dispatched=[]) : r=c.result := by
  obtain ⟨hcalls,hnil,hmain⟩ := reach_done h hr
  cases hlast : c.dispatched.getLast? with
  | none => exact hnil (hcalls.trans (List.getLast?_eq_none_iff.mp hlast))
  | some w =>
    have hm : c.impl≠.cwcMain := hm.resolve_right fun hd => by
      rw [hd] at hlast
      cases hlast
    unfold Call.result
    rw [hlast]
    exact (hmain hm).2 w (hcalls▸hlast)

/-! ### A run that returns -/

/-- Every call is answered just before it is awaited, and not at all where the await does not suspend. -/
theorem await_completes (rest : List ω) (hpc : s.pc=.await rest) (hnodup : rest.Nodup) (hsent : ∀ w∈rest,s.stat w=.sent)
    (hmain : c.impl=.cwcMain → ∀ w,s.stat w≠.answered) :
    ∃ t r,Reach (step c) anyStep s t ∧ t.pc=.done r ∧ (c.impl=.cwcMain → ∀ w,t.stat w≠.answered) := by
  induction rest generalizing s with
  | nil =>
    have hstep : step c s .caller=some {s with pc := .done s.lastErr} := by simp [step,hpc]
    exact ⟨_,_,.tail .refl trivial hstep,rfl,hmain⟩
  | cons w rest ih =>
    obtain ⟨hw,hnodup⟩ := List.nodup_cons.mp hnodup
    have hs := hsent w List.mem_cons_self
    by_cases hm : c.impl=.cwcMain
    · have hstep : step c s .caller=some {s with pc := .await rest, lastErr := dpeOk} := by
        simp [step,hpc,await,hs,hm]
      obtain ⟨t,r,ht,hr,hans⟩ := ih (s := {s with pc := .await rest, lastErr := dpeOk}) rfl hnodup
        (fun v hv => hsent v (List.mem_cons_of_mem _ hv)) hmain
      exact ⟨t,r,(Reach.tail .refl trivial hstep).trans ht,hr,hans⟩
    · let s1 : State ω := {s with
        stat := Function.update s.stat w .running, runs := Function.update s.runs w (s.runs w+1)}
      let s2 : State ω := {s1 with stat := Function.update s1.stat w .answered}
      let s3 : State ω := {s2 with pc := .await rest, lastErr := c.ans w}
      have h1 : step c s (.run w)=some s1 := if_pos hs
      have h2 : step c s1 (.answer w)=some s2 := if_pos (Function.update_self ..)
      have h3 : step c s2 .caller=some s3 := by simp [s3,s2,s1,step,hpc,await]
      have hstat : ∀ v∈rest,s3.stat v=.sent := by
        intro v hv
        have hvw : v≠w := fun h => hw (h▸hv)
        change Function.update (Function.update s.stat w .running) w .answered v=.sent
        rw [Function.update_of_ne hvw,Function.update_of_ne hvw]
        exact hsent v (List.mem_cons_of_mem _ hv)
      obtain ⟨t,r,ht,hr,hans⟩ := ih (s := s3) rfl hnodup hstat fun h => (hm h).elim
      exact ⟨t,r,((Reach.tail .refl trivial h1).tail trivial h2 |>.tail trivial h3).trans ht,hr,hans⟩

theorem dispatch_completes (rest : List ω) (hpc : s.pc=.dispatch rest) (hnodup : (s.calls++rest).Nodup)
    (hstat : ∀ w,s.stat w=if w∈s.calls then .sent else .idle) :
    ∃ t r,Reach (step c) anyStep s t ∧ t.pc=.done r ∧ (c.impl=.cwcMain → ∀ w,t.stat w≠.answered) := by
  have hans : ∀ w,s.stat w≠.answered := fun w => by
    rw [hstat w]
    split <;> exact Stat.noConfusion
  have hover (e : Dpret) : ∃ t r,Reach (step c) anyStep {s with pc := .await s.calls, lastErr := e} t ∧ t.pc=.done r ∧
      (c.impl=.cwcMain → ∀ w,t.stat w≠.answered) :=
    await_completes (s := {s with pc := .await s.calls, lastErr := e}) s.calls rfl (List.nodup_append.mp hnodup).1
      (fun w hw => (hstat w).trans (if_pos hw)) fun _ => hans
  induction rest generalizing s with
  | nil =>
    have hstep : step c s .caller=some {s with pc := .await s.calls} := by simp [step,hpc]
    obtain ⟨t,r,ht,h⟩ := hover s.lastErr
    exact ⟨t,r,(Reach.tail .refl trivial hstep).trans ht,h⟩
  | cons w rest ih =>
    by_cases hw : c.out w=.wait
    · let s1 : State ω := {s with
        pc := .dispatch rest, lastErr := dpeWait, calls := s.calls++[w], stat := Function.update s.stat w .sent}
      have hstep : step c s .caller=some s1 := by simp [s1,step,hpc,hw]
      have hstat1 : ∀ v,s1.stat v=if v∈s1.calls then .sent else .idle := by
        intro v
        change Function.update s.stat w .sent v=if v∈s.calls++[w] then .sent else .idle
        by_cases hvw : v=w
        · rw [hvw,Function.update_self,if_pos (List.mem_append_right _ (List.mem_singleton.mpr rfl))]
        · rw [Function.update_of_ne hvw,hstat v]
          simp [hvw]
      have hans1 : ∀ v,s1.stat v≠.answered := fun v => by
        rw [hstat1 v]
        split <;> exact Stat.noConfusion
      have hnodup1 : (s1.calls++rest).Nodup := by
        change ((s.calls++[w])++rest).Nodup
        rw [← List.append_cons]
        exact hnodup
      obtain ⟨t,r,ht,h⟩ := ih (s := s1) rfl hnodup1 hstat1 hans1
        fun e => await_completes (s := {s1 with pc := .await s1.calls, lastErr := e}) s1.calls rfl
          (List.nodup_append.mp hnodup1).1 (fun v hv => (hstat1 v).trans (if_pos hv)) fun _ => hans1
      exact ⟨t,r,(Reach.tail .refl trivial hstep).trans ht,h⟩
    · have hstep : step c s .caller=some {s with pc := .await s.calls, lastErr := (c.out w).ret} := by simp [step,hpc,hw]
      obtain ⟨t,r,ht,h⟩ := hover (c.out w).ret
      exact ⟨t,r,(Reach.tail .refl trivial hstep).trans ht,h⟩

theorem completes (c : Call ω) : ∃ t r,Reach (step c) anyStep (start c) t ∧ t.pc=.done r ∧
    (c.impl=.cwcMain → ∀ w,t.stat w≠.answered) := by
  unfold start
  split
  · exact ⟨_,_,.refl,rfl,fun _ _ => Stat.noConfusion⟩
  · exact dispatch_completes c.workers rfl c.distinct fun w => rfl

/-! ### When the call keeps its promise -/

theorem dispatched_nil (hne : c.workers≠[]) (hd : c.dispatched=[]) :
    ∃ w rest,c.workers=w::rest ∧ c.out w≠.wait ∧ c.result=(c.out w).ret := by
  cases hw : c.workers with
  | nil => exact (hne hw).elim
  | cons w rest =>
    have hout : c.out w≠.wait := fun h => by
      unfold Call.dispatched at hd
      rw [hw,List.takeWhile_cons,if_pos (decide_eq_true h)] at hd
      cases hd
    refine ⟨w,rest,rfl,hout,?_⟩
    unfold Call.result
    rw [hd,hw]
    rfl

theorem result_impl (c : Call ω) (hne : c.workers≠[]) (impl : Impl) : Call.result {c with impl := impl}=c.result := by
  unfold Call.result
  rw [show Call.dispatched {c with impl := impl}=c.dispatched from rfl]
  split
  · rfl
  · split
    · rename_i hw
      exact (hne hw).elim
    · rename_i w rest hw
      change (c.out w).ret=_
      rw [show c.workers=w::rest from hw]

theorem result_nil (hw : c.workers=[]) : c.result=if c.impl=.lua then dpeOk else dpeInval := by
  unfold Call.result Call.dispatched
  rw [hw]
  rfl

theorem good_of_calm (hc : c.calm) (h : Reach (step c) anyStep (start c) s) : Good c s := by
  obtain ⟨hne,hc⟩ := hc
  have hinv := reach_inv h
  have hmain : c.impl≠.cwcMain ∨ c.dispatched=[] := by
    cases hlast : c.dispatched.getLast? with
    | none => exact .inr (List.getLast?_eq_none_iff.mp hlast)
    | some w => exact .inl (hc w hlast).1
  refine ⟨fun w => ?_,fun r hr w hw => ?_,fun r hr hpos => ?_,fun r hr impl hi s' r' h' hr' => ?_⟩
  · rw [hinv.runs w]
    split
    · exact Nat.le_refl _
    · exact Nat.zero_le _
  · obtain ⟨hcalls,-,hans⟩ := reach_done h hr
    have hm : c.impl≠.cwcMain := hmain.resolve_right fun hd => by
      rw [hcalls,hd] at hw
      cases hw
    have hw := (hans hm).1 w hw
    exact ⟨by rw [hinv.runs w,if_pos (.inr hw)],hw⟩
  · obtain ⟨hcalls,-,-⟩ := reach_done h hr
    have hres := done_result h hr hmain
    cases hlast : c.dispatched.getLast? with
    | none =>
      obtain ⟨w,-,-,hout,hw⟩ := dispatched_nil hne (List.getLast?_eq_none_iff.mp hlast)
      rw [hres,hw] at hpos
      exact absurd hpos (Int.not_le.mpr (c.fails w hout).1)
    | some w =>
      have hans : c.result=c.ans w := by
        unfold Call.result
        rw [hlast]
      rcases (hc w hlast).2 with hneg | ⟨hall,hgood⟩
      · rw [hres,hans] at hpos
        exact absurd hneg (Int.not_lt.mpr hpos)
      · rw [hcalls,hall]
        exact ⟨rfl,hgood⟩
  · have hres' : r'=Call.result {c with impl := impl} := done_result h' hr' (.inl hi)
    rw [hres',result_impl c hne,done_result h hr hmain]

/-- Lua has 0 where the others have DPE_INVAL. -/
theorem workers_ne (h : ∀ s,Reach (step c) anyStep (start c) s → Good c s) : c.workers≠[] := by
  intro hw
  have hd : c.dispatched=[] := by
    rw [Call.dispatched,hw]
    rfl
  obtain ⟨s,r,hs,hr,-⟩ := completes c
  have hsame := (h s hs).same r hr
  obtain ⟨s1,r1,hs1,hr1,-⟩ := completes {c with impl := .cwc}
  obtain ⟨s2,r2,hs2,hr2,-⟩ := completes {c with impl := .lua}
  have h1 := (done_result hs1 hr1 (.inr hd)).trans (result_nil (c := {c with impl := .cwc}) hw)
  have h2 := (done_result hs2 hr2 (.inr hd)).trans (result_nil (c := {c with impl := .lua}) hw)
  rw [hsame .cwc (by decide) s1 r1 hs1 hr1] at h1
  rw [hsame .lua (by decide) s2 r2 hs2 hr2] at h2
  have hret : dpeInval=dpeOk := h1.symm.trans h2
  exact absurd hret (by decide)

/-- For every number of workers, whatever the dispatches come to, and in every order of the answers. -/
theorem ctc_each (c : Call ω) : (∀ s,Reach (step c) anyStep (start c) s → Good c s) ↔ c.calm := by
  constructor
  · intro h
    refine ⟨workers_ne h,fun w hlast => ?_⟩
    obtain ⟨s,r,hs,hr,hmain⟩ := completes c
    have hgood := h s hs
    obtain ⟨hcalls,-,hans⟩ := reach_done hs hr
    have hw : w∈s.calls := hcalls▸List.mem_of_getLast? hlast
    have hm : c.impl≠.cwcMain := fun hm => hmain hm w (hgood.ret r hr w hw).2
    refine ⟨hm,?_⟩
    have hrw : r=c.ans w := (hans hm).2 w (hcalls▸hlast)
    by_cases hneg : c.ans w<0
    · exact .inl hneg
    · obtain ⟨hall,hpos⟩ := hgood.well r hr (hrw▸Int.not_lt.mp hneg)
      refine .inr ⟨hcalls.symm.trans hall,fun v hv => hpos v (hall▸hv)⟩
  · exact fun hc s hs => good_of_calm hc hs

end Steps

/-- Two workers; the first answers with an error, the second does not. -/
def firstFails : Call (Fin 2) where
  impl := .cwc
  workers := [0,1]
  out _ := .wait
  ans w := if w=0 then dpeInval else dpeOk
  distinct := by decide
  fails := fun w hw => (hw rfl).elim

theorem ctc_each_overwrites : ¬∀ (c : Call (Fin 2)) (s : State (Fin 2)),
    Reach (step c) anyStep (start c) s → Good c s := by
  intro hall
  have hrun : ((exec (step firstFails) (start firstFails)
      [.caller,.caller,.caller,.run 0,.answer 0,.run 1,.answer 1,.caller,.caller,.caller]).any
        fun s => decide (s.pc=.done dpeOk) && decide (s.calls=[0,1]))=true := by decide +kernel
  obtain ⟨s,hs,hf⟩ := (Option.any_eq_true _ _).mp hrun
  obtain ⟨hpc,hcalls⟩ := Bool.and_eq_true_iff.mp hf
  have hwell := (hall firstFails s (exec_reach hs)).well dpeOk (of_decide_eq_true hpc) (Int.le_refl _)
  have hzero := hwell.2 0 (by rw [of_decide_eq_true hcalls]; decide)
  exact absurd hzero (by decide)

end Dpapp.CtcEach
