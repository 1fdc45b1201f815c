import Dpapp.Machine
import Dpapp.Ret
import Mathlib.Data.Fintype.Prod
import Mathlib.Data.List.Nodup

/-! # await, cease and the main loop of dplua (dplua.lua)

The threads of a process, each with its cache of coroutines and timer functions, and the elements that they use. Which
element dpevp_pop reaps next, and what a prep function returns, is left open. -/

set_option linter.unusedSectionVars false

namespace Dpapp.LuaAwait
open Dpapp.Machine Dpapp.Ret

inductive Kind | efd | ctc | tmr | usd
  deriving DecidableEq

/-- What the cache holds: a coroutine that waits, or `{func, {...}}` of a timer. -/
inductive Value (γ : Type*)
  | thread (c : γ)
  | body
  deriving DecidableEq

/-- `own` is the `fromid` of a CTC that has been submitted; any other element is the thread's that has made it. `data` is
data[0] of a timer's scratch data. -/
structure Ele (τ : Type*) where
  kind : Kind := .usd
  own : Option τ := none
  doing : Bool := false
  isDetach : Bool := false
  refc : ℤ := 0
  cop : ℤ := 0
  data : ℤ := 0

/-- A coroutine has been resumed for `ele`, through the slot; `awaited` is what it was waiting for. -/
structure Resume (τ κ γ : Type*) where
  thread : τ
  co : γ
  ele : κ
  slot : ℤ
  awaited : Option (κ × ℤ)
  deriving DecidableEq

/- History: `waits` are the coroutines that are suspended in `await`, with the element and the slot; `resumed` are
those that have been resumed, the latest last. -/
structure State (τ κ γ : Type*) where
  ele : κ → Ele τ := fun _ => {}
  alive : κ → Bool := fun _ => false
  cache : τ × ℤ → Option (Value γ) := fun _ => none
  cacheIdx : τ → ℤ := fun _ => 1
  waits : τ × γ → Option (κ × ℤ) := fun _ => none
  resumed : List (Resume τ κ γ) := []

variable {τ κ γ : Type*} [DecidableEq τ] [DecidableEq κ] [DecidableEq γ]

def State.setEle (s : State τ κ γ) (k : κ) (e : Ele τ) : State τ κ γ := {s with ele := Function.update s.ele k e}

/-- `_cache_take`: what the slot holds, which is free then. -/
def cacheTake (s : State τ κ γ) (t : τ) (i : ℤ) : Option (Value γ) × State τ κ γ :=
  (s.cache (t,i),{s with cache := Function.update s.cache (t,i) none})

/-- `_cache_save` -/
def cacheSave (s : State τ κ γ) (t : τ) (v : Value γ) : ℤ × State τ κ γ :=
  (s.cacheIdx t,{s with
    cache := Function.update s.cache (t,s.cacheIdx t) (some v)
    cacheIdx := Function.update s.cacheIdx t (s.cacheIdx t+1)})

/-- `_cop_index`: the 64 bits of `cop` are cast to an int. -/
def copIndex (e : Ele τ) : ℤ := e.cop.bmod (2^32)

/-- coroutine.resume of what the slot has held. -/
def resume (s : State τ κ γ) (t : τ) (k : κ) (i : ℤ) : Option (Value γ) → State τ κ γ
  | some (.thread c) => {s with
      waits := Function.update s.waits (t,c) none
      resumed := s.resumed++[⟨t,c,k,i,s.waits (t,c)⟩]}
  | _ => s

/-- dpele_wait -/
def dpeleWait (e : Ele τ) (cop : ℤ) : Option (Ele τ) :=
  if e.doing=true ∧ e.isDetach=false then some {e with cop := cop} else none

/-- dplua.await: the coroutine is suspended if there is something to wait for. -/
def await (s : State τ κ γ) (t : τ) (c : γ) (k : κ) : State τ κ γ :=
  let (i,s) := cacheSave s t (.thread c)
  match dpeleWait (s.ele k) i with
  | some e => {s.setEle k e with waits := Function.update s.waits (t,c) (some (k,i))}
  | none => (cacheTake s t i).2

/-- What dpevp_end returns; it leaves the element as it is until dpevp_pop reaps it. -/
def dpevpEnd (e : Ele τ) (t : τ) : Dpret :=
  if e.doing=false then dpeOk else if e.kind=.ctc ∧ e.own≠some t then dpePerm else dpeOk

/-- dplua.cease -/
def cease (s : State τ κ γ) (t : τ) (k : κ) : State τ κ γ :=
  let (co,s) := cacheTake s t (copIndex (s.ele k))
  if 0≤dpevpEnd (s.ele k) t then resume s t k (copIndex (s.ele k)) co else s

/-- `_resume_event` -/
def resumeEvent (s : State τ κ γ) (t : τ) (k : κ) : State τ κ γ :=
  let (co,s) := cacheTake s t (copIndex (s.ele k))
  resume s t k (copIndex (s.ele k)) co

/-- What the main loop does with an element that dpevp_pop has returned. A timer's function runs in a coroutine of
its own. -/
def dispatch (s : State τ κ γ) (t : τ) (k : κ) : State τ κ γ :=
  if (s.ele k).kind=.tmr ∧ (s.ele k).data≠0 then
    match cacheTake s t (s.ele k).data with
    | (some _,s) => s
    | (none,s) => resumeEvent s t k
  else resumeEvent s t k

/-- `_dpele_asc_over` of an operation that is over, and the main loop if dpevp_pop returns the element. -/
def reap (s : State τ κ γ) (t : τ) (k : κ) : State τ κ γ :=
  let e := s.ele k
  let s := s.setEle k {e with doing := false}
  if e.refc≤0 then {s with alive := Function.update s.alive k false}
  else if e.isDetach=true then s
  else dispatch s t k

/-- dpevp_add: `ok` tells whether the operation is accepted (it waits, or is over and goes through dpevp_pop), and
`allow` whether it may be added while one is doing. -/
def add (e : Ele τ) (t : τ) (allow : Bool) (data : ℤ) (ok : Bool) : Ele τ :=
  if allow=true ∧ e.kind≠.tmr then e
  else if e.doing=true ∧ allow=false then e
  else
    let e := {e with doing := ok, data := if e.kind=.tmr then data else e.data}
    if e.kind=.ctc ∧ ok=true then {e with own := some t, cop := 0} else e

/-- dpele_new -/
def alloc (s : State τ κ γ) (k : κ) (e : Ele τ) : State τ κ γ :=
  {s.setEle k e with alive := Function.update s.alive k true}

/-- `_timer`; `made` tells whether dpele_new makes the timer, `ok` whether dpevp_add accepts it. -/
def timer (s : State τ κ γ) (t : τ) (k : κ) (made ok : Bool) : State τ κ γ :=
  let (i,s) := cacheSave s t .body
  if made=true ∧ ok=true then alloc s k {kind := .tmr, own := some t, doing := true, refc := 1, data := i}
  else (cacheTake s t i).2

/- `pop t k true` is a CTC that runs on thread `t`: its handler is called, in a coroutine of its own. -/
inductive Act (τ κ γ : Type*)
  | new (t : τ) (k : κ) (kind : Kind)
  | ref (k : κ)
  | del (k : κ)
  | setDetach (k : κ) (b : Bool)
  | add (t : τ) (k : κ) (allow : Bool) (data : ℤ) (ok : Bool)
  | timer (t : τ) (k : κ) (made ok : Bool)
  | await (t : τ) (c : γ) (k : κ)
  | cease (t : τ) (k : κ)
  | pop (t : τ) (k : κ) (run : Bool)

/-- Only a CTC is seen by more than one thread. -/
def usable (s : State τ κ γ) (t : τ) (k : κ) : Prop :=
  s.alive k=true ∧ ((s.ele k).kind=.ctc ∨ (s.ele k).own=some t)

instance (s : State τ κ γ) (t : τ) (k : κ) : Decidable (usable s t k) := inferInstanceAs (Decidable (_ ∧ _))

def step (s : State τ κ γ) : Act τ κ γ → Option (State τ κ γ)
  | .new t k kind =>
      if s.alive k=false then some (alloc s k {kind := kind, own := if kind=.ctc then none else some t, refc := 1})
      else none
  | .ref k =>
      if s.alive k=true ∧ 0<(s.ele k).refc then some (s.setEle k {s.ele k with refc := (s.ele k).refc+1}) else none
  -- an element that is doing is deleted by the loop
  | .del k =>
      if s.alive k=true ∧ 0<(s.ele k).refc then
        let e := s.ele k
        let s := s.setEle k {e with refc := e.refc-1}
        if e.refc=1 ∧ e.doing=false then some {s with alive := Function.update s.alive k false} else some s
      else none
  | .setDetach k b =>
      if s.alive k=true then
        if (s.ele k).doing=true then some s else some (s.setEle k {s.ele k with isDetach := b})
      else none
  | .add t k allow data ok => if usable s t k then some (s.setEle k (add (s.ele k) t allow data ok)) else none
  | .timer t k made ok => if s.alive k=false then some (timer s t k made ok) else none
  | .await t c k => if usable s t k ∧ s.waits (t,c)=none then some (await s t c k) else none
  | .cease t k => if usable s t k then some (cease s t k) else none
  | .pop t k run =>
      if s.alive k=true then
        if run=true then if (s.ele k).kind=.ctc ∧ (s.ele k).doing=true then some s else none
        else if (s.ele k).own=some t then some (reap s t k) else none
      else none

/-! ### When the table is sound -/

/-- Some coroutine waits for the element. -/
def waited (s : State τ κ γ) (k : κ) : Prop := ∃ p,(s.waits p).any (fun w => w.1=k)=true

def isThread : Option (Value γ) → Bool
  | some (.thread _) => true
  | _ => false

/-- What the main loop makes of data[0] of the timer is not a coroutine, and where one waits for the timer not a
function. -/
def harmless (s : State τ κ γ) (t : τ) (k : κ) (data : ℤ) : Prop :=
  data=0 ∨ data<s.cacheIdx t ∧ isThread (s.cache (t,data))=false ∧ (waited s k → s.cache (t,data)=none)

/-- A coroutine waits through a slot below 2^31, for an element of its thread that has a reference, that nobody else
waits for and that is no timer with a function; a cease is of an element of the thread, or finds no coroutine in the
slot; an element that a coroutine waits for is neither detached nor deleted. -/
def orderly (s : State τ κ γ) : Act τ κ γ → Prop
  | .await t _ k => (s.ele k).doing=true → (s.ele k).isDetach=false →
      s.cacheIdx t<2^31 ∧ ¬waited s k ∧ (s.ele k).own=some t ∧ 0<(s.ele k).refc ∧
        ((s.ele k).kind=.tmr → (s.ele k).data=0 ∨ s.cache (t,(s.ele k).data)=none ∧ (s.ele k).data<s.cacheIdx t)
  | .cease t k => (s.ele k).own=some t ∨ isThread (s.cache (t,copIndex (s.ele k)))=false
  | .del k => (s.ele k).refc=1 → ¬waited s k
  | .setDetach k b => b=true → (s.ele k).doing=false → ¬waited s k
  | .add t k _ data _ => (s.ele k).kind=.tmr → harmless s t k data
  | _ => True

/-- Each coroutine that waits is what the slot holds that its element selects; who is resumed has been waiting for just
that element and through that slot; no slot resumes twice, and none that has resumed holds anything. A completion
resumes the coroutine that waits for the element, and only that one; a cease that fails resumes nobody and leaves each
coroutine the slot that its element selects. -/
structure Sound (s : State τ κ γ) : Prop where
  linked : ∀ t c k i,s.waits (t,c)=some (k,i) → copIndex (s.ele k)=i ∧ s.cache (t,i)=some (.thread c)
  exact : ∀ r∈s.resumed,r.awaited=some (r.ele,r.slot)
  once : (s.resumed.map fun r => (r.thread,r.slot)).Nodup
  freed : ∀ r∈s.resumed,s.cache (r.thread,r.slot)=none
  completed : ∀ t k s',step s (.pop t k false)=some s' →
    (∀ c i,s.waits (t,c)=some (k,i) ↔ s'.resumed=s.resumed++[⟨t,c,k,i,some (k,i)⟩]) ∧
      (¬waited s k → s'.resumed=s.resumed) ∧ ¬waited s' k
  failed : ∀ t k s',step s (.cease t k)=some s' → orderly s (.cease t k) → dpretIserr (dpevpEnd (s.ele k) t) →
    s'.resumed=s.resumed ∧ s'.waits=s.waits ∧ ∀ u c j i,s.waits (u,c)=some (j,i) →
      copIndex (s'.ele j)=i ∧ s'.cache (u,i)=some (.thread c)

/-! ### The invariant -/

/-- What the thread keeps of an element of its own: the index is below 2^31, and its slot is free or holds the coroutine
that waits for the element. -/
structure Held (s : State τ κ γ) (t : τ) (k : κ) (e : Ele τ) : Prop where
  cop : 0≤e.cop ∧ e.cop<s.cacheIdx t ∧ e.cop<2^31
  slot : ∀ v,s.cache (t,e.cop)=some v → ∃ c,v=.thread c ∧ s.waits (t,c)=some (k,e.cop)
  data : e.kind=.tmr → e.data=0 ∨ e.data<s.cacheIdx t ∧ isThread (s.cache (t,e.data))=false

/-- What holds of an element that is waited for. -/
structure Awaited (s : State τ κ γ) (t : τ) (i : ℤ) (e : Ele τ) : Prop where
  own : e.own=some t
  cop : e.cop=i
  refc : 0<e.refc
  attached : e.isDetach=false
  doing : e.kind≠.tmr → e.doing=true
  bare : e.kind=.tmr → e.data=0 ∨ s.cache (t,e.data)=none

structure Inv (s : State τ κ γ) : Prop where
  idx : ∀ t,1≤ s.cacheIdx t
  fresh : ∀ t i,s.cache (t,i)≠none → 1≤ i ∧ i<s.cacheIdx t
  thread : ∀ t i c,s.cache (t,i)=some (.thread c) → ∃ k,s.waits (t,c)=some (k,i)
  held : ∀ k t,s.alive k=true → (s.ele k).own=some t → Held s t k (s.ele k)
  waits : ∀ t c k i,s.waits (t,c)=some (k,i) →
    s.cache (t,i)=some (.thread c) ∧ s.alive k=true ∧ Awaited s t i (s.ele k)
  exact : ∀ r∈s.resumed,r.awaited=some (r.ele,r.slot)
  once : (s.resumed.map fun r => (r.thread,r.slot)).Nodup
  freed : ∀ r∈s.resumed,r.slot<s.cacheIdx r.thread ∧ s.cache (r.thread,r.slot)=none

section Steps
variable {s s' : State τ κ γ} {t u : τ} {j k : κ} {c : γ} {i : ℤ} {e : Ele τ}

theorem waited_iff : waited s k ↔ ∃ t c i,s.waits (t,c)=some (k,i) := by
  constructor
  · rintro ⟨⟨t,c⟩,h⟩
    obtain ⟨⟨j,i⟩,hw,hj⟩ := (Option.any_eq_true _ _).mp h
    have hj : j=k := of_decide_eq_true hj
    exact ⟨t,c,i,by rw [hw,hj]⟩
  · rintro ⟨t,c,i,hw⟩
    exact ⟨(t,c),by simp [hw]⟩

theorem copIndex_eq (h0 : 0≤e.cop) (h : e.cop<2^31) : copIndex e=e.cop :=
  Int.bmod_eq_of_le (by omega) (by omega)

theorem Held.copIndex (h : Held s t k e) : copIndex e=e.cop := copIndex_eq h.cop.1 h.cop.2.2

/-- The table is as before. -/
theorem Held.same (h : Held s t k e) (hc : s'.cache=s.cache) (hx : s'.cacheIdx=s.cacheIdx) (hw : s'.waits=s.waits) :
    Held s' t k e := by
  refine ⟨?_,?_,?_⟩
  · rw [hx]
    exact h.cop
  · rw [hc,hw]
    exact h.slot
  · rw [hc,hx]
    exact h.data

theorem Awaited.same (h : Awaited s t i e) (hc : s'.cache=s.cache) : Awaited s' t i e :=
  ⟨h.own,h.cop,h.refc,h.attached,h.doing,by rw [hc]; exact h.bare⟩

theorem inv_start : Inv ({} : State τ κ γ) where
  idx _ := Int.le_refl 1
  fresh _ _ h := absurd rfl h
  thread _ _ _ h := by cases h
  held _ _ h := by cases h
  waits _ _ _ _ h := by cases h
  exact _ h := by cases h
  once := List.nodup_nil
  freed _ h := by cases h

theorem inv_setEle (h : Inv s) (hheld : ∀ t,s.alive k=true → e.own=some t → Held s t k e)
    (hwait : ∀ t c i,s.waits (t,c)=some (k,i) → Awaited s t i e) : Inv (s.setEle k e) where
  idx := h.idx
  fresh := h.fresh
  thread := h.thread
  held j t ha ho := by
    by_cases hjk : j=k
    · subst hjk
      simp only [State.setEle,Function.update_self] at ho ⊢
      exact (hheld t ha ho).same rfl rfl rfl
    · simp only [State.setEle,Function.update_of_ne hjk] at ho ⊢
      exact (h.held j t ha ho).same rfl rfl rfl
  waits t c j i hw := by
    obtain ⟨hc,ha,haw⟩ := h.waits t c j i hw
    refine ⟨hc,ha,?_⟩
    by_cases hjk : j=k
    · subst hjk
      simp only [State.setEle,Function.update_self]
      exact (hwait t c i hw).same rfl
    · simp only [State.setEle,Function.update_of_ne hjk]
      exact haw.same rfl
  exact := h.exact
  once := h.once
  freed := h.freed

theorem inv_kill (h : Inv s) (hk : ¬waited s k) : Inv {s with alive := Function.update s.alive k false} where
  idx := h.idx
  fresh := h.fresh
  thread := h.thread
  held j t ha ho := by
    have hjk : j≠k := by
      rintro rfl
      simp at ha
    exact (h.held j t (by simpa [hjk] using ha) ho).same rfl rfl rfl
  waits t c j i hw := by
    obtain ⟨hc,ha,haw⟩ := h.waits t c j i hw
    have hjk : j≠k := by
      rintro rfl
      exact hk (waited_iff.mpr ⟨t,c,i,hw⟩)
    exact ⟨hc,by simpa [hjk] using ha,haw.same rfl⟩
  exact := h.exact
  once := h.once
  freed := h.freed

/-- An element that is made is waited for by nobody, and all its fields but the kind are fresh. -/
theorem inv_alloc (h : Inv s) (hk : s.alive k=false) (hheld : ∀ t,e.own=some t → Held s t k e) : Inv (alloc s k e) where
  idx := h.idx
  fresh := h.fresh
  thread := h.thread
  held j t ha ho := by
    by_cases hjk : j=k
    · subst hjk
      simp only [alloc,State.setEle,Function.update_self] at ho ⊢
      exact (hheld t ho).same rfl rfl rfl
    · simp only [alloc,State.setEle,Function.update_of_ne hjk] at ha ho ⊢
      exact (h.held j t ha ho).same rfl rfl rfl
  waits t c j i hw := by
    obtain ⟨hc,ha,haw⟩ := h.waits t c j i hw
    have hjk : j≠k := by
      rintro rfl
      rw [hk] at ha
      cases ha
    simp only [alloc,State.setEle,Function.update_of_ne hjk]
    exact ⟨hc,ha,haw.same rfl⟩
  exact := h.exact
  once := h.once
  freed := h.freed

/-! ### The cache -/

/-- The slot of the next index is free. -/
theorem Inv.next_free (h : Inv s) (t : τ) : s.cache (t,s.cacheIdx t)=none := by
  by_contra hne
  have := (h.fresh t _ hne).2
  omega

/-- Slots below the next index are not touched by a save. -/
theorem Held.saved {v : Value γ} (h : Held s u k e) (hw : ∀ c i,s.waits (u,c)=some (k,i) → s'.waits (u,c)=some (k,i))
    (hc : s'.cache=Function.update s.cache (t,s.cacheIdx t) (some v))
    (hx : s'.cacheIdx=Function.update s.cacheIdx t (s.cacheIdx t+1)) : Held s' u k e := by
  have hne : ∀ i,i<s.cacheIdx u → s'.cache (u,i)=s.cache (u,i) ∧ i<s'.cacheIdx u := by
    intro i hi
    rw [hc,hx]
    by_cases hut : u=t
    · subst hut
      have hi' : (u,i)≠(u,s.cacheIdx u) := fun heq => by
        have := congrArg Prod.snd heq
        simp only at this
        omega
      rw [Function.update_of_ne hi',Function.update_self]
      exact ⟨rfl,by omega⟩
    · rw [Function.update_of_ne (fun heq => hut (congrArg Prod.fst heq)),Function.update_of_ne hut]
      exact ⟨rfl,hi⟩
  obtain ⟨hcache,hlt⟩ := hne e.cop h.cop.2.1
  refine ⟨⟨h.cop.1,hlt,h.cop.2.2⟩,fun v hv => ?_,fun hk => ?_⟩
  · rw [hcache] at hv
    obtain ⟨c,hvc,hwc⟩ := h.slot v hv
    exact ⟨c,hvc,hw c _ hwc⟩
  · rcases h.data hk with hzero | ⟨hd,hth⟩
    · exact .inl hzero
    · obtain ⟨hcache,hlt⟩ := hne e.data hd
      exact .inr ⟨hlt,by rw [hcache]; exact hth⟩

theorem cacheTake_free (hi : s.cache (t,i)=none) : (cacheTake s t i).2=s := by
  unfold cacheTake
  rw [← hi,Function.update_eq_self]

theorem cacheTake_save (h : Inv s) (v : Value γ) : (cacheTake (cacheSave s t v).2 t (s.cacheIdx t)).2=
    {s with cacheIdx := Function.update s.cacheIdx t (s.cacheIdx t+1)} := by
  simp only [cacheTake,cacheSave,Function.update_idem]
  rw [← h.next_free t,Function.update_eq_self]

theorem le_bump (s : State τ κ γ) (t u : τ) : s.cacheIdx u≤ Function.update s.cacheIdx t (s.cacheIdx t+1) u := by
  by_cases hut : u=t
  · subst hut
    rw [Function.update_self]
    omega
  · rw [Function.update_of_ne hut]

theorem inv_grow {x : τ → ℤ} (h : Inv s) (hx : ∀ u,s.cacheIdx u≤ x u) : Inv {s with cacheIdx := x} where
  idx u := (h.idx u).trans (hx u)
  fresh u i hi := ⟨(h.fresh u i hi).1,(h.fresh u i hi).2.trans_le (hx u)⟩
  thread := h.thread
  held k u ha ho := by
    have hk := h.held k u ha ho
    refine ⟨⟨hk.cop.1,hk.cop.2.1.trans_le (hx u),hk.cop.2.2⟩,hk.slot,fun hkind => ?_⟩
    exact (hk.data hkind).imp_right fun hd => ⟨hd.1.trans_le (hx u),hd.2⟩
  waits u c k i hw := by
    obtain ⟨hc,ha,haw⟩ := h.waits u c k i hw
    exact ⟨hc,ha,haw.same rfl⟩
  exact := h.exact
  once := h.once
  freed r hr := ⟨(h.freed r hr).1.trans_le (hx _),(h.freed r hr).2⟩

theorem cache_save_ne {v : Value γ} (hi : i<s.cacheIdx u) :
    Function.update s.cache (t,s.cacheIdx t) (some v) (u,i)=s.cache (u,i) := by
  refine Function.update_of_ne (fun heq => ?_) _ _
  obtain ⟨rfl,rfl⟩ := Prod.mk.inj heq
  omega

/-- A slot is taken that holds no coroutine. -/
theorem inv_take (h : Inv s) (hi : isThread (s.cache (t,i))=false) : Inv (cacheTake s t i).2 := by
  have hsub : ∀ u j v,(cacheTake s t i).2.cache (u,j)=some v → s.cache (u,j)=some v := by
    intro u j v hv
    by_cases heq : (u,j)=(t,i)
    · rw [heq] at hv
      simp [cacheTake] at hv
    · simpa [cacheTake,Function.update_of_ne heq] using hv
  have hnone : ∀ u j,s.cache (u,j)=none → (cacheTake s t i).2.cache (u,j)=none := by
    intro u j hn
    refine Option.eq_none_iff_forall_ne_some.mpr fun v hv => ?_
    rw [hsub u j v hv] at hn
    cases hn
  have hthread : ∀ u j c,s.cache (u,j)=some (.thread c) → (cacheTake s t i).2.cache (u,j)=some (.thread c) := by
    intro u j c hc
    have heq : (u,j)≠(t,i) := by
      intro heq
      rw [heq] at hc
      rw [hc] at hi
      cases hi
    simpa [cacheTake,Function.update_of_ne heq] using hc
  refine ⟨h.idx,fun u j hj => ?_,fun u j c hc => h.thread u j c (hsub u j _ hc),fun k u ha ho => ?_,fun u c k j hw => ?_,
    h.exact,h.once,fun r hr => ⟨(h.freed r hr).1,hnone _ _ (h.freed r hr).2⟩⟩
  · obtain ⟨v,hv⟩ := Option.ne_none_iff_exists'.mp hj
    exact h.fresh u j (by rw [hsub u j v hv]; simp)
  · have hk := h.held k u ha ho
    refine ⟨hk.cop,fun v hv => hk.slot v (hsub u _ v hv),fun hkind => (hk.data hkind).imp_right fun hd => ⟨hd.1,?_⟩⟩
    cases hv : (cacheTake s t i).2.cache (u,(s.ele k).data) with
    | none => exact (congrArg isThread hv).trans rfl
    | some v => exact (congrArg isThread (hv.trans (hsub u _ v hv).symm)).trans hd.2
  · obtain ⟨hc,ha,haw⟩ := h.waits u c k j hw
    exact ⟨hthread u j c hc,ha,haw.own,haw.cop,haw.refc,haw.attached,haw.doing,fun hkind =>
      (haw.bare hkind).imp_right (hnone u _)⟩

/-- The coroutine that waits through a slot is resumed, and the slot is free. -/
def woken (s : State τ κ γ) (t : τ) (c : γ) (k : κ) (i : ℤ) : State τ κ γ :=
  resume (cacheTake s t i).2 t k i (some (.thread c))

theorem Inv.only (h : Inv s) {d : γ} {l : ℤ} (hw : s.waits (t,c)=some (k,i)) (hw' : s.waits (u,d)=some (k,l)) :
    u=t ∧ d=c ∧ l=i := by
  obtain ⟨hc,-,haw⟩ := h.waits t c k i hw
  obtain ⟨hc',-,haw'⟩ := h.waits u d k l hw'
  have hut : u=t := Option.some.inj (haw'.own.symm.trans haw.own)
  have hli : l=i := haw'.cop.symm.trans haw.cop
  subst hut hli
  exact ⟨rfl,by rw [hc] at hc'; cases hc'; rfl,rfl⟩

theorem woken_cache {l : ℤ} (hne : (u,l)≠(t,i)) : (woken s t c k i).cache (u,l)=s.cache (u,l) :=
  Function.update_of_ne hne _ _

theorem woken_slot : (woken s t c k i).cache (t,i)=none := Function.update_self (t,i) _ s.cache

theorem woken_waits_ne {p : τ × γ} (hne : p≠(t,c)) : (woken s t c k i).waits p=s.waits p := Function.update_of_ne hne _ _

theorem woken_waits_self : (woken s t c k i).waits (t,c)=none := Function.update_self (t,c) _ s.waits

theorem woken_cache_some {l : ℤ} {v : Value γ} (hv : (woken s t c k i).cache (u,l)=some v) :
    (u,l)≠(t,i) ∧ s.cache (u,l)=some v := by
  have hne : (u,l)≠(t,i) := by
    intro heq
    rw [heq,woken_slot] at hv
    cases hv
  exact ⟨hne,by rw [← woken_cache hne,hv]⟩

theorem woken_waits {p : τ × γ} {w : κ × ℤ} (hw : (woken s t c k i).waits p=some w) : p≠(t,c) ∧ s.waits p=some w := by
  have hne : p≠(t,c) := by
    rintro rfl
    rw [woken_waits_self] at hw
    cases hw
  exact ⟨hne,(woken_waits_ne hne).symm.trans hw⟩

theorem woken_waited (h : Inv s) (hw : s.waits (t,c)=some (k,i)) : ¬waited (woken s t c k i) k := by
  rintro hk
  obtain ⟨u,d,l,hw'⟩ := waited_iff.mp hk
  obtain ⟨hne,hw'⟩ := woken_waits hw'
  obtain ⟨rfl,rfl,-⟩ := h.only hw hw'
  exact hne rfl

theorem inv_woken (h : Inv s) (hw : s.waits (t,c)=some (k,i)) : Inv (woken s t c k i) := by
  obtain ⟨hc,hk,haw⟩ := h.waits t c k i hw
  have hlt : i<s.cacheIdx t := (h.fresh t i (by rw [hc]; simp)).2
  have hfree : ∀ r∈s.resumed,(r.thread,r.slot)≠(t,i) := by
    intro r hr heq
    have := (h.freed r hr).2
    rw [heq,hc] at this
    cases this
  have hnone : ∀ u l,s.cache (u,l)=none → (woken s t c k i).cache (u,l)=none := by
    intro u l hn
    refine Option.eq_none_iff_forall_ne_some.mpr fun v hv => ?_
    rw [(woken_cache_some hv).2] at hn
    cases hn
  -- the coroutine waits through this slot only
  have hother : ∀ u d l,s.cache (u,l)=some (.thread d) → (u,l)≠(t,i) → (u,d)≠(t,c) := by
    intro u d l hd hne heq
    obtain ⟨rfl,rfl⟩ := Prod.mk.inj heq
    obtain ⟨k',hk'⟩ := h.thread u l d hd
    rw [hw] at hk'
    cases hk'
    exact hne rfl
  refine ⟨h.idx,fun u l hl => ?_,fun u l d hd => ?_,fun j u ha ho => ?_,fun u d j l hw' => ?_,fun r hr => ?_,?_,fun r hr => ?_⟩
  · obtain ⟨v,hv⟩ := Option.ne_none_iff_exists'.mp hl
    exact h.fresh u l (by rw [(woken_cache_some hv).2]; simp)
  · obtain ⟨hne,hd⟩ := woken_cache_some hd
    obtain ⟨j,hj⟩ := h.thread u l d hd
    exact ⟨j,(woken_waits_ne (hother u d l hd hne)).trans hj⟩
  · have hj := h.held j u ha ho
    refine ⟨hj.cop,fun v hv => ?_,fun hkind => (hj.data hkind).imp_right fun hd => ⟨hd.1,?_⟩⟩
    · obtain ⟨hne,hv⟩ := woken_cache_some hv
      obtain ⟨d,rfl,hd⟩ := hj.slot v hv
      exact ⟨d,rfl,(woken_waits_ne (hother u d _ hv hne)).trans hd⟩
    · cases hv : (woken s t c k i).cache (u,(s.ele j).data) with
      | none => exact (congrArg isThread hv).trans rfl
      | some v => exact (congrArg isThread (hv.trans (woken_cache_some hv).2.symm)).trans hd.2
  · obtain ⟨hne,hw'⟩ := woken_waits hw'
    obtain ⟨hc',ha,haw'⟩ := h.waits u d j l hw'
    have hslot : (u,l)≠(t,i) := by
      intro heq
      rw [heq,hc] at hc'
      cases hc'
      exact hne (by rw [(Prod.mk.inj heq).1])
    exact ⟨(woken_cache hslot).trans hc',ha,haw'.own,haw'.cop,haw'.refc,haw'.attached,haw'.doing,fun hkind =>
      (haw'.bare hkind).imp_right (hnone u _)⟩
  · rcases List.mem_append.mp hr with hr | hr
    · exact h.exact r hr
    · rcases List.mem_singleton.mp hr with rfl
      exact hw
  · simp only [woken,resume,List.map_append,List.map_cons,List.map_nil]
    refine List.nodup_append.mpr ⟨h.once,List.nodup_singleton _,fun x hx y hy => ?_⟩
    obtain ⟨r,hr,rfl⟩ := List.mem_map.mp hx
    rw [List.mem_singleton.mp hy]
    exact hfree r hr
  · rcases List.mem_append.mp hr with hr | hr
    · exact ⟨(h.freed r hr).1,hnone _ _ (h.freed r hr).2⟩
    · rcases List.mem_singleton.mp hr with rfl
      exact ⟨hlt,Function.update_self _ _ _⟩

/-! ### Operations -/

/-- What a completion or a cease finds in the slot of an element of the thread. -/
theorem event_cases (h : Inv s) (ha : s.alive k=true) (ho : (s.ele k).own=some t) :
    (∃ c,s.waits (t,c)=some (k,(s.ele k).cop) ∧ resumeEvent s t k=woken s t c k (s.ele k).cop) ∨
      ¬waited s k ∧ resumeEvent s t k=s := by
  have hk := h.held k t ha ho
  cases hv : s.cache (t,(s.ele k).cop) with
  | none =>
    refine .inr ⟨fun hwait => ?_,?_⟩
    · obtain ⟨u,c,i,hw⟩ := waited_iff.mp hwait
      obtain ⟨hc,-,haw⟩ := h.waits u c k i hw
      have hut : u=t := Option.some.inj (haw.own.symm.trans ho)
      rw [hut,← haw.cop,hv] at hc
      cases hc
    · unfold resumeEvent
      simp only [hk.copIndex,cacheTake_free hv]
      simp only [cacheTake,hv,resume]
  | some v =>
    obtain ⟨c,rfl,hw⟩ := hk.slot v hv
    refine .inl ⟨c,hw,?_⟩
    unfold resumeEvent woken
    simp only [hk.copIndex,cacheTake,hv]

theorem waited_same (hw : s'.waits=s.waits) : waited s' k ↔ waited s k := by
  unfold waited
  rw [hw]

theorem inv_idle (h : Inv s) (hk : ¬waited s k) : Inv (s.setEle k {s.ele k with doing := false}) := by
  refine inv_setEle h (fun t ha ho => ?_) fun t c i hw => absurd (waited_iff.mpr ⟨t,c,i,hw⟩) hk
  have hold := h.held k t ha ho
  exact ⟨hold.cop,hold.slot,hold.data⟩

theorem dispatch_plain (hd : (s.ele k).kind=.tmr → (s.ele k).data=0 ∨ s.cache (t,(s.ele k).data)=none) :
    dispatch s t k=resumeEvent s t k := by
  unfold dispatch
  split
  · rename_i htmr
    have hnone := (hd htmr.1).resolve_left htmr.2
    simp only [cacheTake,hnone]
    rw [← hnone,Function.update_eq_self]
  · rfl

theorem dispatch_body (hk : (s.ele k).kind=.tmr) (hd : (s.ele k).data≠0) (hc : s.cache (t,(s.ele k).data)≠none) :
    dispatch s t k=(cacheTake s t (s.ele k).data).2 := by
  obtain ⟨v,hv⟩ := Option.ne_none_iff_exists'.mp hc
  unfold dispatch
  rw [if_pos ⟨hk,hd⟩]
  simp only [cacheTake,hv]

/-- A completion resumes the coroutine that waits for the element. -/
theorem reap_cases (h : Inv s) (ha : s.alive k=true) (ho : (s.ele k).own=some t) :
    (∃ c,s.waits (t,c)=some (k,(s.ele k).cop) ∧
      reap s t k=(woken s t c k (s.ele k).cop).setEle k {s.ele k with doing := false}) ∨
      ¬waited s k ∧ Inv (reap s t k) ∧ (reap s t k).resumed=s.resumed ∧ (reap s t k).waits=s.waits := by
  have hset : resumeEvent (s.setEle k {s.ele k with doing := false}) t k=
      (resumeEvent s t k).setEle k {s.ele k with doing := false} := by
    unfold resumeEvent
    simp only [State.setEle,Function.update_self,copIndex,cacheTake]
    cases s.cache (t,(s.ele k).cop.bmod (2^32)) with
    | none => rfl
    | some v => cases v <;> rfl
  by_cases hk : waited s k
  · obtain ⟨u,c,i,hw⟩ := waited_iff.mp hk
    have haw := (h.waits u c k i hw).2.2
    refine .inl ?_
    rcases event_cases h ha ho with ⟨d,hd,heq⟩ | ⟨hno,-⟩
    · refine ⟨d,hd,?_⟩
      have hut : u=t := Option.some.inj (haw.own.symm.trans ho)
      unfold reap
      rw [if_neg (by have := haw.refc; omega),if_neg (by simp [haw.attached]),dispatch_plain,hset,heq]
      subst hut
      simpa [State.setEle] using haw.bare
    · exact absurd hk hno
  · have hidle := inv_idle h hk
    refine .inr ⟨hk,?_⟩
    unfold reap
    simp only
    split
    · exact ⟨inv_kill hidle hk,rfl,rfl⟩
    · split
      · exact ⟨hidle,rfl,rfl⟩
      · by_cases hplain : (s.ele k).kind=.tmr → (s.ele k).data=0 ∨ s.cache (t,(s.ele k).data)=none
        · rw [dispatch_plain (by simpa [State.setEle] using hplain),hset]
          rcases event_cases h ha ho with ⟨d,hd,-⟩ | ⟨-,heq⟩
          · exact absurd (waited_iff.mpr ⟨t,d,_,hd⟩) hk
          · rw [heq]
            exact ⟨hidle,rfl,rfl⟩
        · -- the timer's function is run
          push Not at hplain
          obtain ⟨htmr,hdata,hcache⟩ := hplain
          have hth := ((h.held k t ha ho).data htmr).resolve_left hdata
          have hself : ((s.setEle k {s.ele k with doing := false}).ele k).data=(s.ele k).data := by simp [State.setEle]
          rw [dispatch_body (by simpa [State.setEle] using htmr) (by rw [hself]; exact hdata) (by rw [hself]; exact hcache),
            hself]
          exact ⟨inv_take hidle hth.2,rfl,rfl⟩

theorem held_new (h : Inv s) (hcop : e.cop=0) (hdata : e.data=0) : Held s t k e where
  cop := by
    have := h.idx t
    omega
  slot v hv := by
    have := (h.fresh t e.cop (by rw [hv]; simp)).1
    omega
  data _ := .inl hdata

theorem inv_body (h : Inv s) : Inv (cacheSave s t .body).2 := by
  have hsub : ∀ u j c,(cacheSave s t .body).2.cache (u,j)=some (.thread c) → s.cache (u,j)=some (.thread c) := by
    intro u j c hc
    by_cases heq : (u,j)=(t,s.cacheIdx t)
    · rw [heq] at hc
      simp [cacheSave] at hc
    · simpa [cacheSave,Function.update_of_ne heq] using hc
  have hgrow := le_bump s t
  refine ⟨fun u => (h.idx u).trans (hgrow u),fun u j hj => ?_,fun u j c hc => h.thread u j c (hsub u j c hc),
    fun j u ha ho => (h.held j u ha ho).saved (fun _ _ hw => hw) rfl rfl,fun u c j i hw => ?_,h.exact,h.once,fun r hr => ?_⟩
  · by_cases heq : (u,j)=(t,s.cacheIdx t)
    · obtain ⟨rfl,rfl⟩ := Prod.mk.inj heq
      have := h.idx u
      simp only [cacheSave,Function.update_self]
      omega
    · have := h.fresh u j (by simpa [cacheSave,Function.update_of_ne heq] using hj)
      exact ⟨this.1,this.2.trans_le (hgrow u)⟩
  · obtain ⟨hc,ha,haw⟩ := h.waits u c j i hw
    have hlt := (h.fresh u i (by rw [hc]; simp)).2
    refine ⟨(cache_save_ne hlt).trans hc,ha,haw.own,haw.cop,haw.refc,haw.attached,haw.doing,fun hkind => ?_⟩
    rcases (h.held j u ha haw.own).data hkind with hzero | ⟨hd,-⟩
    · exact .inl hzero
    · exact (haw.bare hkind).imp_right fun hn => (cache_save_ne hd).trans hn
  · obtain ⟨hlt,hn⟩ := h.freed r hr
    exact ⟨hlt.trans_le (hgrow _),(cache_save_ne hlt).trans hn⟩

theorem inv_new {kind : Kind} (h : Inv s) (hu : step s (.new t k kind)=some s') : Inv s' := by
  simp only [step] at hu
  split at hu
  · rename_i hk
    cases hu
    exact inv_alloc h hk fun u _ => held_new h rfl rfl
  · cases hu

theorem inv_timer {made ok : Bool} (h : Inv s) (hu : step s (.timer t k made ok)=some s') : Inv s' := by
  simp only [step] at hu
  split at hu
  · rename_i hk
    cases hu
    unfold timer
    simp only
    split
    · have hbody := inv_body (t := t) h
      refine inv_alloc hbody hk fun u ho => ?_
      cases ho
      have hnew := held_new (t := t) (k := k) hbody (e := {kind := .tmr, own := some t}) rfl rfl
      refine ⟨hnew.cop,hnew.slot,fun _ => .inr ⟨?_,?_⟩⟩
      · simp only [cacheSave,Function.update_self]
        omega
      · simp [cacheSave,isThread]
    · rw [show (cacheSave s t .body).1=s.cacheIdx t from rfl,cacheTake_save h]
      exact inv_grow h (le_bump s t)
  · cases hu

theorem inv_ref (h : Inv s) (hu : step s (.ref k)=some s') : Inv s' := by
  simp only [step] at hu
  split at hu
  · cases hu
    refine inv_setEle h (fun t ha ho => ?_) fun t c i hw => ?_
    · have hold := h.held k t ha ho
      exact ⟨hold.cop,hold.slot,hold.data⟩
    · obtain ⟨-,-,haw⟩ := h.waits t c k i hw
      have := haw.refc
      exact ⟨haw.own,haw.cop,by simp only; omega,haw.attached,haw.doing,haw.bare⟩
  · cases hu

theorem inv_del (h : Inv s) (hok : orderly s (.del k)) (hu : step s (.del k)=some s') : Inv s' := by
  simp only [step] at hu
  split at hu
  · rename_i hown
    have hset : Inv (s.setEle k {s.ele k with refc := (s.ele k).refc-1}) := by
      refine inv_setEle h (fun t ha ho => ?_) fun t c i hw => ?_
      · have hold := h.held k t ha ho
        exact ⟨hold.cop,hold.slot,hold.data⟩
      · obtain ⟨-,-,haw⟩ := h.waits t c k i hw
        have hne : (s.ele k).refc≠1 := fun hone => hok hone (waited_iff.mpr ⟨t,c,i,hw⟩)
        exact ⟨haw.own,haw.cop,by simp only; omega,haw.attached,haw.doing,haw.bare⟩
    split at hu <;> cases hu
    · rename_i hlast
      exact inv_kill hset (hok hlast.1)
    · exact hset
  · cases hu

theorem inv_setDetach {b : Bool} (h : Inv s) (hok : orderly s (.setDetach k b)) (hu : step s (.setDetach k b)=some s') :
    Inv s' := by
  simp only [step] at hu
  split at hu
  · split at hu <;> cases hu
    · exact h
    · rename_i hdoing
      refine inv_setEle h (fun t ha ho => ?_) fun t c i hw => ?_
      · have hold := h.held k t ha ho
        exact ⟨hold.cop,hold.slot,hold.data⟩
      · obtain ⟨-,-,haw⟩ := h.waits t c k i hw
        have hb : b=false := Bool.eq_false_iff.mpr fun hb =>
          hok hb (Bool.eq_false_iff.mpr hdoing) (waited_iff.mpr ⟨t,c,i,hw⟩)
        exact ⟨haw.own,haw.cop,haw.refc,hb,haw.doing,haw.bare⟩
  · cases hu

theorem inv_add {allow ok : Bool} {data : ℤ} (h : Inv s) (hok : orderly s (.add t k allow data ok))
    (hu : step s (.add t k allow data ok)=some s') : Inv s' := by
  have hsame : Inv (s.setEle k (s.ele k)) := by
    rw [State.setEle,Function.update_eq_self]
    exact h
  simp only [step] at hu
  split at hu
  · rename_i huse
    cases hu
    unfold add
    split
    · exact hsame
    · rename_i hallow
      split
      · exact hsame
      · rename_i hdoing
        -- an operation of another type than TMR is only added to an element that is not doing
        have hfree : (s.ele k).kind≠.tmr → ¬waited s k := by
          intro hkind hwait
          obtain ⟨u,c,i,hw⟩ := waited_iff.mp hwait
          have hd := (h.waits u c k i hw).2.2.doing hkind
          cases allow <;> simp_all
        simp only
        split
        · rename_i hctc
          refine inv_setEle h (fun u ha ho => ⟨?_,fun v hv => ?_,fun hkind => ?_⟩) fun u c i hw => ?_
          · have := h.idx u
            simp only
            omega
          · have := (h.fresh u 0 (by rw [hv]; simp)).1
            omega
          · rw [show (s.ele k).kind=.tmr from hkind] at hctc
            cases hctc.1
          · exact absurd (waited_iff.mpr ⟨u,c,i,hw⟩) (hfree (by rw [hctc.1]; simp))
        · by_cases hkind : (s.ele k).kind=.tmr
          · have hharm := hok hkind
            refine inv_setEle h (fun u ha ho => ?_) fun u c i hw => ?_
            · have hold := h.held k u ha ho
              have hut : u=t := by
                have := huse.2.resolve_left (by rw [hkind]; simp)
                exact Option.some.inj (ho.symm.trans this)
              subst hut
              refine ⟨hold.cop,hold.slot,fun _ => ?_⟩
              simp only [if_pos hkind]
              exact hharm.imp_right fun hd => ⟨hd.1,hd.2.1⟩
            · obtain ⟨-,-,haw⟩ := h.waits u c k i hw
              have hut : u=t := by
                have := huse.2.resolve_left (by rw [hkind]; simp)
                exact Option.some.inj (haw.own.symm.trans this)
              subst hut
              refine ⟨haw.own,haw.cop,haw.refc,haw.attached,fun hne => absurd hkind hne,fun _ => ?_⟩
              simp only [if_pos hkind]
              exact hharm.imp_right fun hd => hd.2.2 (waited_iff.mpr ⟨u,c,i,hw⟩)
          · refine inv_setEle h (fun u ha ho => ?_) fun u c i hw => absurd (waited_iff.mpr ⟨u,c,i,hw⟩) (hfree hkind)
            have hold := h.held k u ha ho
            exact ⟨hold.cop,hold.slot,fun htmr => absurd htmr hkind⟩
  · cases hu

/-- The coroutine is suspended. -/
def suspended (s : State τ κ γ) (t : τ) (c : γ) (k : κ) : State τ κ γ :=
  {(cacheSave s t (.thread c)).2.setEle k {s.ele k with cop := s.cacheIdx t} with
    waits := Function.update s.waits (t,c) (some (k,s.cacheIdx t))}

theorem suspended_waits {d : γ} {w : κ × ℤ} (hw : (suspended s t c k).waits (u,d)=some w) :
    (u,d)=(t,c) ∧ w=(k,s.cacheIdx t) ∨ (u,d)≠(t,c) ∧ s.waits (u,d)=some w := by
  by_cases heq : (u,d)=(t,c)
  · rw [heq] at hw
    exact .inl ⟨heq,Option.some.inj (hw.symm.trans (Function.update_self (t,c) _ s.waits))⟩
  · exact .inr ⟨heq,(Function.update_of_ne heq _ s.waits).symm.trans hw⟩

theorem suspended_old {d : γ} {w : κ × ℤ} (hc : s.waits (t,c)=none) (hw : s.waits (u,d)=some w) :
    (suspended s t c k).waits (u,d)=some w := by
  have hne : (u,d)≠(t,c) := by
    intro heq
    rw [heq,hc] at hw
    cases hw
  exact (Function.update_of_ne hne _ s.waits).trans hw

theorem inv_suspended (h : Inv s) (ha : s.alive k=true) (hc : s.waits (t,c)=none) (hint : s.cacheIdx t<2^31)
    (hk : ¬waited s k) (ho : (s.ele k).own=some t) (hrefc : 0<(s.ele k).refc) (hdoing : (s.ele k).doing=true)
    (hdetach : (s.ele k).isDetach=false)
    (hbare : (s.ele k).kind=.tmr → (s.ele k).data=0 ∨ s.cache (t,(s.ele k).data)=none ∧ (s.ele k).data<s.cacheIdx t) :
    Inv (suspended s t c k) := by
  have hidx := h.idx t
  have hgrow := le_bump s t
  have hnext : s.cacheIdx t<(suspended s t c k).cacheIdx t :=
    (Int.lt_succ _).trans_eq (Function.update_self t _ s.cacheIdx).symm
  have hself : (suspended s t c k).cache (t,s.cacheIdx t)=some (.thread c) := Function.update_self (t,s.cacheIdx t) _ s.cache
  have hnew : (suspended s t c k).waits (t,c)=some (k,s.cacheIdx t) := Function.update_self (t,c) _ s.waits
  have hele : ∀ j,j≠k → (suspended s t c k).ele j=s.ele j := fun j hj => Function.update_of_ne hj _ s.ele
  have hele' : (suspended s t c k).ele k={s.ele k with cop := s.cacheIdx t} := Function.update_self k _ s.ele
  refine ⟨fun u => (h.idx u).trans (hgrow u),fun u j hj => ?_,fun u j d hd => ?_,fun j u ha' ho' => ?_,fun u d j i hw => ?_,
    h.exact,h.once,fun r hr => ?_⟩
  · by_cases heq : (u,j)=(t,s.cacheIdx t)
    · obtain ⟨rfl,rfl⟩ := Prod.mk.inj heq
      exact ⟨hidx,hnext⟩
    · have := h.fresh u j (by simpa [suspended,cacheSave,State.setEle,Function.update_of_ne heq] using hj)
      exact ⟨this.1,this.2.trans_le (hgrow u)⟩
  · by_cases heq : (u,j)=(t,s.cacheIdx t)
    · rw [heq,hself] at hd
      cases hd
      obtain ⟨rfl,rfl⟩ := Prod.mk.inj heq
      exact ⟨k,hnew⟩
    · obtain ⟨j',hj'⟩ := h.thread u j d (by simpa [suspended,cacheSave,State.setEle,Function.update_of_ne heq] using hd)
      exact ⟨j',suspended_old hc hj'⟩
  · by_cases hjk : j=k
    · subst hjk
      rw [hele'] at ho' ⊢
      have hut : u=t := Option.some.inj (ho'.symm.trans ho)
      subst hut
      have hold : Held (suspended s u c j) u j (s.ele j) :=
        (h.held j u ha ho).saved (v := .thread c) (t := u) (fun d i hw => suspended_old hc hw) rfl rfl
      refine ⟨⟨by simp only; omega,hnext,hint⟩,fun v hv => ?_,hold.data⟩
      rw [hself] at hv
      cases hv
      exact ⟨c,rfl,hnew⟩
    · rw [hele j hjk] at ho' ⊢
      exact (h.held j u ha' ho').saved (fun d i hw => suspended_old hc hw) rfl rfl
  · rcases suspended_waits hw with ⟨heq,hval⟩ | ⟨-,hw'⟩
    · cases heq
      cases hval
      rw [hele']
      refine ⟨hself,ha,ho,rfl,hrefc,hdetach,fun _ => hdoing,fun hkind => ?_⟩
      exact (hbare hkind).imp_right fun hn => (cache_save_ne hn.2).trans hn.1
    · obtain ⟨hc',ha',haw⟩ := h.waits u d j i hw'
      have hjk : j≠k := fun heq => hk (waited_iff.mpr ⟨u,d,i,by rw [← heq]; exact hw'⟩)
      have hlt := (h.fresh u i (by rw [hc']; simp)).2
      rw [hele j hjk]
      refine ⟨(cache_save_ne hlt).trans hc',ha',haw.own,haw.cop,haw.refc,haw.attached,haw.doing,fun hkind => ?_⟩
      rcases (h.held j u ha' haw.own).data hkind with hzero | ⟨hd,-⟩
      · exact .inl hzero
      · exact (haw.bare hkind).imp_right fun hn => (cache_save_ne hd).trans hn
  · obtain ⟨hlt,hn⟩ := h.freed r hr
    exact ⟨hlt.trans_le (hgrow _),(cache_save_ne hlt).trans hn⟩

theorem inv_await (h : Inv s) (hok : orderly s (.await t c k)) (hu : step s (.await t c k)=some s') : Inv s' := by
  simp only [step] at hu
  split at hu
  · rename_i huse
    cases hu
    unfold await
    have hwait : ∀ i,dpeleWait ((cacheSave s t (.thread c)).2.ele k) i=dpeleWait (s.ele k) i := fun _ => rfl
    simp only [hwait]
    by_cases hd : (s.ele k).doing=true ∧ (s.ele k).isDetach=false
    · obtain ⟨hint,hk,ho,hrefc,hbare⟩ := hok hd.1 hd.2
      simp only [dpeleWait,if_pos hd]
      exact inv_suspended h huse.1.1 huse.2 hint hk ho hrefc hd.1 hd.2 hbare
    · simp only [dpeleWait,if_neg hd]
      rw [show (cacheSave s t (.thread c)).1=s.cacheIdx t from rfl,cacheTake_save h]
      exact inv_grow h (le_bump s t)
  · cases hu

theorem cease_own (ho : (s.ele k).own=some t) : cease s t k=resumeEvent s t k := by
  have hend : dpevpEnd (s.ele k) t=0 := by
    unfold dpevpEnd
    split
    · rfl
    · rw [if_neg (by simp [ho])]
      rfl
  unfold cease resumeEvent
  simp only
  exact if_pos (by rw [show (cacheTake s t (copIndex (s.ele k))).2.ele k=s.ele k from rfl,hend])

/-- A cease that finds no coroutine in the slot resumes nobody. -/
theorem cease_idle (hi : isThread (s.cache (t,copIndex (s.ele k)))=false) :
    cease s t k=(cacheTake s t (copIndex (s.ele k))).2 := by
  have hres : ∀ s : State τ κ γ,∀ v : Option (Value γ),isThread v=false → ∀ i,resume s t k i v=s := by
    intro s v hv i
    cases v with
    | none => rfl
    | some v =>
      cases v with
      | body => rfl
      | thread c => cases hv
  unfold cease
  simp only
  split
  · exact hres _ _ hi _
  · rfl

theorem inv_event (h : Inv s) (ha : s.alive k=true) (ho : (s.ele k).own=some t) : Inv (resumeEvent s t k) := by
  rcases event_cases h ha ho with ⟨c,hw,heq⟩ | ⟨-,heq⟩
  · rw [heq]
    exact inv_woken h hw
  · rw [heq]
    exact h

theorem inv_cease (h : Inv s) (hok : orderly s (.cease t k)) (hu : step s (.cease t k)=some s') : Inv s' := by
  simp only [step] at hu
  split at hu
  · rename_i huse
    cases hu
    rcases hok with ho | hi
    · rw [cease_own ho]
      exact inv_event h huse.1 ho
    · rw [cease_idle hi]
      exact inv_take h hi
  · cases hu

theorem inv_pop {run : Bool} (h : Inv s) (hu : step s (.pop t k run)=some s') : Inv s' := by
  simp only [step] at hu
  split at hu
  · rename_i ha
    split at hu
    · split at hu <;> cases hu
      exact h
    · split at hu
      · rename_i ho
        cases hu
        rcases reap_cases h ha ho with ⟨c,hw,heq⟩ | ⟨-,hinv,-⟩
        · rw [heq]
          exact inv_idle (inv_woken h hw) (woken_waited h hw)
        · exact hinv
      · cases hu
  · cases hu

theorem step_inv {a : Act τ κ γ} (h : Inv s) (hok : orderly s a) (hu : step s a=some s') : Inv s' := by
  cases a with
  | new t k kind => exact inv_new h hu
  | ref k => exact inv_ref h hu
  | del k => exact inv_del h hok hu
  | setDetach k b => exact inv_setDetach h hok hu
  | add t k allow data ok => exact inv_add h hok hu
  | timer t k made ok => exact inv_timer h hu
  | await t c k => exact inv_await h hok hu
  | cease t k => exact inv_cease h hok hu
  | pop t k run => exact inv_pop h hu

/-! ### The table is sound -/

theorem Inv.linked (h : Inv s) (hw : s.waits (t,c)=some (k,i)) :
    copIndex (s.ele k)=i ∧ s.cache (t,i)=some (.thread c) := by
  obtain ⟨hc,ha,haw⟩ := h.waits t c k i hw
  exact ⟨(h.held k t ha haw.own).copIndex.trans haw.cop,hc⟩

theorem completed (h : Inv s) (hu : step s (.pop t k false)=some s') :
    (∀ c i,s.waits (t,c)=some (k,i) ↔ s'.resumed=s.resumed++[⟨t,c,k,i,some (k,i)⟩]) ∧
      (¬waited s k → s'.resumed=s.resumed) ∧ ¬waited s' k := by
  simp only [step] at hu
  split at hu
  · rename_i ha
    split at hu
    · rename_i hfalse
      cases hfalse
    · split at hu
      · rename_i ho
        cases hu
        rcases reap_cases h ha ho with ⟨c,hw,heq⟩ | ⟨hk,-,hres,hwaits⟩
        · have hres : (reap s t k).resumed=s.resumed++[⟨t,c,k,(s.ele k).cop,some (k,(s.ele k).cop)⟩] := by
            rw [heq,← hw]
            rfl
          refine ⟨fun d i => ⟨fun hd => ?_,fun hd => ?_⟩,fun hk => absurd (waited_iff.mpr ⟨t,c,_,hw⟩) hk,?_⟩
          · obtain ⟨-,rfl,rfl⟩ := h.only hw hd
            exact hres
          · rw [hres] at hd
            have := List.append_cancel_left hd
            cases this
            exact hw
          · rw [heq]
            exact woken_waited h hw
        · refine ⟨fun c i => ⟨fun hw => absurd (waited_iff.mpr ⟨t,c,i,hw⟩) hk,fun hd => ?_⟩,fun _ => hres,?_⟩
          · rw [hres] at hd
            simp at hd
          · rwa [waited_same hwaits]
      · cases hu
  · cases hu

/-- Only a CTC of another thread makes a cease fail, and then there is no coroutine of this thread in its slot. -/
theorem failed (h : Inv s) (hu : step s (.cease t k)=some s') (hok : orderly s (.cease t k))
    (herr : dpretIserr (dpevpEnd (s.ele k) t)) :
    s'.resumed=s.resumed ∧ s'.waits=s.waits ∧ ∀ u c j i,s.waits (u,c)=some (j,i) →
      copIndex (s'.ele j)=i ∧ s'.cache (u,i)=some (.thread c) := by
  have hforeign : (s.ele k).own≠some t := by
    intro ho
    unfold dpevpEnd at herr
    split at herr
    · exact absurd herr (by decide)
    · rw [if_neg (by simp [ho])] at herr
      exact absurd herr (by decide)
  have hi := hok.resolve_left hforeign
  simp only [step] at hu
  split at hu
  · cases hu
    have hinv := inv_take h hi
    rw [cease_idle hi]
    exact ⟨rfl,rfl,fun u c j i hw => hinv.linked hw⟩
  · cases hu

theorem Inv.sound (h : Inv s) : Sound s where
  linked _ _ _ _ hw := h.linked hw
  exact := h.exact
  once := h.once
  freed r hr := (h.freed r hr).2
  completed _ _ _ hu := Dpapp.LuaAwait.completed h hu
  failed _ _ _ hu hok herr := Dpapp.LuaAwait.failed h hu hok herr

end Steps

section Runs
variable [Fintype τ] [Fintype γ]

instance (s : State τ κ γ) (k : κ) : Decidable (waited s k) := inferInstanceAs (Decidable (∃ p,_))

instance (s : State τ κ γ) (t : τ) (k : κ) (data : ℤ) : Decidable (harmless s t k data) :=
  inferInstanceAs (Decidable (_ ∨ _ ∧ _ ∧ _))

instance (s : State τ κ γ) : (a : Act τ κ γ) → Decidable (orderly s a)
  | .await .. => inferInstanceAs (Decidable (_=true → _=false → _))
  | .cease .. => inferInstanceAs (Decidable (_ ∨ _))
  | .del _ => inferInstanceAs (Decidable (_=1 → _))
  | .setDetach _ b => inferInstanceAs (Decidable (b=true → _=false → _))
  | .add .. => inferInstanceAs (Decidable (_=Kind.tmr → _))
  | .new .. | .ref .. | .timer .. | .pop .. => .isTrue trivial

end Runs

/-- An element is awaited, ceased and awaited again before the loop has seen it; a timer runs its function, and a handler
ceases its own call, whose caller's index has no coroutine here. -/
def mixed : List (Act (Fin 2) (Fin 3) (Fin 1)) :=
  [.new 0 0 .efd,.add 0 0 false 0 true,.await 0 0 0,.cease 0 0,.await 0 0 0,
    .timer 0 2 true true,.pop 0 2 false,
    .new 1 1 .ctc,.add 1 1 false 0 true,.await 1 0 1,.pop 0 1 true,.cease 0 1,
    .pop 0 0 false,.pop 1 1 false]

/-- The same, with a coroutine that waits in the first slot: the cease is refused, and has taken it. -/
def refused : List (Act (Fin 2) (Fin 2) (Fin 1)) :=
  [.new 0 0 .efd,.add 0 0 false 0 true,.await 0 0 0,
    .new 1 1 .ctc,.add 1 1 false 0 true,.await 1 0 1,.pop 0 1 true,.cease 0 1]

end Dpapp.LuaAwait
