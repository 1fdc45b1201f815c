import Dpapp.EngineQueues

/-! # Who owns a timer (dpcwc.c, dpcpp.cc, dplua.lua)

The timers with a callback of the three runtimes: what the engine, the main loop, the callback and the caller do with their
references. -/

namespace Dpapp.TmrOwner
open Dpapp.Machine Dpapp.Engine

variable {κ : Type*}

/-- dpcwc_timer without and with an output pointer, dpcpp::timer, dplua.timer and dplua.timer_take -/
inductive Maker | cwc | cwcOut | cpp | lua | luaTake
  deriving DecidableEq

/-- The function makes a reference for its caller. -/
def Maker.refs : Maker → Bool
  | .cwcOut | .luaTake => true
  | .cwc | .cpp | .lua => false

/-- The caller gets the element. -/
def Maker.gives : Maker → Bool
  | .cwc => false
  | .cwcOut | .cpp | .lua | .luaTake => true

/-- What the engine has of a timer. -/
structure Core where
  refc : ℤ := 1
  doing : Bool := false
  isTiming : Bool := false
  queued : Bool := false

/- `body` tells whether there is what data[0] stands for, `frames` counts the callbacks that have begun and not returned, and
`held` is whether the caller has the element and has not let go of it. History: `frees` counts the frees, and `fault` is
whether the element has been touched after one. -/
structure Tmr extends Core where
  maker : Maker
  body : Bool := true
  frames : ℕ := 0
  held : Bool := false
  frees : ℕ := 0
  fault : Bool := false

def Tmr.touch (t : Tmr) : Tmr := {t with fault := t.fault || decide (t.frees≠0)}

def Tmr.free (t : Tmr) : Tmr := {t with frees := t.frees+1}

/-- dpele_del -/
def dpeleDel (t : Tmr) : Tmr :=
  let u := {t.touch with refc := t.refc-1}
  if t.refc=1 ∧ t.doing=false then u.free else u

/-- dpevp_end of a timer -/
def dpevpEnd (t : Tmr) : Tmr := if t.doing=true then {t.touch with isTiming := false, queued := true} else t.touch

/-- `_dpele_asc_over` of a timer with dptmr_timeout, which has no post function -/
def dpeleAscOver (t : Tmr) : Tmr × Bool :=
  let u := {t.touch with doing := false}
  if t.refc≤0 then (u.free,false) else (u,true)

/-- What a main loop does with a timer that dpevp_pop returns; `ok` is whether dpaco_wrap can make a coroutine. -/
def mainStep (t : Tmr) (ok : Bool) : Tmr :=
  match t.maker with
  | .cwc | .cwcOut => if ok=true then {t.touch with frames := t.frames+1} else t.touch
  | .cpp => {t.touch with frames := t.frames+1}
  -- the body is taken from the cache
  | .lua | .luaTake => if t.body=true then {t.touch with frames := t.frames+1, body := false} else t.touch

def Tmr.reap (t : Tmr) (ok : Bool) : Tmr :=
  match dpeleAscOver t with
  | (u,true) => mainStep u ok
  | (u,false) => u

/-- `_dpcwc_run_tmr` and the `_run_tmr` of the others after the callback: dpele_set_ret, dpele_del -/
def runTmr (t : Tmr) : Tmr := dpeleDel {t.touch with frames := t.frames-1}

/-- The functions that make a timer, once they have the element: `added` is whether dpevp_add returns DPE_WAIT, `timed` whether
dpele_set_timeout has found memory. -/
def make (maker : Maker) (added timed : Bool) : Tmr :=
  let t : Tmr := {maker := maker}
  if added=true then
    let t := {t with doing := true, isTiming := timed, held := maker.gives}
    if maker.refs=true then {t with refc := t.refc+1} else t
  else dpeleDel t

inductive Event
  | expire (ok : Bool)
  | pop (ok : Bool)
  | finish
  | callbackUses
  | callerUses
  | cease (last : Bool)
  | del

def Tmr.act (t : Tmr) : Event → Option Tmr
  -- dptmrset_expire
  | .expire ok => if t.isTiming=true then some (Tmr.reap {t with isTiming := false} ok) else none
  -- the ready deque
  | .pop ok => if t.queued=true then some (Tmr.reap {t with queued := false} ok) else none
  | .finish => if t.frames≠0 then some (runTmr t) else none
  | .callbackUses => if t.frames≠0 then some t.touch else none
  | .callerUses => if t.held=true then some t.touch else none
  -- dpcwc_cease, dpcpp::cease, dplua.cease; with `last` it is how the caller lets go of the element
  | .cease last => if t.held=true then some {dpevpEnd t with held := !last} else none
  | .del => if t.held=true then some {dpeleDel t with held := false} else none

inductive Act (κ : Type*)
  | make (k : κ) (maker : Maker) (added timed : Bool)
  | on (k : κ) (e : Event)

variable [DecidableEq κ]

def step (s : κ → Option Tmr) : Act κ → Option (κ → Option Tmr)
  | .make k maker added timed => if (s k).isNone then some (Function.update s k (some (make maker added timed))) else none
  | .on k e => (s k).bind fun t => (t.act e).map fun u => Function.update s k (some u)

/-- Nobody will use the timer again: it is over, its callback has returned, and a caller with a reference has let go of it. -/
def Tmr.settled (t : Tmr) : Prop := t.doing=false ∧ t.frames=0 ∧ (t.maker.refs=true → t.held=false)

/-- It is freed once and not touched after that, and when nobody will use it again it has been freed. -/
structure Owned (t : Tmr) : Prop where
  once : t.frees≤1
  after : t.fault=false
  freed : t.settled → t.frees=1

/-- The timer waits, or its callback has not returned. -/
def Tmr.busy (t : Tmr) : Prop := t.doing=true ∨ t.frames≠0

/- A caller with a reference lets go of it by dpele_del; one without calls dpele_del only before the callback begins, and uses
or ceases the timer only before it has returned. dpaco_wrap can make the coroutine. -/
def Tmr.fit (t : Tmr) : Event → Prop
  | .expire ok | .pop ok => t.maker=.cwc ∨ t.maker=.cwcOut → ok=true
  | .cease last => if t.maker.refs=true then last=false else t.busy
  | .callerUses => t.maker.refs=false → t.busy
  | .del => t.maker.refs=false → t.doing=true
  | .finish | .callbackUses => True

def fit (s : κ → Option Tmr) : Act κ → Prop
  | .make .. => True
  | .on k e => ∀ t,s k=some t → t.fit e

/-! ### The calls as the engine has them -/

section
variable {ι : Type*} [LinearOrder ι] {s u : Dpevp ι} {k : ι} {t : Tmr}

def core (s : Dpevp ι) (k : ι) : Core where
  refc := (s.ele k).refc
  doing := dpeleIsDoing (s.ele k)
  isTiming := (s.ele k).isTiming
  queued := decide (k∈ s.ready)

theorem core_setEle (e : Ele ι) : core (s.setEle k e) k=
    ⟨e.refc,dpeleIsDoing e,e.isTiming,decide (k∈ s.ready)⟩ := by
  unfold core Dpevp.setEle
  simp only [Function.update_self]

theorem core_unref : core (unref s k) k={core s k with refc := (core s k).refc-1} := by
  unfold unref
  simp only
  by_cases h : (s.ele k).refc=1 ∧ (s.ele k).asc.isNone=true
  · rw [if_pos h]
    exact core_setEle (s := s) _
  · rw [if_neg h]
    exact core_setEle (s := s) _

theorem core_ascEnd : core (ascEnd s k) k=core s k := by
  unfold ascEnd
  by_cases h : (s.ele k).refc=0
  · rw [if_pos h]
    rfl
  · rw [if_neg h]

theorem core_ascOver : core (Engine.dpeleAscOver s k) k={core s k with doing := false} := by
  have hset : core ((s.setEle k {s.ele k with efd := {(s.ele k).efd with want := ∅}, asc := none}).setPending k false) k=
    {core s k with doing := false} := core_setEle (s := s) _
  unfold Engine.dpeleAscOver
  simp only
  by_cases haio : (s.ele k).kind=.efd ∨ (s.ele k).aio=true
  · rw [if_pos haio,core_ascEnd,hset]
  rw [if_neg haio]
  by_cases hpost : (s.ele k).asc.any (·.post)=true
  · rw [if_pos hpost]
    exact hset
  · rw [if_neg hpost,core_ascEnd,hset]

/-- Removing a timer from the tree leaves its other fields. -/
theorem remove_fields : ((dptmrsetRemove s k).ele k).refc=(s.ele k).refc ∧ ((dptmrsetRemove s k).ele k).asc=(s.ele k).asc ∧
    ((dptmrsetRemove s k).ele k).isTiming=false := by
  unfold dptmrsetRemove
  by_cases h : (s.ele k).isTiming=true
  · rw [if_pos h]
    simp only [Dpevp.setEle,Function.update_self]
    exact ⟨trivial,trivial,trivial⟩
  · rw [if_neg h]
    exact ⟨rfl,rfl,Bool.not_eq_true _ ▸ h⟩

theorem engine_del (ht : t.toCore=core s k) (h : Engine.step s (.del k)=some u) : (dpeleDel t).toCore=core u k := by
  have hleft : (dpeleDel t).toCore={t.toCore with refc := t.refc-1} := by
    unfold dpeleDel
    split <;> rfl
  simp only [Engine.step] at h
  by_cases howns : Engine.owns s k
  · rw [if_pos howns,Option.some.injEq] at h
    rw [hleft,ht,← h,core_unref,← ht]
  · rw [if_neg howns] at h
    cases h

theorem engine_end {r : Ret.Dpret} (ht : t.toCore=core s k) (h : Engine.step s (.end_ k r)=some u) :
    (dpevpEnd t).toCore=core u k := by
  have hdoing : t.doing=dpeleIsDoing (s.ele k) := congrArg Core.doing ht
  simp only [Engine.step] at h
  by_cases hlive : s.dels=[] ∧ s.alive k=true
  · rw [if_pos hlive] at h
    unfold dpevpEnd
    by_cases hd : dpeleIsDoing (s.ele k)=true
    · rw [if_pos hd,Option.some.injEq] at h
      rw [if_pos (hdoing.trans hd),← h]
      obtain ⟨hrefc,hasc,htiming⟩ := remove_fields (s := s) (k := k)
      have hqueued (l : List ι) : k∈ CtcChannel.deqPushBack l k := by
        unfold CtcChannel.deqPushBack
        by_cases hin : k∈ l
        · rw [if_pos hin]
          exact hin
        · rw [if_neg hin]
          exact List.mem_append_right _ (List.mem_singleton_self k)
      have hleft : t.refc=(s.ele k).refc := congrArg Core.refc ht
      have hdoing : t.doing=(s.ele k).asc.isSome := hdoing
      unfold core Dpevp.setPending Dpevp.setEle
      simp only [Function.update_self,hrefc,htiming,dpeleIsDoing,hasc,decide_eq_true (hqueued _)]
      rw [← hleft,← hdoing]
      rfl
    · rw [if_neg hd,Option.some.injEq] at h
      rw [if_neg (by rw [hdoing]; exact hd),← h]
      exact ht
  · rw [if_neg hlive] at h
    cases h

theorem ascOver_core (t : Tmr) : (dpeleAscOver t).1.toCore={t.toCore with doing := false} := by
  unfold dpeleAscOver
  by_cases h : t.refc≤0
  · rw [if_pos h]
    rfl
  · rw [if_neg h]
    rfl

theorem engine_expire {now : ℤ} {rest : List ι} (ht : t.toCore=core s k) (hk : s.timer=k::rest)
    (h : Engine.step s (.reapTmr now)=some u) : (dpeleAscOver {t with isTiming := false}).1.toCore=core u k := by
  simp only [Engine.step,hk] at h
  by_cases hnext : popping s ∧ s.evs=[] ∧ ((s.ele k).spec.all fun x => x.expire≤now)=true
  · rw [if_pos hnext,Option.some.injEq] at h
    rw [ascOver_core,← h,core_ascOver,ht]
    simp only [core,Dpevp.setEle,Function.update_self]
    rfl
  · rw [if_neg hnext] at h
    cases h

theorem engine_pop {rest : List ι} (ht : t.toCore=core s k) (hk : s.ready=k::rest) (hrest : k∉ rest)
    (h : Engine.step s .reapUsd=some u) : (dpeleAscOver {t with queued := false}).1.toCore=core u k := by
  simp only [Engine.step,hk] at h
  by_cases hnext : popping s ∧ s.evs=[]
  · rw [if_pos hnext,Option.some.injEq] at h
    rw [ascOver_core,← h,core_ascOver,ht]
    simp only [core,decide_eq_false hrest]
  · rw [if_neg hnext] at h
    cases h

end

/-! ### Whose references there are -/

/-- The caller's reference. -/
def Tmr.caller (t : Tmr) : ℤ := if t.maker.refs=true ∧ t.held=true then 1 else 0

/-- It is in the timer tree or in the ready deque, not in both. -/
def Tmr.apart (t : Tmr) : Prop := t.isTiming=true → t.queued=false

structure Tmr.Idle (t : Tmr) : Prop where
  doing : t.doing=false
  isTiming : t.isTiming=false
  queued : t.queued=false

/- The life of a timer: it waits, or waits after its last reference has been dropped; its callback runs; the caller keeps it
after that; it is gone. -/
inductive Phase (t : Tmr) : Prop
  | waits (hdoing : t.doing=true) (hapart : t.apart) (hframes : t.frames=0) (hfrees : t.frees=0) (hbody : t.body=true)
      (hrefc : t.refc=1+t.caller)
  | dropped (hdoing : t.doing=true) (hapart : t.apart) (hframes : t.frames=0) (hfrees : t.frees=0) (hrefc : t.refc=0)
      (hrefs : t.maker.refs=false) (hheld : t.held=false)
  | runs (hidle : t.Idle) (hframes : t.frames=1) (hfrees : t.frees=0) (hrefc : t.refc=1+t.caller)
  | kept (hidle : t.Idle) (hframes : t.frames=0) (hfrees : t.frees=0) (hrefc : t.refc=1) (hrefs : t.maker.refs=true)
      (hheld : t.held=true)
  | gone (hidle : t.Idle) (hframes : t.frames=0) (hfrees : t.frees=1) (hheld : t.maker.refs=true → t.held=false)

structure Sound (t : Tmr) : Prop where
  fault : t.fault=false
  phase : Phase t

section
variable {ok last : Bool} {t u : Tmr}

theorem touch_eq (h : t.frees=0) : t.touch=t := by
  have hno : decide (t.frees≠0)=false := decide_eq_false (not_not_intro h)
  unfold Tmr.touch
  rw [hno,Bool.or_false]

theorem caller_unowned (h : t.maker.refs=false) : t.caller=0 := by
  unfold Tmr.caller
  rw [if_neg]
  rintro ⟨hrefs,-⟩
  rw [h] at hrefs
  cases hrefs

theorem caller_held (h : t.maker.refs=true) (hheld : t.held=true) : t.caller=1 := if_pos ⟨h,hheld⟩

theorem caller_cases (t : Tmr) : t.caller=0 ∧ (t.maker.refs=true → t.held=false) ∨
    t.caller=1 ∧ t.maker.refs=true ∧ t.held=true := by
  unfold Tmr.caller
  by_cases h : t.maker.refs=true ∧ t.held=true
  · exact .inr ⟨if_pos h,h⟩
  · refine .inl ⟨if_neg h,fun hrefs => ?_⟩
    exact Bool.not_eq_true _ ▸ fun hheld => h ⟨hrefs,hheld⟩

theorem Sound.owned (h : Sound t) : Owned t := by
  refine ⟨?_,h.fault,?_⟩
  · cases h.phase <;> omega
  · rintro ⟨hdoing,hframes,hheld⟩
    cases h.phase with
    | waits hdoing' => rw [hdoing] at hdoing'; cases hdoing'
    | dropped hdoing' => rw [hdoing] at hdoing'; cases hdoing'
    | runs _ hframes' => omega
    | kept _ _ _ _ hrefs hheld' => rw [hheld hrefs] at hheld'; cases hheld'
    | gone _ _ hfrees => exact hfrees

/-- What a main loop does with a waiting timer that dpevp_pop returns. -/
theorem mainStep_runs (hok : t.maker=.cwc ∨ t.maker=.cwcOut → ok=true) (hbody : t.body=true) (hfrees : t.frees=0) :
    ∃ b,mainStep t ok={t with frames := t.frames+1, body := b} := by
  unfold mainStep
  rw [touch_eq hfrees]
  cases hmaker : t.maker with
  | cwc =>
    simp only [if_pos (hok (.inl hmaker))]
    exact ⟨t.body,by rw [← hmaker]⟩
  | cwcOut =>
    simp only [if_pos (hok (.inr hmaker))]
    exact ⟨t.body,by rw [← hmaker]⟩
  | cpp =>
    simp only
    exact ⟨t.body,by rw [← hmaker]⟩
  | lua | luaTake =>
    simp only [if_pos hbody]
    exact ⟨false,by rw [← hmaker]⟩

/-- A waiting timer that the engine has taken out of its tree or deque. -/
theorem reap_waits (hfault : t.fault=false) (hsets : t.isTiming=false ∧ t.queued=false) (hframes : t.frames=0) (hfrees : t.frees=0)
    (hbody : t.body=true) (hrefc : t.refc=1+t.caller) (hok : t.maker=.cwc ∨ t.maker=.cwcOut → ok=true) : Sound (t.reap ok) := by
  have hpos : ¬t.refc≤0 := by
    rcases caller_cases t with ⟨hc,-⟩ | ⟨hc,-⟩ <;> omega
  unfold Tmr.reap dpeleAscOver
  rw [touch_eq hfrees,if_neg hpos]
  obtain ⟨b,hrun⟩ := mainStep_runs (t := {t with doing := false}) hok hbody hfrees
  simp only [hrun]
  exact ⟨hfault,.runs ⟨rfl,hsets.1,hsets.2⟩ (by simp only [hframes]) hfrees hrefc⟩

theorem reap_dropped (hfault : t.fault=false) (hsets : t.isTiming=false ∧ t.queued=false) (hframes : t.frames=0)
    (hfrees : t.frees=0) (hrefc : t.refc=0) (hrefs : t.maker.refs=false) : Sound (t.reap ok) := by
  have hzero : t.refc≤0 := by omega
  unfold Tmr.reap dpeleAscOver
  rw [touch_eq hfrees,if_pos hzero]
  refine ⟨hfault,.gone ⟨rfl,hsets.1,hsets.2⟩ hframes (by simp only [Tmr.free,hfrees]) fun h => ?_⟩
  have h : t.maker.refs=true := h
  rw [hrefs] at h
  cases h

/-- dpele_del of a timer that is not gone. -/
theorem del_eq (hfrees : t.frees=0) : dpeleDel t=if t.refc=1 ∧ t.doing=false then {t with refc := t.refc-1, frees := 1}
    else {t with refc := t.refc-1} := by
  unfold dpeleDel
  rw [touch_eq hfrees]
  simp only [Tmr.free,hfrees,Nat.zero_add]

theorem sound_make (maker : Maker) (added timed : Bool) : Sound (make maker added timed) := by
  cases added with
  | true =>
    have hapart {c : Core} (hq : c.queued=false) : c.isTiming=true → c.queued=false := fun _ => hq
    cases maker <;> exact ⟨rfl,.waits rfl (hapart rfl) rfl rfl rfl rfl⟩
  | false => exact ⟨rfl,.gone ⟨rfl,rfl,rfl⟩ rfl rfl fun _ => rfl⟩

theorem sound_expire (h : Sound t) (hok : t.fit (.expire ok)) (hu : t.act (.expire ok)=some u) : Sound u := by
  unfold Tmr.act at hu
  by_cases hset : t.isTiming=true
  · simp only [if_pos hset,Option.some.injEq] at hu
    rw [← hu]
    cases h.phase with
    | waits hdoing hapart hframes hfrees hbody hrefc =>
      exact reap_waits (t := {t with isTiming := false}) h.fault ⟨rfl,hapart hset⟩ hframes hfrees hbody hrefc hok
    | dropped hdoing hapart hframes hfrees hrefc hrefs =>
      exact reap_dropped (t := {t with isTiming := false}) h.fault ⟨rfl,hapart hset⟩ hframes hfrees hrefc hrefs
    | runs hidle | kept hidle | gone hidle =>
      rw [hidle.isTiming] at hset
      cases hset
  · simp only [if_neg hset] at hu
    cases hu

theorem sound_pop (h : Sound t) (hok : t.fit (.pop ok)) (hu : t.act (.pop ok)=some u) : Sound u := by
  unfold Tmr.act at hu
  by_cases hset : t.queued=true
  · simp only [if_pos hset,Option.some.injEq] at hu
    rw [← hu]
    have hclear (hapart : t.apart) : t.isTiming=false := Bool.not_eq_true _ ▸ fun hyes => by
      rw [hapart hyes] at hset
      cases hset
    cases h.phase with
    | waits hdoing hapart hframes hfrees hbody hrefc =>
      exact reap_waits (t := {t with queued := false}) h.fault ⟨hclear hapart,rfl⟩ hframes hfrees hbody hrefc hok
    | dropped hdoing hapart hframes hfrees hrefc hrefs =>
      exact reap_dropped (t := {t with queued := false}) h.fault ⟨hclear hapart,rfl⟩ hframes hfrees hrefc hrefs
    | runs hidle | kept hidle | gone hidle =>
      rw [hidle.queued] at hset
      cases hset
  · simp only [if_neg hset] at hu
    cases hu

/-- The callback returns: the reference of the loop goes. -/
theorem sound_finish (h : Sound t) (hu : t.act .finish=some u) : Sound u := by
  unfold Tmr.act at hu
  by_cases hset : t.frames≠0
  · simp only [if_pos hset,Option.some.injEq] at hu
    rw [← hu]
    cases h.phase with
    | runs hidle hframes hfrees hrefc =>
      unfold runTmr
      rw [touch_eq hfrees,del_eq (t := {t with frames := t.frames-1}) hfrees]
      have hback : t.frames-1=0 := by omega
      rcases caller_cases t with ⟨hc,hheld⟩ | ⟨hc,hrefs,hheld⟩
      · have hone : t.refc=1 := by omega
        rw [if_pos ⟨hone,hidle.doing⟩]
        exact ⟨h.fault,.gone ⟨hidle.doing,hidle.isTiming,hidle.queued⟩ hback rfl hheld⟩
      · rw [if_neg fun hno => (by omega : ¬t.refc=1) hno.1]
        exact ⟨h.fault,.kept ⟨hidle.doing,hidle.isTiming,hidle.queued⟩ hback hfrees (by simp only [hrefc,hc]; decide) hrefs hheld⟩
    | waits _ _ hframes | dropped _ _ hframes | kept _ hframes | gone _ hframes => exact absurd hframes hset
  · simp only [if_neg hset] at hu
    cases hu

/-- A timer whose caller may still use it is not gone. -/
theorem Sound.frees (h : Sound t) (hheld : t.held=true) (hok : t.maker.refs=false → t.busy) : t.frees=0 := by
  cases h.phase with
  | waits _ _ _ hfrees | dropped _ _ _ hfrees | runs _ _ hfrees | kept _ _ hfrees => exact hfrees
  | gone hidle hframes _ hno =>
    cases hrefs : t.maker.refs with
    | true =>
      rw [hno hrefs] at hheld
      cases hheld
    | false =>
      rcases hok hrefs with hdoing | hrun
      · rw [hidle.doing] at hdoing
        cases hdoing
      · exact absurd hframes hrun

theorem sound_touch (h : Sound t) (hfrees : t.frees=0) : Sound t.touch := by
  rw [touch_eq hfrees]
  exact h

theorem sound_uses (h : Sound t) (hu : t.act .callbackUses=some u) : Sound u := by
  unfold Tmr.act at hu
  by_cases hset : t.frames≠0
  · simp only [if_pos hset,Option.some.injEq] at hu
    rw [← hu]
    cases h.phase with
    | runs _ _ hfrees => exact sound_touch h hfrees
    | waits _ _ hframes | dropped _ _ hframes | kept _ hframes | gone _ hframes => exact absurd hframes hset
  · simp only [if_neg hset] at hu
    cases hu

theorem sound_callerUses (h : Sound t) (hok : t.fit .callerUses) (hu : t.act .callerUses=some u) : Sound u := by
  unfold Tmr.act at hu
  by_cases hset : t.held=true
  · simp only [if_pos hset,Option.some.injEq] at hu
    rw [← hu]
    exact sound_touch h (h.frees hset hok)
  · simp only [if_neg hset] at hu
    cases hu

/-- The caller lets go of a timer without its reference going. -/
theorem caller_kept {held : Bool} (h : t.maker.refs=true → held=t.held) : Tmr.caller {t with held := held}=t.caller := by
  unfold Tmr.caller
  cases hrefs : t.maker.refs with
  | false => rfl
  | true => rw [h hrefs]

theorem sound_cease (h : Sound t) (hok : t.fit (.cease last)) (hu : t.act (.cease last)=some u) : Sound u := by
  unfold Tmr.act at hu
  by_cases hset : t.held=true
  · simp only [if_pos hset,Option.some.injEq] at hu
    have hbusy (hrefs : t.maker.refs=false) : t.busy := by
      have hok : if t.maker.refs=true then last=false else t.busy := hok
      rw [hrefs] at hok
      exact hok
    have hkeep (hrefs : t.maker.refs=true) : (!last)=t.held := by
      have hok : if t.maker.refs=true then last=false else t.busy := hok
      rw [if_pos hrefs] at hok
      rw [hok,hset]
      rfl
    have hfrees := h.frees hset hbusy
    rw [← hu]
    unfold dpevpEnd
    rw [touch_eq hfrees]
    cases h.phase with
    | waits hdoing hapart hframes _ hbody hrefc =>
      rw [if_pos hdoing]
      exact ⟨h.fault,.waits hdoing (fun hno => by cases hno) hframes hfrees hbody
        (hrefc.trans (congrArg (1+·) (caller_kept hkeep).symm))⟩
    | dropped _ _ _ _ _ _ hheld =>
      rw [hheld] at hset
      cases hset
    | runs hidle hframes _ hrefc =>
      rw [if_neg (by rw [hidle.doing]; decide)]
      exact ⟨h.fault,.runs ⟨hidle.doing,hidle.isTiming,hidle.queued⟩ hframes hfrees
        (hrefc.trans (congrArg (1+·) (caller_kept hkeep).symm))⟩
    | kept hidle hframes _ hrefc hrefs hheld =>
      rw [if_neg (by rw [hidle.doing]; decide)]
      exact ⟨h.fault,.kept ⟨hidle.doing,hidle.isTiming,hidle.queued⟩ hframes hfrees hrefc hrefs ((hkeep hrefs).trans hheld)⟩
    | gone _ _ hone =>
      rw [hfrees] at hone
      cases hone
  · simp only [if_neg hset] at hu
    cases hu

theorem sound_del (h : Sound t) (hok : t.fit .del) (hu : t.act .del=some u) : Sound u := by
  unfold Tmr.act at hu
  by_cases hset : t.held=true
  · simp only [if_pos hset,Option.some.injEq] at hu
    have hfrees := h.frees hset fun hrefs => .inl (hok hrefs)
    rw [← hu,del_eq hfrees]
    have hlet {v : Tmr} (hv : v.held=false) : v.caller=0 := by
      unfold Tmr.caller
      rw [if_neg]
      rintro ⟨-,hno⟩
      rw [hv] at hno
      cases hno
    cases h.phase with
    | waits hdoing hapart hframes _ hbody hrefc =>
      rw [if_neg (by rw [hdoing]; exact fun hno => Bool.noConfusion hno.2)]
      cases hrefs : t.maker.refs with
      | true =>
        have hc := caller_held hrefs hset
        refine ⟨h.fault,.waits hdoing hapart hframes hfrees hbody ?_⟩
        rw [hlet rfl]
        simp only
        omega
      | false =>
        have hc := caller_unowned hrefs
        exact ⟨h.fault,.dropped hdoing hapart hframes hfrees (by simp only; omega) hrefs rfl⟩
    | dropped _ _ _ _ _ _ hheld =>
      rw [hheld] at hset
      cases hset
    | runs hidle hframes _ hrefc =>
      cases hrefs : t.maker.refs with
      | true =>
        have hc := caller_held hrefs hset
        rw [if_neg fun hno => (by omega : ¬t.refc=1) hno.1]
        refine ⟨h.fault,.runs ⟨hidle.doing,hidle.isTiming,hidle.queued⟩ hframes hfrees ?_⟩
        rw [hlet rfl]
        simp only
        omega
      | false =>
        have hno := hok hrefs
        rw [hidle.doing] at hno
        cases hno
    | kept hidle hframes _ hrefc =>
      rw [if_pos ⟨hrefc,hidle.doing⟩]
      exact ⟨h.fault,.gone ⟨hidle.doing,hidle.isTiming,hidle.queued⟩ hframes rfl fun _ => rfl⟩
    | gone _ _ hone =>
      rw [hfrees] at hone
      cases hone
  · simp only [if_neg hset] at hu
    cases hu

theorem sound_act {e : Event} (h : Sound t) (hok : t.fit e) (hu : t.act e=some u) : Sound u := by
  cases e with
  | expire ok => exact sound_expire h hok hu
  | pop ok => exact sound_pop h hok hu
  | finish => exact sound_finish h hu
  | callbackUses => exact sound_uses h hu
  | callerUses => exact sound_callerUses h hok hu
  | cease last => exact sound_cease h hok hu
  | del => exact sound_del h hok hu

end

section
variable {s u : κ → Option Tmr}

theorem step_sound {a : Act κ} (h : ∀ k t,s k=some t → Sound t) (hok : fit s a) (hu : step s a=some u) :
    ∀ k t,u k=some t → Sound t := by
  intro j t ht
  cases a with
  | make k maker added timed =>
    simp only [step] at hu
    by_cases hnew : (s k).isNone=true
    · simp only [if_pos hnew,Option.some.injEq] at hu
      rw [← hu] at ht
      by_cases hj : j=k
      · rw [hj,Function.update_self] at ht
        cases ht
        exact sound_make maker added timed
      · rw [Function.update_of_ne hj] at ht
        exact h j t ht
    · simp only [if_neg hnew] at hu
      cases hu
  | on k e =>
    obtain ⟨v,hv,hu⟩ := Option.bind_eq_some_iff.mp hu
    obtain ⟨w,hw,hu⟩ := Option.map_eq_some_iff.mp hu
    rw [← hu] at ht
    by_cases hj : j=k
    · rw [hj,Function.update_self] at ht
      cases ht
      exact sound_act (h k v hv) (hok v hv) hw
    · rw [Function.update_of_ne hj] at ht
      exact h j t ht

theorem tmr_owned (h : Reach step fit (fun _ => none) s) {k : κ} {t : Tmr} (ht : s k=some t) : Owned t := by
  have hall : ∀ k t,s k=some t → Sound t :=
    h.invariant (fun k t hno => by cases hno) fun _ _ _ hs hok hu => step_sound hs hok hu
  exact (hall k t ht).owned

end

instance (t : Tmr) : Decidable t.busy := inferInstanceAs (Decidable (_ ∨ _))

instance (t : Tmr) : (e : Event) → Decidable (t.fit e)
  | .expire _ | .pop _ => inferInstanceAs (Decidable (_ → _))
  | .cease last => inferInstanceAs (Decidable (if t.maker.refs=true then last=false else t.busy))
  | .callerUses | .del => inferInstanceAs (Decidable (_ → _))
  | .finish | .callbackUses => .isTrue trivial

instance (s : κ → Option Tmr) : (a : Act κ) → Decidable (fit s a)
  | .make .. => .isTrue trivial
  | .on k e =>
    match hs : s k with
    | none => .isTrue fun t ht => by rw [hs] at ht; cases ht
    | some t => decidable_of_iff (t.fit e) ⟨fun h u hu => by rw [hs] at hu; cases hu; exact h,fun h => h t hs⟩

/-- dpcwc_timer with an output pointer: the timer is ceased, its callback suspends, the caller deletes it meanwhile. -/
theorem tmr_owned_deleted : ∃ (s : Unit → Option Tmr) (t : Tmr),s ()=some t ∧ t.settled ∧ Owned t := by
  have hrun : ((execOk step fit (fun _ => none) [.make () .cwcOut true true,.on () (.cease false),.on () (.pop true),
      .on () .callbackUses,.on () .del,.on () .finish]).any fun s => (s ()).any fun t =>
        decide (t.doing=false ∧ t.frames=0 ∧ t.held=false))=true := by
    decide
  obtain ⟨s,hs,hs'⟩ := (Option.any_eq_true _ _).mp hrun
  obtain ⟨t,ht,ht'⟩ := (Option.any_eq_true _ _).mp hs'
  obtain ⟨hdoing,hframes,hheld⟩ := of_decide_eq_true ht'
  exact ⟨s,t,ht,⟨hdoing,hframes,fun _ => hheld⟩,tmr_owned (execOk_reach hs) ht⟩

/-- dpcwc_timer with an output pointer, released by dpcwc_cease: the caller's reference stays. -/
theorem tmr_owned_ceased : ¬∀ (s : Unit → Option Tmr) (t : Tmr),Reach step anyStep (fun _ => none) s → s ()=some t → Owned t := by
  intro h
  have hrun : ((exec step (fun _ => none) [.make () .cwcOut true true,.on () (.cease true),.on () (.pop true),
      .on () .finish]).any fun s => (s ()).any fun t =>
        decide (t.doing=false ∧ t.frames=0 ∧ t.held=false ∧ t.frees=0))=true := by
    decide
  obtain ⟨s,hs,hs'⟩ := (Option.any_eq_true _ _).mp hrun
  obtain ⟨t,ht,ht'⟩ := (Option.any_eq_true _ _).mp hs'
  obtain ⟨hdoing,hframes,hheld,hfrees⟩ := of_decide_eq_true ht'
  have hone := (h s t (exec_reach hs) ht).freed ⟨hdoing,hframes,fun _ => hheld⟩
  omega

end Dpapp.TmrOwner
