import Dpapp.Engine
import Dpapp.Segment

/-! # dpevp_addv with the scratch data of the element (os/linux/dpevp_epoll.c, dpasc.c)

Elements of all types; `τ` names the ascs. A call is none where a prep function
is handed no memory and uses it, or the wake loop never ends. -/

set_option linter.unusedSectionVars false

namespace Dpapp.AscAdd
open Dpapp.Ret Dpapp.EfdWake Dpapp.Segment
open Dpapp.Engine (TmrSpec setAfter rbInsert)
open Dpapp.CtcChannel (deqPushBack)

abbrev Byte := UInt8

inductive EleType | efd | usd | ctc | tmr | weak
  deriving DecidableEq

inductive IoType | nan | gfd | skt | ssl | qic
  deriving DecidableEq

/-- What a prep function leaves: its return value, the event fields, the seconds it has passed to
dpele_set_timeout (in milliseconds here), and the scratch data. -/
structure Prep where
  ret : Dpret
  out : AscOut := {}
  timeout : Option ℤ := none
  data : Option (List Byte)

/-- dpasc_t. `α` are the arguments; `prep` reads the usable events and the scratch data it is handed.
No `iotypes` is any. DPASC_FLAG_ALLOW_DOING stands at ascs for TMR elements only. -/
structure Asc (α : Type*) where
  types : List EleType
  iotypes : List IoType := []
  allowDoing : Bool := false
  datasz : ℕ
  prep : α → Evts → Option (List Byte) → Option Prep
  allowTmr : allowDoing=true → types=[.tmr]

structure Ele (τ : Type*) where
  type : EleType
  iotype : IoType := .nan
  efd : Efd := {}
  isTiming : Bool := false
  isDetach : Bool := false
  ret : Dpret := 0
  spec : Option TmrSpec := none
  asc : Option τ := none
  data : Option (List Byte) := none

/-- `commit` are the elements handed to commit_ctc_f. -/
structure Dpevp (κ τ : Type*) where
  ele : κ → Ele τ
  timer : List κ := []
  ready : List κ := []
  commit : List κ := []

variable {κ τ α : Type*} [LinearOrder κ]

def Dpevp.setEle (s : Dpevp κ τ) (k : κ) (e : Ele τ) : Dpevp κ τ := {s with ele := Function.update s.ele k e}

def dpeleIsDoing (e : Ele τ) : Bool := e.asc.isSome

/-- `_dpele_asc_data`: what the element has then, and what it returns. -/
def dpeleAscData (data : Option (List Byte)) (datasz : ℕ) (mem : Bool) : Option (List Byte) × Option (List Byte) :=
  if datasz=0 then (data,none)
  else
    let zero := List.replicate datasz (0 : Byte)
    match data with
    | some d => if datasz≤d.length then (some (put d 0 zero),some zero) else if mem then (some zero,some zero) else (data,none)
    | none => if mem then (some zero,some zero) else (data,none)

/-- What a function writes through the pointer it was handed. -/
def written (data given : Option (List Byte)) : Option (List Byte) :=
  match data,given with
  | some d,some x => some (put d 0 x)
  | d,_ => d

/-- `_dptmrset_upsert` -/
def dptmrsetUpsert (s : Dpevp κ τ) (k : κ) (now : ℤ) : Dpevp κ τ :=
  match (s.ele k).spec with
  | none => s
  | some x =>
      if x.after<0 then s
      else
        let s := s.setEle k {s.ele k with spec := some {x with expire := now+x.after}}
        let order := fun j => ({spec := (s.ele j).spec} : Engine.Ele κ)
        if (s.ele k).isTiming then {s with timer := rbInsert order k (s.timer.erase k)}
        else if k∈s.timer then s
        else {s.setEle k {s.ele k with isTiming := true} with timer := rbInsert order k s.timer}

/-- `_dpefd_wake`, for what the post function returns and leaves in the scratch data at each call. -/
def wakeLoop : Efd × Turn → Option (List Byte) → List (PostRet × List Byte) → Option (Efd × Dpret × Option (List Byte))
  | (f,.ret r), data, _ => some (f,r,data)
  | (f,.post), data, (p,x)::ps => wakeLoop (dpefdPosted f p) (written data (some x)) ps
  | (_,.post), _, [] => none

/-- dpevp_addv from FINISH on. -/
def addFinish (s : Dpevp κ τ) (k : κ) (ret : Dpret) (now : ℤ) : Dpevp κ τ × Dpret :=
  let e := s.ele k
  if dpretIsok ret then
    ({s.setEle k {e with ret := ret} with ready := deqPushBack s.ready k},if e.isDetach then ret else dpeWait)
  else if ret=dpeWait then
    (dptmrsetUpsert (s.setEle k {e with ret := dpeInprogress}) k now,if e.isDetach then dpeOk else dpeWait)
  else (s.setEle k {e with ret := ret, asc := none},ret)

/-- The asc is for elements like this. -/
def Asc.suits (asc : Asc α) (e : Ele τ) : Prop := e.type∈asc.types ∧ (asc.iotypes=[] ∨ e.iotype∈asc.iotypes)

instance (asc : Asc α) (e : Ele τ) : Decidable (asc.suits e) := inferInstanceAs (Decidable (_ ∧ _))

/-- What the call meets outside of the engine: memory, the time, and the post function. -/
structure Env where
  mem : Bool
  now : ℤ
  posts : List (PostRet × List Byte) := []

/-- dpevp_addv, once the prep function has returned `p`; `data` is what the element has. -/
def addPrepped (s : Dpevp κ τ) (k : κ) (name : τ) (data : Option (List Byte)) (p : Prep) (env : Env) :
    Option (Dpevp κ τ × Dpret) :=
  let e := s.ele k
  let data := written data p.data
  let spec := match p.timeout with
    | some sec => setAfter e.spec sec
    | none => e.spec
  let e := {e with asc := some name, data := data, spec := spec}
  if p.ret≠dpeContinue then some (addFinish (s.setEle k e) k p.ret env.now)
  else match e.type with
    | .efd => (wakeLoop (dpefdWake e.efd p.out) data env.posts).map fun (f,r,data) =>
        addFinish (s.setEle k {e with efd := f, data := data}) k r env.now
    | .ctc => some (addFinish {s.setEle k e with commit := s.commit++[k]} k dpeWait env.now)
    | _ => some (addFinish (s.setEle k e) k dpeWait env.now)

def dpevpAddv (s : Dpevp κ τ) (k : κ) (name : τ) (asc : Asc α) (args : α) (env : Env) : Option (Dpevp κ τ × Dpret) :=
  let e := s.ele k
  if ¬asc.suits e then some (s,dpeInval)
  else if dpeleIsDoing e ∧ asc.allowDoing=false then some (s,dpePerm)
  else
    let (data,given) := dpeleAscData e.data asc.datasz env.mem
    (asc.prep args e.efd.able given).bind fun p => addPrepped s k name data p env

/-! ### The ascs that may be added while doing -/

def v64 (x : UInt64) : List Byte := (List.range 8).map fun i => (x>>>(8*i).toUInt64).toUInt8

/-- `_dptmr_timeout_prep` -/
def dptmrTimeoutPrep (sec : ℤ) (x y : UInt64) (data : Option (List Byte)) : Option Prep :=
  data.map fun d => {ret := dpeContinue, timeout := some sec, data := some (put (put d 0 (v64 x)) 8 (v64 y))}

def dptmrTimeout : Asc (ℤ × UInt64 × UInt64) where
  types := [.tmr]
  allowDoing := true
  datasz := 16
  prep := fun (sec,x,y) _ data => dptmrTimeoutPrep sec x y data
  allowTmr := fun _ => rfl

/-- `_dptmr_callback_prep`; 0 is NULL. -/
def dptmrCallbackPrep (sec : ℤ) (cb arg : UInt64) (data : Option (List Byte)) : Option Prep :=
  data.map fun d =>
    let d := put d 8 (v64 arg)
    if cb≠0 then {ret := dpeContinue, timeout := some sec, data := some (put d 0 (v64 cb))}
    else if (d.take 8).all (·=0) then {ret := dpeInval, data := some d}
    else {ret := dpeContinue, timeout := some sec, data := some d}

def dptmrCallback : Asc (ℤ × UInt64 × UInt64) where
  types := [.tmr]
  allowDoing := true
  datasz := 16
  prep := fun (sec,cb,arg) _ data => dptmrCallbackPrep sec cb arg data
  allowTmr := fun _ => rfl

/-- `_dpefd_poll_prep`; every event is in DPEVT_ALL. -/
def dpefdPoll : Asc Evts where
  types := [.efd]
  datasz := 4
  prep := fun evs _ data => some (if evs=∅ then {ret := dpeInval, data := data}
    else {ret := dpeContinue, out := {want := evs}, data := data})
  allowTmr := fun h => by cases h

/-! ### A refused call -/

/-- An error, other than that of a call that goes on. -/
def refused (r : Dpret) : Prop := dpretIserr r ∧ r≠dpeWait ∧ r≠dpeInprogress

instance (r : Dpret) : Decidable (refused r) := inferInstanceAs (Decidable (_ ∧ _ ∧ _))

/-- The operation pending on `k`, its scratch data, its timer entry and the queues are what they were. -/
structure Untouched (s s' : Dpevp κ τ) (k : κ) : Prop where
  asc : ∀ a∈(s.ele k).asc,(s'.ele k).asc=some a ∧ (s'.ele k).data=(s.ele k).data
  timing : (s'.ele k).isTiming=(s.ele k).isTiming
  expire : ∀ x∈(s.ele k).spec,∃ y∈(s'.ele k).spec,y.expire=x.expire
  timer : s'.timer=s.timer
  ready : s'.ready=s.ready
  commit : s'.commit=s.commit
  others : ∀ j,j≠k → s'.ele j=s.ele j

/-- The prep function of an asc that may be added while doing turns the arguments down. -/
def turnsDown (s : Dpevp κ τ) (k : κ) (asc : Asc α) (args : α) (env : Env) : Prop :=
  asc.suits (s.ele k) ∧ asc.allowDoing=true ∧
    ∃ p∈asc.prep args (s.ele k).efd.able (dpeleAscData (s.ele k).data asc.datasz env.mem).2,p.ret≠dpeContinue ∧ refused p.ret

section Refused
variable {s s' : Dpevp κ τ} {k : κ} {r : Dpret}

theorem untouched_refl (s : Dpevp κ τ) (k : κ) : Untouched s s k :=
  ⟨fun _ ha => ⟨ha,rfl⟩,rfl,fun x hx => ⟨x,hx,rfl⟩,rfl,rfl,rfl,fun _ _ => rfl⟩

theorem addFinish_refused {ret : Dpret} {now : ℤ} (h : addFinish s k ret now=(s',r)) (hr : refused r) :
    r=ret ∧ s'=s.setEle k {s.ele k with ret := ret, asc := none} := by
  obtain ⟨hneg,hwait,-⟩ := hr
  unfold dpretIserr at hneg
  unfold addFinish at h
  simp only at h
  split at h
  · rename_i hok
    cases h
    split at hneg
    · exact (Int.not_lt.mpr hok hneg).elim
    · exact (hwait (if_neg ‹_›)).elim
  · split at h
    · cases h
      split at hneg
      · cases hneg
      · exact (hwait (if_neg ‹_›)).elim
    · cases h
      exact ⟨rfl,rfl⟩

theorem setAfter_expire {x : TmrSpec} {o : Option TmrSpec} (hx : x∈o) (sec : ℤ) : ∃ y∈setAfter o sec,y.expire=x.expire := by
  cases hx
  exact ⟨_,rfl,rfl⟩

/-- Nothing is pending: whatever the prep function and the wake loop do to the element, the rest stays. -/
theorem untouched_idle {e : Ele τ} (hidle : (s.ele k).asc=none) (ht : e.isTiming=(s.ele k).isTiming)
    (hx : ∀ x∈(s.ele k).spec,∃ y∈e.spec,y.expire=x.expire) : Untouched s (s.setEle k e) k := by
  have hk : (s.setEle k e).ele k=e := Function.update_self ..
  refine ⟨fun a ha => ?_,by rw [hk,ht],fun x hxs => by rw [hk]; exact hx x hxs,rfl,rfl,rfl,
    fun j hj => Function.update_of_ne hj ..⟩
  rw [hidle] at ha
  cases ha

/-- An element that does nothing. -/
theorem prepped_idle {name : τ} {data : Option (List Byte)} {p : Prep} {env : Env} (hidle : (s.ele k).asc=none)
    (h : addPrepped s k name data p env=some (s',r)) (hr : refused r) : Untouched s s' k := by
  have hspec : ∀ x∈(s.ele k).spec,
      ∃ y∈(match p.timeout with | some sec => setAfter (s.ele k).spec sec | none => (s.ele k).spec),y.expire=x.expire := by
    intro x hx
    cases p.timeout with
    | some sec => exact setAfter_expire hx sec
    | none => exact ⟨x,hx,rfl⟩
  -- the call ends with an error, and the element is left idle
  have hend {e : Ele τ} {ret : Dpret} (hf : addFinish (s.setEle k e) k ret env.now=(s',r))
      (ht : e.isTiming=(s.ele k).isTiming) (hx : ∀ x∈(s.ele k).spec,∃ y∈e.spec,y.expire=x.expire) : Untouched s s' k := by
    obtain ⟨-,rfl⟩ := addFinish_refused hf hr
    have hk : (s.setEle k e).ele k=e := Function.update_self ..
    have hset (e' : Ele τ) : (s.setEle k e).setEle k e'=s.setEle k e' := by simp [Dpevp.setEle]
    rw [hset,hk]
    exact untouched_idle hidle ht hx
  simp only [addPrepped] at h
  split at h
  · exact hend (Option.some.inj h) rfl hspec
  · split at h
    · obtain ⟨⟨f,q,d⟩,-,hf⟩ := Option.map_eq_some_iff.mp h
      exact hend hf rfl hspec
    · obtain ⟨rfl,-⟩ := addFinish_refused (Option.some.inj h) hr
      exact (hr.2.1 rfl).elim
    · exact hend (Option.some.inj h) rfl hspec

/-- An element of a type that may be added while doing ends with what the prep function says. -/
theorem prepped_tmr {name : τ} {data : Option (List Byte)} {p : Prep} {env : Env} (ht : (s.ele k).type=.tmr)
    (h : addPrepped s k name data p env=some (s',r)) (hr : refused r) :
    r=p.ret ∧ p.ret≠dpeContinue ∧ (s'.ele k).asc=none := by
  simp only [addPrepped,ht] at h
  split at h
  · rename_i hc
    obtain ⟨hret,rfl⟩ := addFinish_refused (Option.some.inj h) hr
    exact ⟨hret,hc,by simp [Dpevp.setEle]⟩
  · obtain ⟨rfl,-⟩ := addFinish_refused (Option.some.inj h) hr
    exact (hr.2.1 rfl).elim

/-- A prep function that turns the arguments down makes the call fail with its value. -/
theorem prepped_down (s : Dpevp κ τ) (k : κ) (name : τ) (data : Option (List Byte)) {p : Prep} (env : Env)
    (hc : p.ret≠dpeContinue) (hr : refused p.ret) : ∃ s',addPrepped s k name data p env=some (s',p.ret) ∧ (s'.ele k).asc=none := by
  have hok : ¬dpretIsok p.ret := (dpretIserr_iff _).mp hr.1
  simp only [addPrepped,if_pos hc,addFinish,if_neg hok,if_neg hr.2.1]
  exact ⟨_,rfl,by simp [Dpevp.setEle]⟩

/-- A refused dpevp_addv leaves the pending operation alone exactly when no prep function has turned the arguments
down for an element that is doing something. -/
theorem addv_refused (s : Dpevp κ τ) (k : κ) (name : τ) (asc : Asc α) (args : α) (env : Env) :
    (∀ s' r,dpevpAddv s k name asc args env=some (s',r) → refused r → Untouched s s' k) ↔
      ¬(dpeleIsDoing (s.ele k)=true ∧ turnsDown s k asc args env) := by
  constructor
  · rintro hall ⟨hdoing,hsuits,hallow,p,hp,hc,hr⟩
    obtain ⟨s',hs',hnone⟩ :=
      prepped_down s k name (dpeleAscData (s.ele k).data asc.datasz env.mem).1 env hc hr
    have hcall : dpevpAddv s k name asc args env=some (s',p.ret) := by
      simp only [dpevpAddv,not_not.mpr hsuits,if_false,hallow,Bool.true_eq_false,and_false]
      exact (congrArg (Option.bind · _) hp).trans hs'
    obtain ⟨a,ha⟩ := Option.isSome_iff_exists.mp hdoing
    have := ((hall s' p.ret hcall hr).asc a ha).1
    rw [hnone] at this
    cases this
  · intro hcond s' r h hr
    simp only [dpevpAddv] at h
    split at h
    · cases h
      exact untouched_refl s k
    · rename_i hsuits
      split at h
      · cases h
        exact untouched_refl s k
      · rename_i hperm
        obtain ⟨p,hp,hadd⟩ := Option.bind_eq_some_iff.mp h
        cases hidle : (s.ele k).asc with
        | none => exact prepped_idle hidle hadd hr
        | some a =>
          -- added while doing: a TMR element, and its prep has turned the arguments down
          have hdoing : dpeleIsDoing (s.ele k)=true := by rw [dpeleIsDoing,hidle]; rfl
          have hallow : asc.allowDoing=true := by
            by_contra hno
            exact hperm ⟨hdoing,Bool.not_eq_true _ ▸ hno⟩
          have htype := (not_not.mp hsuits).1
          rw [asc.allowTmr hallow,List.mem_singleton] at htype
          obtain ⟨rfl,hc,-⟩ := prepped_tmr htype hadd hr
          exact (hcond ⟨hdoing,not_not.mp hsuits,hallow,p,hp,hc,hr⟩).elim

/-- dptmr_timeout takes everything. -/
theorem timeout_takes (s : Dpevp κ τ) (k : κ) (args : ℤ × UInt64 × UInt64) (env : Env) :
    ¬turnsDown s k dptmrTimeout args env := by
  rintro ⟨-,-,p,hp,hc,-⟩
  obtain ⟨d,-,rfl⟩ := Option.map_eq_some_iff.mp hp
  exact hc rfl

theorem dpeleAscData_zero {data : Option (List Byte)} {datasz : ℕ} {mem : Bool} {d : List Byte}
    (h : (dpeleAscData data datasz mem).2=some d) : d=List.replicate datasz 0 := by
  unfold dpeleAscData at h
  split at h
  · cases h
  · simp only at h
    split at h
    · split at h
      · cases h
        rfl
      · split at h <;> cases h
        rfl
    · split at h <;> cases h
      rfl

/-- dptmr_callback turns down every call without a callback: the scratch data has been zeroed before it looks
for the old one. -/
theorem callback_turnsDown (s : Dpevp κ τ) (k : κ) (sec : ℤ) (cb arg : UInt64) (env : Env) :
    turnsDown s k dptmrCallback (sec,cb,arg) env ↔ dptmrCallback.suits (s.ele k) ∧ cb=0 ∧
      (dpeleAscData (s.ele k).data 16 env.mem).2.isSome=true := by
  constructor
  · rintro ⟨hsuits,-,p,hp,hc,-⟩
    obtain ⟨d,hd,rfl⟩ := Option.map_eq_some_iff.mp hp
    refine ⟨hsuits,?_,Option.isSome_iff_exists.mpr ⟨d,hd⟩⟩
    by_contra hcb
    simp only [if_pos (show cb≠0 from hcb)] at hc
    exact hc rfl
  · rintro ⟨hsuits,rfl,hsome⟩
    obtain ⟨d,hd⟩ := Option.isSome_iff_exists.mp hsome
    have hz := dpeleAscData_zero hd
    have hhead : ((put d 8 (v64 arg)).take 8).all (·=0)=true := by
      rw [hz,put,List.append_assoc,List.take_append_of_le_length (by simp)]
      simp
    have hprep : dptmrCallbackPrep sec 0 arg (some d)=some {ret := dpeInval, data := some (put d 8 (v64 arg))} := by
      simp only [dptmrCallbackPrep,Option.map_some,ne_eq,not_true_eq_false,if_false,if_pos hhead]
    refine ⟨hsuits,rfl,{ret := dpeInval, data := some (put d 8 (v64 arg))},?_,(by decide : dpeInval≠dpeContinue),(by decide : refused dpeInval)⟩
    change dptmrCallbackPrep sec 0 arg (dpeleAscData (s.ele k).data 16 env.mem).2=_
    rw [hd,hprep]

end Refused

/-- An idle TMR element. -/
def idleTmr : Dpevp (Fin 1) ℕ := {ele := fun _ => {type := .tmr}}

/-- The callback of an armed timer is lost, and the timer stays. -/
theorem addv_callback_lost : ¬∀ (s s' : Dpevp (Fin 1) ℕ) (args : ℤ × UInt64 × UInt64) (r : Dpret),
    dpevpAddv s 0 1 dptmrCallback args ⟨true,0,[]⟩=some (s',r) → refused r → Untouched s s' 0 := by
  intro hall
  have hrun : (dpevpAddv idleTmr 0 1 dptmrCallback (1000,5,7) ⟨true,0,[]⟩).any (fun (s,_) =>
      decide ((s.ele 0).asc=some 1 ∧ s.timer=[0]) && (dpevpAddv s 0 1 dptmrCallback (1000,0,7) ⟨true,0,[]⟩).any fun (s',r) =>
        decide (refused r ∧ (s'.ele 0).asc=none ∧ s'.timer=[0]))=true := by decide +kernel
  obtain ⟨⟨s,r⟩,-,hf⟩ := (Option.any_eq_true _ _).mp hrun
  obtain ⟨hs,hrest⟩ := Bool.and_eq_true_iff.mp hf
  obtain ⟨⟨s',r'⟩,hs',hf'⟩ := (Option.any_eq_true _ _).mp hrest
  obtain ⟨hr,hnone,-⟩ := of_decide_eq_true hf'
  have := ((hall s s' _ r' hs' hr).asc 1 (of_decide_eq_true hs).1).1
  rw [hnone] at this
  cases this

end Dpapp.AscAdd
