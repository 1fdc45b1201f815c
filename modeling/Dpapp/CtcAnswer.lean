import Dpapp.CtcLife
import Mathlib.Data.List.Nodup

/-! # Requests and their answers (dplua.lua, dpcwc.c, dpcpp.cc)

The loops of all threads, the handlers that they start for the CTCs they take, and the coroutines that wait for the answers.
A function runs as a whole; what the engines do between two threads is one queue for each thread. -/

set_option linter.unusedSectionVars false

namespace Dpapp.CtcAnswer
open Dpapp.Machine Dpapp.Ret Dpapp.CtcLife
open Dpapp.CtcChannel (Thread deqPushBack)

abbrev Byte := UInt8

def dpeInvcmd : Dpret := -170
def dpeInternalError : Dpret := -500

/-! ### Results of handlers -/

/-- A Lua value, as far as `and`, `or` and the conversion to an int tell values apart; `num` has the int that it becomes,
`other` are strings, tables, functions, threads and userdata. -/
inductive Val
  | nil
  | bool (b : Bool)
  | num (n : Dpret)
  | cdata (n : Option Dpret)
  | other

/-- The argument of a C function with an int parameter. -/
def Val.toInt : Val → Option Dpret
  | .bool b => some (if b then 1 else 0)
  | .num n => some n
  | .cdata n => n
  | .nil | .other => none

def Val.truthy : Val → Bool
  | .nil | .bool false => false
  | _ => true

/-- The value of an error: tostring gives a text, or it raises an error itself. -/
inductive Fault
  | text (s : List Byte)
  | throws (e : Fault)

/-- What the body of a callback ends with. -/
inductive Result
  | ret (vals : List Val)
  | raise (e : Fault)

/-- What a Lua function comes to. -/
inductive Run (α : Type)
  | done (a : α)
  | raise (e : Fault)
  | undefined

/-- A format that takes no argument. -/
def plain : List Byte → Bool
  | 37::37::l => plain l
  | 37::_ => false
  | _::l => plain l
  | [] => true

/-- dplog.error with tostring of the value: the text is the format of dplog_error, which formats it where the level lets
errors through. -/
def logError (logs : Bool) : Fault → Run Unit
  | .text s => if logs=true ∧ plain (s.takeWhile (·≠0))=false then .undefined else .done ()
  | .throws e => .raise e

/-- "cannot convert to 'int'" -/
def badArgument : Fault :=
  .text [99,97,110,110,111,116,32,99,111,110,118,101,114,116,32,116,111,32,39,105,110,116,39]

/-- `_run_ctc`, from the return of pcall to the call of dpevp_end_ctc_. -/
def runCtc (logs : Bool) : Result → Run Dpret
  | .ret vals =>
      match (vals.headD .nil).toInt with
      | some ret => .done ret
      | none => .raise badArgument
  | .raise e =>
      match logError logs e with
      | .done _ => .done (-4)
      | .raise e => .raise e
      | .undefined => .undefined

/-- `_run_tmr`, from the return of pcall to the call of dpele_set_ret. -/
def runTmr : Result → Run Dpret
  | .ret vals =>
      if (vals.headD .nil).truthy then
        match (vals.headD .nil).toInt with
        | some ret => .done ret
        | none => .raise badArgument
      else .done dpeInternalError
  | .raise _ => .done dpeInternalError

inductive Loop | cwc | cpp | lua
  deriving DecidableEq

/-- A callback of a C function returns a dpret_t. -/
def Result.isInt : Result → Bool
  | .ret [.num _] => true
  | _ => false

/-- What follows the callback in `_dpcwc_run_ctc`, `_run_ctc` and the functions for timers. -/
def after (loop : Loop) (logs timer : Bool) (r : Result) : Run Dpret :=
  match loop,r with
  | .lua,r => if timer then runTmr r else runCtc logs r
  | _,.ret [.num ret] => .done ret
  | _,_ => .undefined

/-! ### The threads -/

variable {ι κ : Type*} [DecidableEq ι] [DecidableEq κ]

/-- A callback that has not finished: of a CTC, or of a timer. -/
structure Job (ι κ : Type*) where
  thread : Thread ι
  ctc : Option κ
  yielded : Bool := false
  /-- it has called dpevp_end_ctc_ -/
  ended : Bool := false

/-- History: a CTC that a loop has taken as a request, and whether there was a function for it. -/
structure Visit (κ : Type*) where
  visit : ℕ
  ctc : κ
  found : Bool

/-- History: a call of dpevp_end_ctc_ that has had an effect; `sub` counts the submissions of the CTC, and `own` tells
whether the handler has made the call itself. -/
structure End (κ : Type*) where
  visit : ℕ
  ctc : κ
  sub : ℕ
  ret : Dpret
  own : Bool

/- `data` is data[0] of the CTC's asc_data, `owner` the thread that has made the CTC (none: no such memory), `app` what data[0]
names on a thread: a function of the C program, or a topic with its function. `waits` tells whether a coroutine waits
for the CTC. History: from `sub` on. -/
structure Sys (ι κ : Type*) where
  ele : κ → Ele ι := fun _ => {}
  data : κ → ℤ := fun _ => 0
  owner : κ → Option (Thread ι) := fun _ => none
  queue : Thread ι → List κ := fun _ => []
  app : Thread ι → ℤ → Bool := fun _ _ => false
  job : ℕ → Option (Job ι κ) := fun _ => none
  cur : Thread ι → Option ℕ := fun _ => none
  next : ℕ := 0
  waits : κ → Bool := fun _ => false
  stopped : Thread ι → Bool := fun _ => false
  crashed : Bool := false
  sub : κ → ℕ := fun _ => 0
  asked : List (Visit κ) := []
  made : List (ℕ × Result) := []
  ended : List (End κ) := []
  cancelled : List (κ × ℕ × Dpret) := []
  awaited : List (κ × ℕ) := []
  resumed : List (κ × ℕ × Dpret) := []

def Sys.setEle (s : Sys ι κ) (k : κ) (e : Ele ι) : Sys ι κ := {s with ele := Function.update s.ele k e}
def Sys.free (s : Sys ι κ) (k : κ) : Sys ι κ := {s with owner := Function.update s.owner k none}
def Sys.push (s : Sys ι κ) (t : Thread ι) (k : κ) : Sys ι κ :=
  {s with queue := Function.update s.queue t (deqPushBack (s.queue t) k)}
def Sys.crash (s : Sys ι κ) : Sys ι κ := {s with crashed := true}
def Sys.stop (s : Sys ι κ) (t : Thread ι) : Sys ι κ := {s with stopped := Function.update s.stopped t true}

/-- Where dpevp_end_ctc_ sends a CTC. -/
def Sys.dispatch (s : Sys ι κ) (k : κ) (e : Ele ι) : Sys ι κ :=
  if e.isReto then (s.setEle k {e with isReto := false, stat := .commit}).push e.toid k
  else if e.isDetach then
    if e.refc=0 then (s.setEle k {e with stat := .finish}).free k else s.setEle k {e with stat := .finish}
  else (s.setEle k {e with stat := .finish}).push e.fromid k

/-- dpevp_end_ctc_, called for visit `n`. -/
def Sys.endCtc (s : Sys ι κ) (n : ℕ) (k : κ) (err : Dpret) (own : Bool) : Sys ι κ :=
  if s.owner k=none then s.crash
  else if dpeleIsDoing (s.ele k) then
    {s.dispatch k {s.ele k with ret := err} with ended := s.ended++[⟨n,k,s.sub k,err,own⟩]}
  else s

/-! ### What a loop takes -/

/-- What becomes of a CTC that is taken from the queue. -/
inductive Reaped (ι : Type*)
  | request (e : Ele ι)
  | back (e : Ele ι)
  | completed (e : Ele ι)
  | freed
  | dropped (e : Ele ι)

def dpctcDel (e : Ele ι) (o : Reaped ι) : Reaped ι :=
  if e.refc=0 then .freed else if e.isDetach then .dropped e else o

/-- `_dpele_asc_over` -/
def ascOver (e : Ele ι) : Reaped ι :=
  if e.stat=.running ∧ dpeleIsDoing e ∧ hasPost e=false then .request e
  else dpctcDel {e with asc := none} (.completed {e with asc := none})

/-- `_worker_reap_ctc` on the thread that a CTC goes to -/
def reapCtc (e : Ele ι) : Reaped ι :=
  match e.stat with
  | .commit => ascOver {e with stat := .running}
  | .cancel => dpctcDel {e with stat := .finish} (.back {e with stat := .finish})
  | .running => ascOver e
  | .initial | .finish => dpctcDel e (ascOver e)

def Sys.start (s : Sys ι κ) (t : Thread ι) (ctc : Option κ) : Sys ι κ :=
  {s with
    job := Function.update s.job s.next (some {thread := t, ctc := ctc})
    cur := Function.update s.cur t (some s.next)
    next := s.next+1}

/-- There is no memory for a coroutine: coroutine.wrap raises an error, dpaco_wrap does nothing, and new throws. -/
def Sys.noRoom (loop : Loop) (s : Sys ι κ) (t : Thread ι) : Sys ι κ :=
  match loop with
  | .lua => s.stop t
  | .cwc => s
  | .cpp => s.crash

/-- `_run_ctc` and `_dpcwc_run_ctc`, up to the call of the function. -/
def Sys.request (loop : Loop) (room : Bool) (s : Sys ι κ) (t : Thread ι) (k : κ) : Sys ι κ :=
  let found := s.app t (s.data k)
  let asked : List (Visit κ) := s.asked++[⟨s.next,k,found⟩]
  if room=false then {s with next := s.next+1, asked := asked}.noRoom loop t
  else
    match loop with
    | .lua =>
        if found then {s.start t (some k) with asked := asked}
        else {s with next := s.next+1, asked := asked}.endCtc s.next k dpeInvcmd false
    | .cwc => if s.data k≠0 ∧ found=true then {s.start t (some k) with asked := asked} else s.crash
    | .cpp =>
        if s.data k=0 then {s with next := s.next+1, asked := asked}
        else if found then {s.start t (some k) with asked := asked} else s.crash

/-- A completed CTC: the coroutine of this thread that waits for it goes on with dpele_ret. -/
def Sys.complete (s : Sys ι κ) (t : Thread ι) (k : κ) : Sys ι κ :=
  if s.waits k=true ∧ s.owner k=some t then
    {s with waits := Function.update s.waits k false, resumed := s.resumed++[(k,s.sub k,(s.ele k).ret)]}
  else s

def Sys.take (loop : Loop) (room : Bool) (s : Sys ι κ) (t : Thread ι) (k : κ) : Sys ι κ :=
  if s.owner k=none then s.crash
  else
    match reapCtc (s.ele k) with
    | .request e => (s.setEle k e).request loop room t k
    | .back e => (s.setEle k e).push e.fromid k
    | .completed e => (s.setEle k e).complete t k
    | .freed => s.free k
    | .dropped e => s.setEle k e

/-! ### Steps -/

/-- An error that leaves a coroutine: coroutine.wrap hands it to the loop at first, and later `resume` logs it. -/
def Sys.fail (logs : Bool) (s : Sys ι κ) (j : Job ι κ) (e : Fault) : Sys ι κ :=
  if j.yielded then
    match logError logs e with
    | .done _ => s
    | .raise _ => s.stop j.thread
    | .undefined => s.crash
  else s.stop j.thread

/-- The body of callback `n` has finished. -/
def Sys.finish (loop : Loop) (logs : Bool) (s : Sys ι κ) (n : ℕ) (j : Job ι κ) (r : Result) : Sys ι κ :=
  let s := {s with job := Function.update s.job n none, cur := Function.update s.cur j.thread none}
  match j.ctc with
  | none =>
      match after loop logs true r with
      | .done _ => s
      | .raise e => s.fail logs j e
      | .undefined => s.crash
  | some k =>
      let s := {s with made := s.made++[(n,r)]}
      match after loop logs false r with
      | .done ret => s.endCtc n k ret false
      | .raise e => s.fail logs j e
      | .undefined => s.crash

/-- The data and the target of dpcwc_ctc_reto, ctc_reto or CTC.reto; a target that is refused is none. -/
def Sys.reto (s : Sys ι κ) (k : κ) (a : Option ℤ) (toid : Option (Thread ι)) : Sys ι κ :=
  if s.owner k=none then s.crash
  else
    let s := {s with data := Function.update s.data k (a.getD (s.data k))}
    match toid with
    | some toid => if (s.ele k).stat=.running then s.setEle k {s.ele k with toid := toid, isReto := true} else s
    | none => s

/- `new` to `del` are about the thread that owns the CTC (`cancel` is dpevp_end, also for a timeout); `pop` is a step of the loop,
`timer` one that takes a timer with a callback (`room`: there is memory for a coroutine); `endSelf` is dpevp_end_ctc_ in a
handler. -/
inductive Act (ι κ : Type*)
  | app (t : Thread ι) (a : ℤ) (b : Bool)
  | new (t : Thread ι) (k : κ)
  | ref (t : Thread ι) (k : κ)
  | submit (t : Thread ι) (k : κ) (a : ℤ) (toid : Thread ι) (detach : Bool)
  | cancel (t : Thread ι) (k : κ) (ret : Dpret)
  | await (t : Thread ι) (k : κ)
  | del (t : Thread ι) (k : κ)
  | pop (t : Thread ι) (room : Bool)
  | timer (t : Thread ι) (room : Bool)
  | yield (n : ℕ)
  | resume (n : ℕ)
  | endSelf (n : ℕ) (ret : Dpret)
  | reto (n : ℕ) (a : Option ℤ) (toid : Option (Thread ι))
  | finish (n : ℕ) (r : Result)

def Sys.runs (s : Sys ι κ) (t : Thread ι) : Prop := s.crashed=false ∧ s.stopped t=false

def Sys.owns (s : Sys ι κ) (t : Thread ι) (k : κ) : Prop := s.runs t ∧ s.owner k=some t ∧ (s.ele k).refc≠0

instance (s : Sys ι κ) (t : Thread ι) : Decidable (s.runs t) := inferInstanceAs (Decidable (_ ∧ _))
instance (s : Sys ι κ) (t : Thread ι) (k : κ) : Decidable (s.owns t k) := by
  unfold Sys.owns
  infer_instance

/-- The callback that runs now. -/
def Sys.awake (s : Sys ι κ) (n : ℕ) : Option (Job ι κ) :=
  (s.job n).filter fun j => decide (s.runs j.thread ∧ s.cur j.thread=some n)

/-- dpele_del -/
def Sys.unref (s : Sys ι κ) (k : κ) : Sys ι κ :=
  let e := {s.ele k with refc := (s.ele k).refc-1}
  if e.refc=0 ∧ dpeleIsDoing e=false then (s.setEle k e).free k else s.setEle k e

def step (loop : Thread ι → Loop) (logs : Bool) (s : Sys ι κ) : Act ι κ → Option (Sys ι κ)
  | .app t a b =>
      some {s with app := Function.update s.app t (Function.update (s.app t) a b)}
  | .new t k =>
      if s.runs t ∧ s.owner k=none then
        some {s.setEle k {} with owner := Function.update s.owner k (some t)}
      else none
  | .ref t k =>
      if s.owns t k then some (s.setEle k {s.ele k with refc := (s.ele k).refc+1}) else none
  | .submit t k a toid detach =>
      if s.owns t k then
        if dpeleIsDoing (s.ele k) then some s
        else if dpctcSubmitPrep (s.ele k).stat=dpeContinue then
          some ({s.setEle k {submitEle (s.ele k) t dpctcSubmit toid detach with ret := dpeInprogress} with
            data := Function.update s.data k a
            sub := Function.update s.sub k (s.sub k+1)}.push toid k)
        else some (s.setEle k {s.ele k with ret := dpctcSubmitPrep (s.ele k).stat})
      else none
  | .cancel t k ret =>
      if s.owns t k then
        match dpctcCesStat (s.ele k) .cancel .commit with
        | some e =>
            if dpeleIsDoing e ∧ e.fromid=t then
              some {s.setEle k {e with ret := ret} with cancelled := s.cancelled++[(k,s.sub k,ret)]}
            else some s
        | none => some s
      else none
  -- dpele_wait; the second coroutine that waits would replace the first
  | .await t k =>
      if s.owns t k ∧ s.waits k=false then
        if dpeleIsDoing (s.ele k) ∧ (s.ele k).isDetach=false then
          some {s with waits := Function.update s.waits k true, awaited := s.awaited++[(k,s.sub k)]}
        else some s
      else none
  -- a coroutine that waits has a reference of its own
  | .del t k =>
      if s.owns t k ∧ (s.waits k=true → 1<(s.ele k).refc) then some (s.unref k) else none
  | .pop t room =>
      if s.runs t ∧ s.cur t=none then
        match s.queue t with
        | k::q => some ({s with queue := Function.update s.queue t q}.take (loop t) room t k)
        | [] => none
      else none
  | .timer t room =>
      if s.runs t ∧ s.cur t=none then some (if room=false then s.noRoom (loop t) t else s.start t none) else none
  | .yield n =>
      (s.awake n).map fun j => {s with
        job := Function.update s.job n (some {j with yielded := true})
        cur := Function.update s.cur j.thread none}
  | .resume n =>
      (s.job n).bind fun j =>
        if s.runs j.thread ∧ s.cur j.thread=none ∧ j.yielded=true then
          some {s with cur := Function.update s.cur j.thread (some n)}
        else none
  | .endSelf n ret =>
      (s.awake n).bind fun j => j.ctc.map fun k =>
        {s with job := Function.update s.job n (some {j with ended := true})}.endCtc n k ret true
  | .reto n a toid => (s.awake n).bind fun j => j.ctc.map fun k => s.reto k a toid
  | .finish n r =>
      (s.awake n).bind fun j =>
        if loop j.thread=.lua ∨ r.isInt=true then some (s.finish (loop j.thread) logs n j r) else none

/-! ### Callbacks that keep the loop going -/

/-- A result that the end of a CTC takes: its first value is a number or a boolean, or the error has a text, which does not
ask for arguments where it is logged. -/
def fits (logs : Bool) : Result → Prop
  | .ret vals => (vals.headD .nil).toInt.isSome=true
  | .raise (.text text) => logs=true → plain (text.takeWhile (·≠0))=true
  | .raise (.throws _) => False

/-- The same for a timer, which takes nil, false and every error, too. -/
def fitsTimer : Result → Prop
  | .ret vals => (vals.headD .nil).truthy=true → (vals.headD .nil).toInt.isSome=true
  | .raise _ => True

/-- The CTC exists and has not been submitted. -/
def quiet (s : Sys ι κ) (k : κ) : Prop := s.owner k≠none ∧ dpeleIsDoing (s.ele k)=false

/-- A callback finishes with a result that its loop takes. -/
def Sys.ends (logs : Bool) (s : Sys ι κ) (j : Job ι κ) (r : Result) : Prop :=
  match j.ctc with
  | none => fitsTimer r
  | some k => fits logs r ∧ (j.ended=true → quiet s k)

/-- There is memory for the coroutines; a C loop takes CTCs with a function only; the results of Lua functions fit; and a CTC
that its handler has ended is used no more by it, or exists and has not been submitted again. -/
def proper (loop : Thread ι → Loop) (logs : Bool) (s : Sys ι κ) : Act ι κ → Prop
  | .pop t room => ∀ k∈(s.queue t).head?,(s.ele k).stat=.commit →
      room=true ∧ (loop t≠.lua → s.data k≠0 ∧ s.app t (s.data k)=true)
  | .timer t room => loop t≠.cwc → room=true
  | .endSelf n _ | .reto n _ _ => ∀ j∈s.job n,j.ended=true → ∀ k∈j.ctc,quiet s k
  | .finish n r => ∀ j∈s.job n,s.ends logs j r
  | .app .. | .new .. | .ref .. | .submit .. | .cancel .. | .await .. | .del .. | .yield _ | .resume _ => True

/-- The result of a handler as its sender gets it, -4 being the code of an error. -/
def codeOf : Result → Option Dpret
  | .ret vals => (vals.headD .nil).toInt
  | .raise _ => some (-4)

/-- A handler that has not finished, nor ended its CTC. -/
def Holds (job : ℕ → Option (Job ι κ)) (n : ℕ) (k : κ) : Prop := ∃ j,job n=some j ∧ j.ctc=some k ∧ j.ended=false

/-- Each request is answered once, and not before its handler ends it or finishes: with the handler's result, -4 or
DPE_INVCMD. Each coroutine that waits has been resumed once, with the answer, or its CTC is in the queue of a loop or with
a handler; and no loop has stopped. -/
structure Right (loop : Thread ι → Loop) (logs : Bool) (s : Sys ι κ) : Prop where
  once : (s.ended.map End.visit).Nodup
  answered : ∀ x∈s.asked,x.visit∈s.ended.map End.visit ∨ ∃ k,Holds s.job x.visit k
  early : ∀ n k,Holds s.job n k → n∉s.ended.map End.visit
  made : ∀ x∈s.made,∃ y∈s.ended,y.visit=x.1 ∧ (y.own=true ∨ codeOf x.2=some y.ret)
  unknown : ∀ x∈s.asked,x.found=false → ∃ y∈s.ended,y.visit=x.visit ∧ y.ret=dpeInvcmd
  resumed : ∀ x∈s.awaited,x∈s.resumed.map (fun y => (y.1,y.2.1)) ∨ s.waits x.1=true ∧ s.sub x.1=x.2
  resumedOnce : (s.resumed.map fun y => (y.1,y.2.1)).Nodup
  told : ∀ x∈s.resumed,x∈s.cancelled ∨ ∃ y∈s.ended,y.ctc=x.1 ∧ y.sub=x.2.1 ∧ y.ret=x.2.2
  waiting : ∀ k,s.waits k=true → (∃ t,k∈s.queue t) ∨ ∃ n,Holds s.job n k
  loops : ∀ t,s.runs t ∧ ∀ n∈s.cur t,∃ j,s.job n=some j ∧ j.thread=t
  pops : ∀ t,s.cur t=none → s.queue t≠[] → (step loop logs s (.pop t true)).isSome=true

/-! ### Where the CTCs are -/

/-- A CTC in the queue of a thread. -/
structure Queued (e : Ele ι) (t : Thread ι) : Prop where
  asc : e.asc=some dpctcSubmit
  way : (e.stat=.commit ∨ e.stat=.cancel) ∧ e.toid=t ∧ e.isReto=false ∨ e.stat=.finish ∧ e.fromid=t ∧ e.isDetach=false

/-- A CTC with a handler. -/
structure Working (e : Ele ι) : Prop where
  asc : e.asc=some dpctcSubmit
  stat : e.stat=.running

theorem Queued.unique {e : Ele ι} {t t' : Thread ι} (h : Queued e t) (h' : Queued e t') : t=t' := by
  rcases h.way with ⟨hst,hto,-⟩ | ⟨hst,hfrom,-⟩ <;> rcases h'.way with ⟨hst',hto',-⟩ | ⟨hst',hfrom',-⟩
  · exact hto.symm.trans hto'
  · rw [hst'] at hst
    rcases hst with hst | hst <;> cases hst
  · rw [hst] at hst'
    rcases hst' with hst' | hst' <;> cases hst'
  · exact hfrom.symm.trans hfrom'

theorem Queued.not_working {e : Ele ι} {t : Thread ι} (h : Queued e t) (h' : Working e) : False := by
  have hstat := h'.stat
  rcases h.way with ⟨hst | hst,-⟩ | ⟨hst,-⟩ <;> rw [hstat] at hst <;> cases hst

/- Every CTC that has been submitted is in one queue or with one handler, unless it is detached; `out` is the one that a loop or
a handler is just about to send on. -/
structure Places (out : Option κ) (ele : κ → Ele ι) (owner : κ → Option (Thread ι)) (queue : Thread ι → List κ)
    (job : ℕ → Option (Job ι κ)) (waits : κ → Bool) : Prop where
  nodup : ∀ t,(queue t).Nodup
  queued : ∀ t,∀ k∈queue t,owner k≠none ∧ Queued (ele k) t
  held : ∀ n k,Holds job n k → owner k≠none ∧ Working (ele k)
  only : ∀ n n' k,Holds job n k → Holds job n' k → n=n'
  placed : ∀ k,out≠some k → owner k≠none → (ele k).asc≠none → (ele k).isDetach=false → (∃ t,k∈queue t) ∨ ∃ n,Holds job n k
  inHand : ∀ k,out=some k → owner k≠none ∧ (ele k).asc=some dpctcSubmit ∧ (∀ t,k∉queue t) ∧ ∀ n,¬Holds job n k
  waits : ∀ k,waits k=true → owner k≠none ∧ (ele k).asc≠none ∧ (ele k).isDetach=false ∧ (ele k).refc≠0
  home : ∀ k,(ele k).asc≠none → owner k≠none → owner k=some (ele k).fromid

section Places
variable {ele : κ → Ele ι} {owner : κ → Option (Thread ι)} {queue : Thread ι → List κ} {job job' : ℕ → Option (Job ι κ)}
  {waits : κ → Bool} {out : Option κ} {k : κ} {t : Thread ι} {q : List κ} {e : Ele ι} {n : ℕ} {j : Job ι κ}

theorem mem_tail {t' : Thread ι} {k' : κ} (hq : queue t=k::q) (h : k'∈Function.update queue t q t') : k'∈queue t' := by
  rcases eq_or_ne t' t with rfl | ht
  · rw [Function.update_self] at h
    rw [hq]
    exact List.mem_cons_of_mem k h
  · rwa [Function.update_of_ne ht] at h

/-- A loop takes the first CTC of its queue. -/
theorem Places.take (h : Places none ele owner queue job waits) (hq : queue t=k::q) :
    Places (some k) ele owner (Function.update queue t q) job waits := by
  have hmem : k∈queue t := by rw [hq]; exact List.mem_cons_self
  have hnd : (k::q).Nodup := hq ▸ h.nodup t
  have hsub : ∀ t' k',k'∈Function.update queue t q t' → k'∈queue t' := fun t' k' hk' => mem_tail hq hk'
  have hout : ∀ t',k∉Function.update queue t q t' := by
    intro t' hk'
    have hsame := (h.queued t' k (hsub t' k hk')).2.unique (h.queued t k hmem).2
    subst hsame
    rw [Function.update_self] at hk'
    exact (List.nodup_cons.mp hnd).1 hk'
  refine ⟨fun t' => ?_,fun t' k' hk' => h.queued t' k' (hsub t' k' hk'),h.held,h.only,fun k' hne ho ha hd => ?_,
    fun k' heq => ?_,h.waits,
    h.home⟩
  · rcases eq_or_ne t' t with rfl | ht
    · rw [Function.update_self]
      exact (List.nodup_cons.mp hnd).2
    · rw [Function.update_of_ne ht]
      exact h.nodup t'
  · rcases h.placed k' (fun hno => by cases hno) ho ha hd with ⟨t',hk'⟩ | hn
    · refine .inl ⟨t',?_⟩
      rcases eq_or_ne t' t with rfl | ht
      · rw [hq] at hk'
        rw [Function.update_self]
        exact (List.mem_cons.mp hk').resolve_left fun hkk => hne (congrArg some hkk.symm)
      · rwa [Function.update_of_ne ht]
    · exact .inr hn
  · cases heq
    exact ⟨(h.queued t k hmem).1,(h.queued t k hmem).2.asc,hout,fun n hn => (h.queued t k hmem).2.not_working
      (h.held n k hn).2⟩

/- One CTC is changed, and with it at most its own owner. -/
theorem queued_away {owner' : κ → Option (Thread ι)} (h : ∀ t,∀ k∈queue t,owner k≠none ∧ Queued (ele k) t)
    (hk : ∀ t,k∉queue t) (ho : ∀ k'≠k,owner' k'=owner k') (t : Thread ι) (k' : κ) (hk' : k'∈queue t) :
    owner' k'≠none ∧ Queued (Function.update ele k e k') t := by
  have hne : k'≠k := fun heq => hk t (heq ▸ hk')
  rw [Function.update_of_ne hne,ho k' hne]
  exact h t k' hk'

theorem held_away {owner' : κ → Option (Thread ι)} (h : ∀ n k,Holds job n k → owner k≠none ∧ Working (ele k))
    (hk : ∀ n,¬Holds job n k) (ho : ∀ k'≠k,owner' k'=owner k') (n : ℕ) (k' : κ) (hn : Holds job n k') :
    owner' k'≠none ∧ Working (Function.update ele k e k') := by
  have hne : k'≠k := fun heq => hk n (heq ▸ hn)
  rw [Function.update_of_ne hne,ho k' hne]
  exact h n k' hn

theorem waits_update (he : waits k=true → owner k≠none ∧ e.asc≠none ∧ e.isDetach=false ∧ e.refc≠0)
    (h : ∀ k'≠k,waits k'=true → owner k'≠none ∧ (ele k').asc≠none ∧ (ele k').isDetach=false ∧ (ele k').refc≠0) :
    ∀ k',waits k'=true → owner k'≠none ∧ (Function.update ele k e k').asc≠none ∧
      (Function.update ele k e k').isDetach=false ∧ (Function.update ele k e k').refc≠0 :=
  (Function.forall_update_iff ele fun k' x =>
    waits k'=true → owner k'≠none ∧ x.asc≠none ∧ x.isDetach=false ∧ x.refc≠0).mpr ⟨he,h⟩

theorem home_update (he : e.asc≠none → owner k≠none → owner k=some e.fromid)
    (h : ∀ k'≠k,(ele k').asc≠none → owner k'≠none → owner k'=some (ele k').fromid) :
    ∀ k',(Function.update ele k e k').asc≠none → owner k'≠none → owner k'=some (Function.update ele k e k').fromid :=
  (Function.forall_update_iff ele fun k' x => x.asc≠none → owner k'≠none → owner k'=some x.fromid).mpr ⟨he,h⟩

/-- A CTC that is in no queue and with no handler can be changed. -/
theorem Places.elsewhere {owner' : κ → Option (Thread ι)} {waits' : κ → Bool} (h : Places out ele owner queue job waits)
    (hout : ∀ k',out=some k' → k'=k) (hq : ∀ t,k∉queue t) (hj : ∀ n,¬Holds job n k)
    (ho : ∀ k'≠k,owner' k'=owner k') (hw : ∀ k'≠k,waits' k'=waits k') (hwk : waits' k=false)
    (hhome : owner' k≠none → e.asc≠none → owner' k=some e.fromid)
    (hgone : owner' k≠none → e.asc≠none → e.isDetach=true) :
    Places none (Function.update ele k e) owner' queue job waits' := by
  have hele : ∀ k'≠k,Function.update ele k e k'=ele k' := fun k' hk' => Function.update_of_ne hk' e ele
  have hself : Function.update ele k e k=e := Function.update_self k e ele
  refine ⟨h.nodup,queued_away h.queued hq ho,held_away h.held hj ho,h.only,fun k' _ ho' ha hd => ?_,fun k' heq => (by cases heq),
    waits_update (fun hk' => ?_) fun k' hne hk' => ?_,home_update (fun ha ho' => hhome ho' ha) fun k' hne ha ho' => ?_⟩
  · rcases eq_or_ne k' k with rfl | hne
    · rw [hself] at ha hd
      rw [hgone ho' ha] at hd
      cases hd
    · rw [hele k' hne] at ha hd
      rw [ho k' hne] at ho'
      exact h.placed k' (fun heq => hne (hout k' heq)) ho' ha hd
  · rw [hwk] at hk'
    cases hk'
  · rw [hw k' hne] at hk'
    rw [ho k' hne]
    exact h.waits k' hk'
  · rw [ho k' hne] at ho' ⊢
    exact h.home k' ha ho'

/-- A CTC in hand is changed. -/
theorem Places.alter (h : Places (some k) ele owner queue job waits) (ha : e.asc=(ele k).asc) (hf : e.fromid=(ele k).fromid)
    (hd : e.isDetach=(ele k).isDetach) (hr : e.refc=(ele k).refc) :
    Places (some k) (Function.update ele k e) owner queue job waits := by
  obtain ⟨hok,hasc,hnq,hnj⟩ := h.inHand k rfl
  refine ⟨h.nodup,queued_away h.queued hnq fun _ _ => rfl,held_away h.held hnj fun _ _ => rfl,h.only,
    fun k' hne ho ha' hd' => ?_,fun k' heq => ?_,waits_update (fun hk' => ?_) fun k' _ => h.waits k',
    home_update (fun ha' ho => ?_) fun k' _ => h.home k'⟩
  · have hk' : k'≠k := fun heq => hne (congrArg some heq.symm)
    rw [Function.update_of_ne hk'] at ha' hd'
    exact h.placed k' hne ho ha' hd'
  · cases heq
    rw [Function.update_self,ha]
    exact ⟨hok,hasc,hnq,hnj⟩
  · rw [ha,hd,hr]
    exact h.waits k hk'
  · rw [ha] at ha'
    rw [hf]
    exact h.home k ha' ho

/-- A CTC in hand goes to a queue. -/
theorem Places.push (h : Places (some k) ele owner queue job waits) (he : Queued (ele k) t) :
    Places none ele owner (Function.update queue t (deqPushBack (queue t) k)) job waits := by
  obtain ⟨hok,-,hnq,-⟩ := h.inHand k rfl
  have hpush : deqPushBack (queue t) k=queue t++[k] := if_neg (hnq t)
  have hmem : ∀ t' k',k'∈Function.update queue t (deqPushBack (queue t) k) t' ↔ k'∈queue t' ∨ k'=k ∧ t'=t := by
    intro t' k'
    rcases eq_or_ne t' t with rfl | ht
    · rw [Function.update_self,hpush,List.mem_append,List.mem_singleton]
      simp only [and_true]
    · rw [Function.update_of_ne ht]
      simp only [ht,and_false,or_false]
  refine ⟨fun t' => ?_,fun t' k' hk' => ?_,h.held,h.only,fun k' _ ho ha hdt => ?_,fun k' heq => (by cases heq),h.waits,h.home⟩
  · rcases eq_or_ne t' t with rfl | ht
    · rw [Function.update_self,hpush]
      exact (h.nodup t').append (List.nodup_singleton k) (List.disjoint_singleton.mpr (hnq t'))
    · rw [Function.update_of_ne ht]
      exact h.nodup t'
  · rcases (hmem t' k').mp hk' with hk' | ⟨rfl,rfl⟩
    · exact h.queued t' k' hk'
    · exact ⟨hok,he⟩
  · rcases eq_or_ne k' k with rfl | hne
    · exact .inl ⟨t,(hmem t k').mpr (.inr ⟨rfl,rfl⟩)⟩
    · rcases h.placed k' (fun heq => hne (Option.some.inj heq).symm) ho ha hdt with ⟨t',hk'⟩ | hn
      · exact .inl ⟨t',(hmem t' k').mpr (.inl hk')⟩
      · exact .inr hn

theorem holds_of_ne {n' : ℕ} {x : Option (Job ι κ)} (h : n'≠n) : Holds (Function.update job n x) n' k ↔ Holds job n' k := by
  unfold Holds
  rw [Function.update_of_ne h]

theorem holds_self {x : Option (Job ι κ)} : Holds (Function.update job n x) n k ↔ ∃ j,x=some j ∧ j.ctc=some k ∧ j.ended=false := by
  unfold Holds
  rw [Function.update_self]

/-- A handler starts for the CTC in hand. -/
theorem Places.hold (h : Places (some k) ele owner queue job waits) (he : Working (ele k)) (hn : job n=none)
    (hj : j.ctc=some k)
    (hjo : j.ended=false) : Places none ele owner queue (Function.update job n (some j)) waits := by
  obtain ⟨hok,-,-,hnj⟩ := h.inHand k rfl
  have hnew : ∀ n' k',Holds (Function.update job n (some j)) n' k' ↔ Holds job n' k' ∨ n'=n ∧ k'=k := by
    intro n' k'
    rcases eq_or_ne n' n with rfl | hne
    · rw [holds_self]
      constructor
      · rintro ⟨j',heq,hk',-⟩
        cases heq
        exact .inr ⟨rfl,Option.some.inj (hk'.symm.trans hj)⟩
      · rintro (⟨j',hj',-⟩ | ⟨-,rfl⟩)
        · rw [hn] at hj'
          cases hj'
        · exact ⟨j,rfl,hj,hjo⟩
    · rw [holds_of_ne hne]
      simp only [hne,false_and,or_false]
  refine ⟨h.nodup,h.queued,fun n' k' hk' => ?_,fun n₁ n₂ k' h₁ h₂ => ?_,fun k' _ ho ha hdt => ?_,fun k' heq => (by cases heq),
    h.waits,h.home⟩
  · rcases (hnew n' k').mp hk' with hk' | ⟨rfl,rfl⟩
    · exact h.held n' k' hk'
    · exact ⟨hok,he⟩
  · rcases (hnew n₁ k').mp h₁ with hold₁ | ⟨rfl,rfl⟩
    · rcases (hnew n₂ k').mp h₂ with hold₂ | ⟨-,hk₂⟩
      · exact h.only n₁ n₂ k' hold₁ hold₂
      · exact (hnj n₁ (hk₂ ▸ hold₁)).elim
    · rcases (hnew n₂ k').mp h₂ with hold₂ | ⟨rfl,-⟩
      · exact (hnj n₂ hold₂).elim
      · rfl
  · rcases eq_or_ne k' k with rfl | hne
    · exact .inr ⟨n,(hnew n k').mpr (.inr ⟨rfl,rfl⟩)⟩
    · rcases h.placed k' (fun heq => hne (Option.some.inj heq).symm) ho ha hdt with hq | ⟨n',hk'⟩
      · exact .inl hq
      · exact .inr ⟨n',(hnew n' k').mpr (.inl hk')⟩

/-- A handler gives its CTC away. -/
theorem Places.release {x : Option (Job ι κ)} (h : Places none ele owner queue job waits) (hn : Holds job n k)
    (hx : ∀ j∈x,j.ended=true) : Places (some k) ele owner queue (Function.update job n x) waits := by
  have hnone : ∀ k',¬Holds (Function.update job n x) n k' := by
    intro k' hk'
    obtain ⟨j',hj',-,hended⟩ := holds_self.mp hk'
    rw [hx j' hj'] at hended
    cases hended
  have hsub : ∀ n' k',Holds (Function.update job n x) n' k' → Holds job n' k' ∧ n'≠n := by
    intro n' k' hk'
    have hne : n'≠n := by
      rintro rfl
      exact hnone k' hk'
    exact ⟨(holds_of_ne hne).mp hk',hne⟩
  obtain ⟨hok,hwork⟩ := h.held n k hn
  refine ⟨h.nodup,h.queued,fun n' k' hk' => h.held n' k' (hsub n' k' hk').1,
    fun n₁ n₂ k' h₁ h₂ => h.only n₁ n₂ k' (hsub n₁ k' h₁).1 (hsub n₂ k' h₂).1,fun k' hne ho ha hd => ?_,
    fun k' heq => ?_,h.waits,h.home⟩
  · rcases h.placed k' (fun heq => by cases heq) ho ha hd with hq | ⟨n',hk'⟩
    · exact .inl hq
    · refine .inr ⟨n',(holds_of_ne ?_).mpr hk'⟩
      rintro rfl
      obtain ⟨j₁,hj₁,hc₁,-⟩ := hk'
      obtain ⟨j₂,hj₂,hc₂,-⟩ := hn
      rw [hj₁] at hj₂
      cases hj₂
      exact hne (hc₂.symm.trans hc₁)
  · cases heq
    refine ⟨hok,hwork.asc,fun t ht => (h.queued t k ht).2.not_working hwork,fun n' hk' => ?_⟩
    obtain ⟨hk',hne⟩ := hsub n' k hk'
    exact hne (h.only n' n k hk' hn)

/-- The same handlers have the same CTCs. -/
theorem Places.jobs (h : Places none ele owner queue job waits) (hj : ∀ n k,Holds job' n k ↔ Holds job n k) :
    Places none ele owner queue job' waits :=
  ⟨h.nodup,h.queued,fun n k hn => h.held n k ((hj n k).mp hn),fun n n' k hn hn' => h.only n n' k ((hj n k).mp hn)
    ((hj n' k).mp hn'),
    fun k hne ho ha hd => (h.placed k hne ho ha hd).imp id fun ⟨n,hn⟩ => ⟨n,(hj n k).mpr hn⟩,fun k heq =>
    (by cases heq),h.waits,h.home⟩

/-- A CTC changes where it is. -/
theorem Places.change (h : Places none ele owner queue job waits) (ha : e.asc=(ele k).asc) (hd : e.isDetach=(ele k).isDetach)
    (hf : e.fromid=(ele k).fromid) (hr : waits k=true → e.refc≠0) (hq : ∀ t,k∈queue t → Queued e t)
    (hj : ∀ n,Holds job n k → Working e) : Places none (Function.update ele k e) owner queue job waits := by
  have hele : ∀ k'≠k,Function.update ele k e k'=ele k' := fun k' hk' => Function.update_of_ne hk' e ele
  have hself : Function.update ele k e k=e := Function.update_self k e ele
  refine ⟨h.nodup,fun t' k' hk' => ⟨(h.queued t' k' hk').1,?_⟩,fun n k' hn => ⟨(h.held n k' hn).1,?_⟩,h.only,
    fun k' hne ho ha' hd' => ?_,fun k' heq => (by cases heq),waits_update (fun hk' => ?_) fun k' _ => h.waits k',
    home_update (fun ha' ho => ?_) fun k' _ => h.home k'⟩
  · rcases eq_or_ne k' k with rfl | hne
    · rw [hself]
      exact hq t' hk'
    · rw [hele k' hne]
      exact (h.queued t' k' hk').2
  · rcases eq_or_ne k' k with rfl | hne
    · rw [hself]
      exact hj n hn
    · rw [hele k' hne]
      exact (h.held n k' hn).2
  · refine h.placed k' hne ho ?_ ?_
    · rcases eq_or_ne k' k with rfl | hk
      · rwa [hself,ha] at ha'
      · rwa [hele k' hk] at ha'
    · rcases eq_or_ne k' k with rfl | hk
      · rwa [hself,hd] at hd'
      · rwa [hele k' hk] at hd'
  · obtain ⟨ho,hasc,hdt,-⟩ := h.waits k hk'
    rw [ha,hd]
    exact ⟨ho,hasc,hdt,hr hk'⟩
  · rw [ha] at ha'
    rw [hf]
    exact h.home k ha' ho

/-- A CTC that has not been submitted is in no queue and with no handler, and nobody waits for it. -/
theorem Places.idle (h : Places none ele owner queue job waits) (ha : owner k≠none → (ele k).asc=none) :
    (∀ t,k∉queue t) ∧ (∀ n,¬Holds job n k) ∧ waits k=false := by
  refine ⟨fun t ht => ?_,fun n hn => ?_,?_⟩
  · obtain ⟨ho,he⟩ := h.queued t k ht
    cases he.asc.symm.trans (ha ho)
  · obtain ⟨ho,he⟩ := h.held n k hn
    cases he.asc.symm.trans (ha ho)
  · cases hw : waits k with
    | false => rfl
    | true =>
      obtain ⟨ho,hasc,-⟩ := h.waits k hw
      exact (hasc (ha ho)).elim

/-- A CTC is submitted. -/
theorem Places.submit (h : Places none ele owner queue job waits) (ha : (ele k).asc=none) (ho : owner k=some t)
    (he : e.asc=some dpctcSubmit) (hf : e.fromid=t) : Places (some k) (Function.update ele k e) owner queue job waits := by
  obtain ⟨hnq,hnj,hnw⟩ := h.idle fun _ => ha
  have hok : owner k≠none := by rw [ho]; exact Option.some_ne_none _
  refine ⟨h.nodup,queued_away h.queued hnq fun _ _ => rfl,held_away h.held hnj fun _ _ => rfl,h.only,
    fun k' hne ho' ha' hd => ?_,fun k' heq => ?_,waits_update (fun hk' => ?_) fun k' _ => h.waits k',
    home_update (fun _ _ => ?_) fun k' _ => h.home k'⟩
  · have hk' : k'≠k := fun heq => hne (congrArg some heq.symm)
    rw [Function.update_of_ne hk'] at ha' hd
    exact h.placed k' (fun heq => by cases heq) ho' ha' hd
  · cases heq
    rw [Function.update_self]
    exact ⟨hok,he,hnq,hnj⟩
  · rw [hnw] at hk'
    cases hk'
  · rw [hf]
    exact ho

/-- A coroutine begins to wait. -/
theorem Places.await (h : Places none ele owner queue job waits) (ho : owner k≠none) (ha : (ele k).asc≠none)
    (hd : (ele k).isDetach=false) (hr : (ele k).refc≠0) :
    Places none ele owner queue job (Function.update waits k true) := by
  refine ⟨h.nodup,h.queued,h.held,h.only,h.placed,h.inHand,fun k' hk' => ?_,h.home⟩
  rcases eq_or_ne k' k with rfl | hne
  · exact ⟨ho,ha,hd,hr⟩
  · rw [Function.update_of_ne hne] at hk'
    exact h.waits k' hk'

end Places

/-! ### What the loops have taken -/

/- Each visit has been answered or has a handler; `cur` is the one that is just being answered. -/
structure Visits (cur : Option ℕ) (next : ℕ) (asked : List (Visit κ)) (job : ℕ → Option (Job ι κ)) (ended : List (End κ))
    (made : List (ℕ × Result)) : Prop where
  ids : ∀ x∈asked,x.visit<next
  jobs : ∀ n j,job n=some j → n<next ∧ n∉made.map Prod.fst
  ends : ∀ y∈ended,y.visit<next
  results : ∀ x∈made,x.1<next
  once : (ended.map End.visit).Nodup
  early : ∀ n k,Holds job n k → n∉ended.map End.visit
  answered : ∀ x∈asked,cur≠some x.visit → x.visit∈ended.map End.visit ∨ ∃ k,Holds job x.visit k
  made : ∀ x∈made,cur≠some x.1 → ∃ y∈ended,y.visit=x.1 ∧ (y.own=true ∨ codeOf x.2=some y.ret)
  unknown : ∀ x∈asked,x.found=false → cur≠some x.visit → ∃ y∈ended,y.visit=x.visit ∧ y.ret=dpeInvcmd
  seen : ∀ x∈asked,∀ j,job x.visit=some j → x.found=true
  own : ∀ n j,job n=some j → j.ended=true → cur≠some n → ∃ y∈ended,y.visit=n ∧ y.own=true
  inHand : ∀ n,cur=some n → n<next ∧ n∉ended.map End.visit ∧ ∀ k,¬Holds job n k

section Visits
variable {next : ℕ} {asked : List (Visit κ)} {job job' : ℕ → Option (Job ι κ)} {ended : List (End κ)}
  {made : List (ℕ × Result)}
  {n : ℕ} {j : Job ι κ} {k : κ} {r : Result} {x : Visit κ} {y : End κ}

/-- A loop takes a CTC for which there is no function. -/
theorem Visits.ask (h : Visits none next asked job ended made) (hx : x.visit=next) :
    Visits (some next) (next+1) (asked++[x]) job ended made := by
  have hnext : ∀ {n},n<next → n<next+1 := fun hn => Nat.lt_succ_of_lt hn
  have hself : ∀ z∈[x],z.visit=next := fun z hz => by rw [List.mem_singleton.mp hz]; exact hx
  have hold : ∀ z∈asked++[x],some next≠some z.visit → z∈asked := by
    intro z hz hne
    refine (List.mem_append.mp hz).resolve_right fun hz => ?_
    exact hne (congrArg some (hself z hz).symm)
  refine ⟨fun z hz => ?_,fun n j hn => ⟨hnext (h.jobs n j hn).1,(h.jobs n j hn).2⟩,fun y hy => hnext (h.ends y hy),
    fun z hz => hnext (h.results z hz),h.once,h.early,fun z hz hne => ?_,fun z hz _ => h.made z hz (fun hno => by cases hno),
    fun z hz hf hne => ?_,fun z hz j hj => ?_,fun n j hj hjo _ => h.own n j hj hjo (fun hno => by cases hno),fun n heq => ?_⟩
  · rcases List.mem_append.mp hz with hz | hz
    · exact hnext (h.ids z hz)
    · rw [hself z hz]
      exact Nat.lt_succ_self next
  · exact h.answered z (hold z hz hne) fun hno => by cases hno
  · exact h.unknown z (hold z hz hne) hf fun hno => by cases hno
  · rcases List.mem_append.mp hz with hz | hz
    · exact h.seen z hz j hj
    · rw [hself z hz] at hj
      exact absurd (h.jobs next j hj).1 (lt_irrefl next)
  · cases heq
    refine ⟨Nat.lt_succ_self next,fun hmem => ?_,fun k ⟨j,hj,_⟩ => absurd (h.jobs next j hj).1 (lt_irrefl next)⟩
    obtain ⟨y,hy,heq⟩ := List.mem_map.mp hmem
    exact absurd (heq ▸ h.ends y hy) (lt_irrefl next)

/-- A callback starts. -/
theorem Visits.start (h : Visits none next asked job ended made) (hjo : j.ended=false)
    {l : List (Visit κ)} (hl : ∀ z∈l,z.visit=next ∧ z.found=true ∧ j.ctc=some z.ctc) :
    Visits none (next+1) (asked++l) (Function.update job next (some j)) ended made := by
  have hnext : ∀ {n},n<next → n<next+1 := fun hn => Nat.lt_succ_of_lt hn
  have hne : ∀ {n},n<next → n≠next := fun hn => Nat.ne_of_lt hn
  have hcases : ∀ n j',Function.update job next (some j) n=some j' → n=next ∧ j'=j ∨ n≠next ∧ job n=some j' := by
    intro n j' hn
    rcases eq_or_ne n next with rfl | hnn
    · rw [Function.update_self] at hn
      exact .inl ⟨rfl,(Option.some.inj hn).symm⟩
    · rw [Function.update_of_ne hnn] at hn
      exact .inr ⟨hnn,hn⟩
  have hfresh : next∉ended.map End.visit := by
    intro hmem
    obtain ⟨y,hy,heq⟩ := List.mem_map.mp hmem
    exact absurd (heq ▸ h.ends y hy) (lt_irrefl next)
  refine ⟨fun z hz => ?_,fun n j' hn => ?_,fun y hy => hnext (h.ends y hy),fun z hz => hnext (h.results z hz),h.once,
    fun n k hk => ?_,
    fun z hz _ => ?_,h.made,fun z hz hf hno => ?_,fun z hz j' hj' => ?_,fun n j' hj' hjo' hno => ?_,fun n heq =>
    (by cases heq)⟩
  · rcases List.mem_append.mp hz with hz | hz
    · exact hnext (h.ids z hz)
    · rw [(hl z hz).1]
      exact Nat.lt_succ_self next
  · rcases hcases n j' hn with ⟨rfl,-⟩ | ⟨-,hn⟩
    · refine ⟨Nat.lt_succ_self n,fun hmem => ?_⟩
      obtain ⟨z,hz,heq⟩ := List.mem_map.mp hmem
      exact absurd (heq ▸ h.results z hz) (lt_irrefl n)
    · exact ⟨hnext (h.jobs n j' hn).1,(h.jobs n j' hn).2⟩
  · rcases eq_or_ne n next with rfl | hnn
    · exact hfresh
    · exact h.early n k ((holds_of_ne hnn).mp hk)
  · rcases List.mem_append.mp hz with hz | hz
    · rcases h.answered z hz (fun hno => by cases hno) with hin | ⟨k,hk⟩
      · exact .inl hin
      · exact .inr ⟨k,(holds_of_ne (hne (h.ids z hz))).mpr hk⟩
    · refine .inr ⟨z.ctc,?_⟩
      rw [(hl z hz).1]
      exact holds_self.mpr ⟨j,rfl,(hl z hz).2.2,hjo⟩
  · rcases List.mem_append.mp hz with hz | hz
    · exact h.unknown z hz hf hno
    · rw [(hl z hz).2.1] at hf
      cases hf
  · rcases List.mem_append.mp hz with hz | hz
    · rcases hcases _ j' hj' with ⟨heq,-⟩ | ⟨-,hj'⟩
      · exact absurd heq (hne (h.ids z hz))
      · exact h.seen z hz j' hj'
    · exact (hl z hz).2.1
  · rcases hcases n j' hj' with ⟨-,rfl⟩ | ⟨-,hj'⟩
    · rw [hjo] at hjo'
      cases hjo'
    · exact h.own n j' hj' hjo' hno

/-- A handler calls dpevp_end_ctc_, or it finishes (`x` is what becomes of it, `l` its result). -/
theorem Visits.release {x : Option (Job ι κ)} {l : List (ℕ × Result)} (h : Visits none next asked job ended made)
    (hn : Holds job n k) (hx : ∀ j'∈x,j'.ended=true ∧ l=[]) (hl : ∀ z∈l,z.1=n) :
    Visits (some n) next asked (Function.update job n x) ended (made++l) := by
  obtain ⟨j,hj,hc,hjo⟩ := hn
  have hnn := h.jobs n j hj
  have hnone : ∀ k',¬Holds (Function.update job n x) n k' := by
    intro k' hk'
    obtain ⟨j',hj',-,hended⟩ := holds_self.mp hk'
    rw [(hx j' hj').1] at hended
    cases hended
  have hother : ∀ {m},some n≠some m → m≠n := fun hne heq => hne (congrArg some heq.symm)
  refine ⟨h.ids,fun m j' hm => ?_,h.ends,fun z hz => ?_,h.once,fun m k' hk' => ?_,fun z hz hne => ?_,fun z hz hne => ?_,
    fun z hz hf _ => h.unknown z hz hf (fun hno => by cases hno),fun z hz j' hj' => ?_,fun m j' hj' hjo' hne => ?_,
    fun m heq => ?_⟩
  · rcases eq_or_ne m n with rfl | hne
    · rw [Function.update_self] at hm
      refine ⟨hnn.1,?_⟩
      rw [(hx j' hm).2,List.append_nil]
      exact hnn.2
    · rw [Function.update_of_ne hne] at hm
      refine ⟨(h.jobs m j' hm).1,fun hmem => ?_⟩
      obtain ⟨z,hz,rfl⟩ := List.mem_map.mp hmem
      rcases List.mem_append.mp hz with hz | hz
      · exact (h.jobs _ j' hm).2 (List.mem_map_of_mem hz)
      · exact hne (hl z hz)
  · rcases List.mem_append.mp hz with hz | hz
    · exact h.results z hz
    · rw [hl z hz]
      exact hnn.1
  · have hne : m≠n := by
      rintro rfl
      exact hnone k' hk'
    exact h.early m k' ((holds_of_ne hne).mp hk')
  · rcases h.answered z hz (fun hno => by cases hno) with hin | ⟨k',hk'⟩
    · exact .inl hin
    · exact .inr ⟨k',(holds_of_ne (hother hne)).mpr hk'⟩
  · refine h.made z ((List.mem_append.mp hz).resolve_right fun hz => ?_) fun hno => by cases hno
    exact hother hne (hl z hz)
  · rcases eq_or_ne z.visit n with heq | hne
    · rw [← heq] at hj
      exact h.seen z hz j hj
    · rw [Function.update_of_ne hne] at hj'
      exact h.seen z hz j' hj'
  · rw [Function.update_of_ne (hother hne)] at hj'
    exact h.own m j' hj' hjo' fun hno => by cases hno
  · cases heq
    exact ⟨hnn.1,h.early n k ⟨j,hj,hc,hjo⟩,hnone⟩

/-- The visit in hand is answered. -/
theorem Visits.close (h : Visits (some n) next asked job ended made) (hy : y.visit=n)
    (hmade : ∀ z∈made,z.1=n → y.own=true ∨ codeOf z.2=some y.ret)
    (hunknown : ∀ z∈asked,z.visit=n → z.found=false → y.ret=dpeInvcmd)
    (hown : ∀ j,job n=some j → j.ended=true → y.own=true) :
    Visits none next asked job (ended++[y]) made := by
  obtain ⟨hn,hnew,hfree⟩ := h.inHand n rfl
  have hmap : (ended++[y]).map End.visit=ended.map End.visit++[n] := by
    rw [List.map_append,List.map_singleton,hy]
  have hlast : y∈ended++[y] := List.mem_append_right _ List.mem_cons_self
  have hmine : ∀ {P : End κ → Prop} {m},(∃ z∈ended,z.visit=m ∧ P z) → ∃ z∈ended++[y],z.visit=m ∧ P z :=
    fun ⟨z,hz,hP⟩ => ⟨z,List.mem_append_left _ hz,hP⟩
  have hother : ∀ {m},m≠n → some n≠some m := fun hne heq => hne (Option.some.inj heq).symm
  refine ⟨h.ids,h.jobs,fun z hz => ?_,h.results,?_,fun m k hk => ?_,fun z hz _ => ?_,fun z hz _ => ?_,
    fun z hz hf _ => ?_,h.seen,
    fun m j hj hjo _ => ?_,fun m heq => (by cases heq)⟩
  · rcases List.mem_append.mp hz with hz | hz
    · exact h.ends z hz
    · rw [List.mem_singleton.mp hz,hy]
      exact hn
  · rw [hmap]
    exact h.once.append (List.nodup_singleton n) (List.disjoint_singleton.mpr hnew)
  · rw [hmap]
    intro hmem
    rcases List.mem_append.mp hmem with hmem | hmem
    · exact h.early m k hk hmem
    · rw [List.mem_singleton.mp hmem] at hk
      exact hfree k hk
  · rw [hmap]
    rcases eq_or_ne z.visit n with heq | hne
    · exact .inl (List.mem_append_right _ (List.mem_singleton.mpr heq))
    · exact (h.answered z hz (hother hne)).imp (fun hin => List.mem_append_left _ hin) id
  · rcases eq_or_ne z.1 n with heq | hne
    · exact ⟨y,hlast,hy.trans heq.symm,hmade z hz heq⟩
    · exact hmine (h.made z hz (hother hne))
  · rcases eq_or_ne z.visit n with heq | hne
    · exact ⟨y,hlast,hy.trans heq.symm,hunknown z hz heq hf⟩
    · exact hmine (h.unknown z hz hf (hother hne))
  · rcases eq_or_ne m n with rfl | hne
    · exact ⟨y,hlast,hy,hown j hj hjo⟩
    · exact hmine (h.own m j hj hjo (hother hne))

/-- The handler of a CTC that it has ended itself finishes. -/
theorem Visits.leave (h : Visits none next asked job ended made) (hj : job n=some j) (hjo : j.ended=true) :
    Visits none next asked (Function.update job n none) ended (made++[(n,r)]) := by
  have hnn := h.jobs n j hj
  obtain ⟨y,hy,hyn,hown⟩ := h.own n j hj hjo fun hno => by cases hno
  have hnot : ∀ k,¬Holds job n k := by
    rintro k ⟨j',hj',-,hjo'⟩
    rw [hj] at hj'
    cases hj'
    rw [hjo] at hjo'
    cases hjo'
  have hholds : ∀ m k,Holds (Function.update job n none) m k → Holds job m k := by
    intro m k hk
    have hne : m≠n := by
      rintro rfl
      obtain ⟨j',hj',-⟩ := holds_self.mp hk
      cases hj'
    exact (holds_of_ne hne).mp hk
  have hjobs : ∀ m j',Function.update job n none m=some j' → m≠n ∧ job m=some j' := by
    intro m j' hm
    rcases eq_or_ne m n with rfl | hne
    · rw [Function.update_self] at hm
      cases hm
    · rw [Function.update_of_ne hne] at hm
      exact ⟨hne,hm⟩
  refine ⟨h.ids,fun m j' hm => ?_,h.ends,fun z hz => ?_,h.once,fun m k hk => h.early m k (hholds m k hk),fun z hz hno => ?_,
    fun z hz hno => ?_,h.unknown,fun z hz j' hj' => h.seen z hz j' (hjobs _ j' hj').2,fun m j' hj' hjo' hno => ?_,
    fun m heq => (by cases heq)⟩
  · obtain ⟨hne,hm⟩ := hjobs m j' hm
    refine ⟨(h.jobs m j' hm).1,fun hmem => ?_⟩
    obtain ⟨z,hz,rfl⟩ := List.mem_map.mp hmem
    rcases List.mem_append.mp hz with hz | hz
    · exact (h.jobs _ j' hm).2 (List.mem_map_of_mem hz)
    · rw [List.mem_singleton.mp hz] at hne
      exact hne rfl
  · rcases List.mem_append.mp hz with hz | hz
    · exact h.results z hz
    · rw [List.mem_singleton.mp hz]
      exact hnn.1
  · rcases h.answered z hz hno with hin | ⟨k,hk⟩
    · exact .inl hin
    · refine .inr ⟨k,(holds_of_ne ?_).mpr hk⟩
      intro heq
      exact hnot k (heq ▸ hk)
  · rcases List.mem_append.mp hz with hz | hz
    · exact h.made z hz hno
    · rw [List.mem_singleton.mp hz]
      exact ⟨y,hy,hyn,.inl hown⟩
  · exact h.own m j' (hjobs m j' hj').2 hjo' hno

/-- The same handlers have the same CTCs, and have not ended others. -/
theorem Visits.same (h : Visits none next asked job ended made) (hk : ∀ n k,Holds job' n k ↔ Holds job n k)
    (hj : ∀ n j',job' n=some j' → ∃ j,job n=some j ∧ (j'.ended=true → j.ended=true)) :
      Visits none next asked job' ended made := by
  refine ⟨h.ids,fun n j' hn => ?_,h.ends,h.results,h.once,fun n k hn => h.early n k ((hk n k).mp hn),
    fun z hz hno => (h.answered z hz hno).imp id fun ⟨k,hn⟩ => ⟨k,(hk _ k).mpr hn⟩,h.made,h.unknown,fun z hz j' hj' => ?_,
    fun n j' hn hjo hno => ?_,fun m heq => (by cases heq)⟩
  · obtain ⟨j,hn,-⟩ := hj n j' hn
    exact h.jobs n j hn
  · obtain ⟨j,hn,-⟩ := hj _ j' hj'
    exact h.seen z hz j hn
  · obtain ⟨j,hn,himp⟩ := hj n j' hn
    exact h.own n j hn (himp hjo) hno

end Visits

/-! ### What the senders are told -/

/-- The last answer to a submission. -/
def Known (ended : List (End κ)) (cancelled : List (κ × ℕ × Dpret)) (x : κ × ℕ × Dpret) : Prop :=
  x∈cancelled ∨ ∃ y∈ended,y.ctc=x.1 ∧ y.sub=x.2.1 ∧ y.ret=x.2.2

theorem Known.mono {ended ended' : List (End κ)} {cancelled cancelled' : List (κ × ℕ × Dpret)} {x : κ × ℕ × Dpret}
    (h : Known ended cancelled x) (he : ended⊆ended') (hc : cancelled⊆cancelled') : Known ended' cancelled' x :=
  h.imp (fun hx => hc hx) fun ⟨y,hy,hyx⟩ => ⟨y,he hy,hyx⟩

/-- The result in a CTC is the answer to its submission. -/
def Answered (e : Ele ι) (k : κ) (m : ℕ) (ended : List (End κ)) (cancelled : List (κ × ℕ × Dpret)) : Prop :=
  (e.stat=.finish → Known ended cancelled (k,m,e.ret)) ∧ (e.stat=.cancel → (k,m,e.ret)∈cancelled)

theorem Answered.mono {e : Ele ι} {k : κ} {m : ℕ} {ended ended' : List (End κ)} {cancelled cancelled' : List (κ × ℕ × Dpret)}
    (h : Answered e k m ended cancelled) (he : ended⊆ended') (hc : cancelled⊆cancelled') : Answered e k m ended' cancelled' :=
  ⟨fun hst => (h.1 hst).mono he hc,fun hst => hc (h.2 hst)⟩

structure Told (ele : κ → Ele ι) (queue : Thread ι → List κ) (sub : κ → ℕ) (waits : κ → Bool) (ended : List (End κ))
    (cancelled : List (κ × ℕ × Dpret)) (awaited : List (κ × ℕ)) (resumed : List (κ × ℕ × Dpret)) : Prop where
  queued : ∀ t,∀ k∈queue t,Answered (ele k) k (sub k) ended cancelled
  told : ∀ x∈resumed,Known ended cancelled x
  once : (resumed.map fun y => (y.1,y.2.1)).Nodup
  past : ∀ x∈resumed.map fun y => (y.1,y.2.1),x.2<sub x.1 ∨ x.2=sub x.1 ∧ (ele x.1).asc=none
  awaited : ∀ x∈awaited,x∈resumed.map (fun y => (y.1,y.2.1)) ∨ waits x.1=true ∧ sub x.1=x.2

section Told
variable {ele : κ → Ele ι} {queue queue' : Thread ι → List κ} {sub : κ → ℕ} {waits : κ → Bool} {ended ended' : List (End κ)}
  {cancelled cancelled' : List (κ × ℕ × Dpret)} {awaited : List (κ × ℕ)} {resumed : List (κ × ℕ × Dpret)} {k : κ} {e : Ele ι}

/-- A CTC is moved. -/
theorem Told.move (h : Told ele queue sub waits ended cancelled awaited resumed) (hq : ∀ t,∀ k'∈queue' t,k'≠k → k'∈queue t)
    (hk : ∀ t,k∈queue' t → Answered e k (sub k) ended' cancelled') (ha : (ele k).asc=none → e.asc=none)
    (he : ended⊆ended') (hc : cancelled⊆cancelled') :
    Told (Function.update ele k e) queue' sub waits ended' cancelled' awaited resumed := by
  refine ⟨fun t k' hk' => ?_,fun x hx => (h.told x hx).mono he hc,h.once,fun x hx => ?_,h.awaited⟩
  · rcases eq_or_ne k' k with rfl | hne
    · rw [Function.update_self]
      exact hk t hk'
    · rw [Function.update_of_ne hne]
      exact (h.queued t k' (hq t k' hk' hne)).mono he hc
  · refine (h.past x hx).imp id fun ⟨hsub,hasc⟩ => ⟨hsub,?_⟩
    rcases eq_or_ne x.1 k with heq | hne
    · rw [heq] at hasc ⊢
      rw [Function.update_self]
      exact ha hasc
    · rwa [Function.update_of_ne hne]

theorem Told.shift (h : Told ele queue sub waits ended cancelled awaited resumed) (hq : ∀ t,∀ k'∈queue' t,k'≠k → k'∈queue t)
    (hk : ∀ t,k∈queue' t → Answered e k (sub k) ended cancelled) (ha : (ele k).asc=none → e.asc=none) :
    Told (Function.update ele k e) queue' sub waits ended cancelled awaited resumed :=
  h.move hq hk ha (List.Subset.refl _) (List.Subset.refl _)

/-- A coroutine is resumed. -/
theorem Told.resume (h : Told ele queue sub waits ended cancelled awaited resumed) (hasc : (ele k).asc≠none)
    (ha : e.asc=none) (hq : ∀ t,∀ k'∈queue' t,k'≠k ∧ k'∈queue t) (hk : Known ended cancelled (k,sub k,e.ret)) :
    Told (Function.update ele k e) queue' sub (Function.update waits k false) ended cancelled awaited
      (resumed++[(k,sub k,e.ret)]) := by
  have hmap : (resumed++[(k,sub k,e.ret)]).map (fun y => (y.1,y.2.1))=resumed.map (fun y => (y.1,y.2.1))++[(k,sub k)] := by
    rw [List.map_append,List.map_singleton]
  refine ⟨fun t k' hk' => ?_,fun x hx => ?_,?_,fun x hx => ?_,fun x hx => ?_⟩
  · obtain ⟨hne,hk'⟩ := hq t k' hk'
    rw [Function.update_of_ne hne]
    exact h.queued t k' hk'
  · rcases List.mem_append.mp hx with hx | hx
    · exact h.told x hx
    · rw [List.mem_singleton.mp hx]
      exact hk
  · rw [hmap]
    refine h.once.append (List.nodup_singleton _) (List.disjoint_singleton.mpr fun hin => ?_)
    rcases h.past _ hin with hlt | ⟨-,hno⟩
    · exact lt_irrefl _ hlt
    · exact hasc hno
  · rw [hmap] at hx
    rcases List.mem_append.mp hx with hx | hx
    · refine (h.past x hx).imp id fun ⟨hsub,hno⟩ => ⟨hsub,?_⟩
      rcases eq_or_ne x.1 k with heq | hne
      · rw [heq,Function.update_self]
        exact ha
      · rwa [Function.update_of_ne hne]
    · rw [List.mem_singleton.mp hx]
      refine .inr ⟨rfl,?_⟩
      rw [Function.update_self]
      exact ha
  · rw [hmap]
    rcases h.awaited x hx with hin | ⟨hw,hsub⟩
    · exact .inl (List.mem_append_left _ hin)
    · rcases eq_or_ne x.1 k with heq | hne
      · refine .inl (List.mem_append_right _ (List.mem_singleton.mpr ?_))
        exact Prod.ext heq (hsub.symm.trans (congrArg sub heq))
      · rw [Function.update_of_ne hne]
        exact .inr ⟨hw,hsub⟩

/-- A CTC is submitted, for which nobody waits. -/
theorem Told.submit (h : Told ele queue sub waits ended cancelled awaited resumed) (hw : waits k=false)
    (hq : ∀ t,∀ k'∈queue' t,k'≠k → k'∈queue t) (hst : e.stat=.commit) :
    Told (Function.update ele k e) queue' (Function.update sub k (sub k+1)) waits ended cancelled awaited resumed := by
  refine ⟨fun t k' hk' => ?_,h.told,h.once,fun x hx => ?_,fun x hx => ?_⟩
  · rcases eq_or_ne k' k with rfl | hne
    · rw [Function.update_self]
      exact ⟨fun hfin => (by rw [hst] at hfin; cases hfin),fun hcan => (by rw [hst] at hcan; cases hcan)⟩
    · rw [Function.update_of_ne hne,Function.update_of_ne hne]
      exact h.queued t k' (hq t k' hk' hne)
  · rcases eq_or_ne x.1 k with heq | hne
    · have hle : x.2≤ sub k := by
        have hpast := h.past x hx
        rw [heq] at hpast
        omega
      rw [heq,Function.update_self]
      exact .inl (Nat.lt_succ_of_le hle)
    · rw [Function.update_of_ne hne,Function.update_of_ne hne]
      exact h.past x hx
  · refine (h.awaited x hx).imp id fun ⟨hwx,hsub⟩ => ⟨hwx,?_⟩
    have hne : x.1≠k := by
      intro heq
      rw [heq,hw] at hwx
      cases hwx
    rwa [Function.update_of_ne hne]

/-- A coroutine begins to wait. -/
theorem Told.await (h : Told ele queue sub waits ended cancelled awaited resumed) :
    Told ele queue sub (Function.update waits k true) ended cancelled (awaited++[(k,sub k)]) resumed := by
  refine ⟨h.queued,h.told,h.once,h.past,fun x hx => ?_⟩
  rcases List.mem_append.mp hx with hx | hx
  · refine (h.awaited x hx).imp id fun ⟨hw,hsub⟩ => ⟨?_,hsub⟩
    rcases eq_or_ne x.1 k with heq | hne
    · rw [heq,Function.update_self]
    · rwa [Function.update_of_ne hne]
  · rw [List.mem_singleton.mp hx]
    exact .inr ⟨Function.update_self k true waits,rfl⟩

end Told

/-! ### Runs -/

section Runs
variable {loop : Thread ι → Loop} {logs : Bool} {s u : Sys ι κ} {t : Thread ι} {k : κ} {n : ℕ} {j : Job ι κ} {q : List κ}
  {e : Ele ι} {r : Result} {ret : Dpret}

structure Inv (s : Sys ι κ) : Prop where
  places : Places none s.ele s.owner s.queue s.job s.waits
  visits : Visits none s.next s.asked s.job s.ended s.made
  told : Told s.ele s.queue s.sub s.waits s.ended s.cancelled s.awaited s.resumed
  cur : ∀ t,∀ n∈s.cur t,∃ j,s.job n=some j ∧ j.thread=t
  runs : s.crashed=false ∧ ∀ t,s.stopped t=false

theorem inv_start : Inv ({} : Sys ι κ) := by
  have hnone : ∀ {n k},¬Holds (fun _ => none : ℕ → Option (Job ι κ)) n k := fun ⟨_,hj,_⟩ => by cases hj
  refine ⟨⟨fun t => List.nodup_nil,fun t k hk => (by cases hk),fun n k hn => (hnone hn).elim,fun n n' k hn => (hnone hn).elim,
    fun k _ ho => (ho rfl).elim,fun k hk => (by cases hk),fun k hk => (by cases hk),fun k ha => (ha rfl).elim⟩,
    ⟨fun x hx => (by cases hx),fun n j hj => (by cases hj),fun y hy => (by cases hy),fun x hx => (by cases hx),List.nodup_nil,
    fun n k hn => (hnone hn).elim,fun x hx => (by cases hx),fun x hx => (by cases hx),fun x hx => (by cases hx),
    fun x hx => (by cases hx),
    fun n j hj => (by cases hj),fun n hn => (by cases hn)⟩,
    ⟨fun t k hk => (by cases hk),fun x hx => (by cases hx),List.nodup_nil,fun x hx => (by cases hx),fun x hx =>
    (by cases hx)⟩,
    fun t n hn => (by cases hn),rfl,fun _ => rfl⟩

/-! ### Ends -/

theorem dispatch_frame (s : Sys ι κ) (k : κ) (e : Ele ι) :
    ∃ ele owner queue,s.dispatch k e={s with ele := ele, owner := owner, queue := queue} := by
  unfold Sys.dispatch
  split
  · exact ⟨_,_,_,rfl⟩
  · split
    · split
      · exact ⟨_,_,_,rfl⟩
      · exact ⟨_,_,_,rfl⟩
    · exact ⟨_,_,_,rfl⟩

/-- A CTC in hand is sent on. -/
theorem dispatch_places (h : Places (some k) s.ele s.owner s.queue s.job s.waits) (ret : Dpret) :
    let u := s.dispatch k {s.ele k with ret := ret}
    Places none u.ele u.owner u.queue s.job s.waits := by
  obtain ⟨hok,hasc,hnq,hnj⟩ := h.inHand k rfl
  unfold Sys.dispatch
  split
  · refine (h.alter (e := {s.ele k with ret := ret, isReto := false, stat := .commit}) rfl rfl rfl rfl).push ?_
    rw [Function.update_self]
    exact ⟨hasc,.inl ⟨.inl rfl,rfl,rfl⟩⟩
  · split
    · rename_i hdetach
      have hnw : s.waits k=false := by
        cases hw : s.waits k with
        | false => rfl
        | true =>
          obtain ⟨-,-,hno,-⟩ := h.waits k hw
          cases hno.symm.trans hdetach
      have hhome : s.owner k=some (s.ele k).fromid := h.home k (by rw [hasc]; exact Option.some_ne_none _) hok
      split
      · exact h.elsewhere (fun k' hk' => (Option.some.inj hk').symm) hnq hnj (fun k' hk' => Function.update_of_ne hk' _ _)
          (fun _ _ => rfl) hnw (fun hno => (hno (Function.update_self _ _ _)).elim) fun _ _ => hdetach
      · exact h.elsewhere (fun k' hk' => (Option.some.inj hk').symm) hnq hnj (fun _ _ => rfl) (fun _ _ => rfl) hnw
          (fun _ _ => hhome) fun _ _ => hdetach
    · rename_i hdetach
      refine (h.alter (e := {s.ele k with ret := ret, stat := .finish}) rfl rfl rfl rfl).push ?_
      rw [Function.update_self]
      exact ⟨hasc,.inr ⟨rfl,rfl,Bool.not_eq_true _ ▸ hdetach⟩⟩

theorem mem_push {queue : Thread ι → List κ} {t t' : Thread ι} {k k' : κ}
    (h : k'∈Function.update queue t (deqPushBack (queue t) k) t') (hne : k'≠k) : k'∈queue t' := by
  rcases eq_or_ne t' t with rfl | ht
  · rw [Function.update_self,deqPushBack] at h
    split at h
    · exact h
    · exact (List.mem_append.mp h).resolve_right fun hk => hne (List.mem_singleton.mp hk)
  · rwa [Function.update_of_ne ht] at h

theorem dispatch_told {ended : List (End κ)} (ret : Dpret) (h :
    Told s.ele s.queue s.sub s.waits s.ended s.cancelled s.awaited s.resumed)
    (hasc : (s.ele k).asc≠none) (hnq : ∀ t,k∉s.queue t) (he : s.ended⊆ended) (hk : Known ended s.cancelled (k,s.sub k,ret)) :
    let u := s.dispatch k {s.ele k with ret := ret}
    Told u.ele u.queue s.sub s.waits ended s.cancelled s.awaited s.resumed := by
  unfold Sys.dispatch
  split
  · exact h.move (fun t k' hk' hne => mem_push hk' hne) (fun _ _ => ⟨fun hno => (by cases hno),fun hno => (by cases hno)⟩)
      (fun hno => (hasc hno).elim) he (List.Subset.refl _)
  · split
    · split
      · exact h.move (fun t k' hk' _ => hk') (fun t hk' => (hnq t hk').elim) (fun hno => (hasc hno).elim) he
          (List.Subset.refl _)
      · exact h.move (fun t k' hk' _ => hk') (fun t hk' => (hnq t hk').elim) (fun hno => (hasc hno).elim) he
          (List.Subset.refl _)
    · exact h.move (fun t k' hk' hne => mem_push hk' hne) (fun _ _ => ⟨fun _ => hk,fun hno => (by cases hno)⟩)
        (fun hno => (hasc hno).elim) he (List.Subset.refl _)

/-- The CTC in hand and the visit in hand are ended. -/
theorem inv_endCtc {own : Bool} (hp : Places (some k) s.ele s.owner s.queue s.job s.waits)
    (hv : Visits (some n) s.next s.asked s.job s.ended s.made)
    (ht : Told s.ele s.queue s.sub s.waits s.ended s.cancelled s.awaited s.resumed)
    (hc : ∀ t,∀ n∈s.cur t,∃ j,s.job n=some j ∧ j.thread=t) (hr : s.crashed=false ∧ ∀ t,s.stopped t=false)
    (hmade : ∀ z∈s.made,z.1=n → own=true ∨ codeOf z.2=some ret)
      (hunknown : ∀ z∈s.asked,z.visit=n → z.found=false → ret=dpeInvcmd)
    (hown : ∀ j,s.job n=some j → j.ended=true → own=true) : Inv (s.endCtc n k ret own) := by
  obtain ⟨hok,hasc,hnq,-⟩ := hp.inHand k rfl
  have hdoing : dpeleIsDoing (s.ele k)=true := by rw [dpeleIsDoing,hasc]; rfl
  have hlast : (⟨n,k,s.sub k,ret,own⟩ : End κ)∈s.ended++[⟨n,k,s.sub k,ret,own⟩] := List.mem_append_right _ List.mem_cons_self
  have hplaces := dispatch_places hp ret
  have htold := dispatch_told ret ht (by rw [hasc]; exact Option.some_ne_none _) hnq (List.subset_append_left _ _)
    (.inr ⟨_,hlast,rfl,rfl,rfl⟩)
  have hvisits := hv.close (y := ⟨n,k,s.sub k,ret,own⟩) rfl hmade hunknown hown
  unfold Sys.endCtc
  rw [if_neg hok,if_pos hdoing]
  obtain ⟨ele,owner,queue,heq⟩ := dispatch_frame s k {s.ele k with ret := ret}
  rw [heq] at hplaces htold ⊢
  exact ⟨hplaces,hvisits,htold,hc,hr⟩

/-- A second end of a CTC that has not been submitted again does nothing. -/
theorem endCtc_quiet {own : Bool} (hq : quiet s k) : s.endCtc n k ret own=s := by
  unfold Sys.endCtc
  rw [if_neg hq.1,if_neg (by rw [hq.2]; exact Bool.false_ne_true)]

/-! ### What a loop takes -/

/-- What becomes of the first CTC of a queue. -/
inductive Taken (e : Ele ι) : Reaped ι → Prop
  | request : e.stat=.commit → Taken e (.request {e with stat := .running})
  | freed : e.refc=0 → Taken e .freed
  | dropped : e.stat=.cancel → e.isDetach=true → Taken e (.dropped {e with stat := .finish})
  | back : e.stat=.cancel → e.isDetach=false → Taken e (.back {e with stat := .finish})
  | completed : e.stat=.finish → e.isDetach=false → Taken e (.completed {e with asc := none})

theorem reap_taken (h : Queued e t) : Taken e (reapCtc e) := by
  have hdoing : dpeleIsDoing e=true := by rw [dpeleIsDoing,h.asc]; rfl
  have hpost : hasPost e=false := by rw [hasPost,h.asc]; rfl
  unfold reapCtc
  rcases h.way with ⟨hst | hst,-⟩ | ⟨hst,-,hdetach⟩
  · rw [hst]
    simp only
    unfold ascOver
    rw [if_pos ⟨rfl,hdoing,hpost⟩]
    exact .request hst
  · rw [hst]
    simp only [dpctcDel]
    by_cases hr : e.refc=0
    · rw [if_pos hr]
      exact .freed hr
    · rw [if_neg hr]
      by_cases hd : e.isDetach=true
      · rw [if_pos hd]
        exact .dropped hst hd
      · rw [if_neg hd]
        exact .back hst (eq_false_of_ne_true hd)
  · have hnot : ¬(e.stat=.running ∧ dpeleIsDoing e=true ∧ hasPost e=false) := by
      rw [hst]
      rintro ⟨hno,-⟩
      cases hno
    rw [hst]
    simp only [dpctcDel,ascOver,if_neg hnot]
    by_cases hr : e.refc=0
    · rw [if_pos hr]
      exact .freed hr
    · have hd : ¬e.isDetach=true := by rw [hdetach]; exact Bool.false_ne_true
      rw [if_neg hr,if_neg hd,if_neg hr,if_neg hd]
      exact .completed hst hdetach

/-- A callback starts. -/
theorem cur_start (hv : Visits none s.next s.asked s.job s.ended s.made)
    (hc : ∀ t,∀ n∈s.cur t,∃ j,s.job n=some j ∧ j.thread=t)
    (ctc : Option κ) : ∀ t',∀ n∈(s.start t ctc).cur t',∃ j,(s.start t ctc).job n=some j ∧ j.thread=t' := by
  intro t' n hn
  simp only [Sys.start] at hn ⊢
  rcases eq_or_ne t' t with rfl | ht
  · rw [Function.update_self] at hn
    cases hn
    exact ⟨_,Function.update_self _ _ _,rfl⟩
  · rw [Function.update_of_ne ht] at hn
    obtain ⟨j,hj,hjt⟩ := hc t' n hn
    refine ⟨j,?_,hjt⟩
    rwa [Function.update_of_ne (Nat.ne_of_lt (hv.jobs n j hj).1)]

theorem job_next (hv : Visits none s.next s.asked s.job s.ended s.made) : s.job s.next=none := by
  cases hj : s.job s.next with
  | none => rfl
  | some j => exact absurd (hv.jobs _ j hj).1 (lt_irrefl _)

/-- The request in hand gets its handler, or its answer at once. -/
theorem inv_request (hp : Places (some k) s.ele s.owner s.queue s.job s.waits) (hw : Working (s.ele k))
    (hv : Visits none s.next s.asked s.job s.ended s.made)
    (ht : Told s.ele s.queue s.sub s.waits s.ended s.cancelled s.awaited s.resumed)
    (hc : ∀ t,∀ n∈s.cur t,∃ j,s.job n=some j ∧ j.thread=t) (hr : s.crashed=false ∧ ∀ t,s.stopped t=false)
    (hok : loop t≠.lua → s.data k≠0 ∧ s.app t (s.data k)=true) : Inv (s.request (loop t) true t k) := by
  have hstart : s.app t (s.data k)=true → Inv {s.start t (some k) with asked := s.asked++[⟨s.next,k,s.app t
    (s.data k)⟩]} := by
    intro hfound
    refine ⟨hp.hold hw (job_next hv) rfl rfl,hv.start rfl fun z hz => ?_,ht,cur_start hv hc (some k),hr⟩
    rw [List.mem_singleton.mp hz]
    exact ⟨rfl,hfound,rfl⟩
  unfold Sys.request
  simp only [Bool.true_eq_false,if_false]
  cases hl : loop t with
  | lua =>
    simp only
    split
    · rename_i hfound
      exact hstart hfound
    · refine inv_endCtc hp (hv.ask rfl) ht hc hr (fun z hz heq => ?_) (fun _ _ _ _ => rfl) fun j hj _ => ?_
      · exact absurd (heq ▸ hv.results z hz) (lt_irrefl _)
      · exact absurd hj (by simp only [job_next hv]; exact Option.some_ne_none j |>.symm)
  | cwc =>
    obtain ⟨hdata,hfound⟩ := hok (by rw [hl]; exact Loop.noConfusion)
    simp only
    rw [if_pos ⟨hdata,hfound⟩]
    exact hstart hfound
  | cpp =>
    obtain ⟨hdata,hfound⟩ := hok (by rw [hl]; exact Loop.noConfusion)
    simp only
    rw [if_neg hdata,if_pos hfound]
    exact hstart hfound

theorem complete_cases (s : Sys ι κ) (t : Thread ι) (k : κ) :
    s.complete t k={s with
      waits := Function.update s.waits k false
      resumed := s.resumed++[(k,s.sub k,(s.ele k).ret)]} ∨
    ¬(s.waits k=true ∧ s.owner k=some t) ∧ s.complete t k=s := by
  unfold Sys.complete
  split
  · exact .inl rfl
  · rename_i hno
    exact .inr ⟨hno,rfl⟩

theorem inv_pop {room : Bool} (h : Inv s) (hq : s.queue t=k::q)
    (hok : (s.ele k).stat=.commit → room=true ∧ (loop t≠.lua → s.data k≠0 ∧ s.app t (s.data k)=true)) :
    Inv ({s with queue := Function.update s.queue t q}.take (loop t) room t k) := by
  have hmem : k∈s.queue t := by rw [hq]; exact List.mem_cons_self
  have hp := h.places.take hq
  obtain ⟨hown,hqd⟩ := h.places.queued t k hmem
  have hans := h.told.queued t k hmem
  obtain ⟨-,-,hnq,hnj⟩ := hp.inHand k rfl
  have hasc : (s.ele k).asc≠none := by rw [hqd.asc]; exact Option.some_ne_none _
  have hhome : s.owner k=some (s.ele k).fromid := h.places.home k hasc hown
  have hsub : ∀ t',∀ k'∈Function.update s.queue t q t',k'≠k → k'∈s.queue t' := fun t' k' hk' _ => mem_tail hq hk'
  have hself : ∀ k',some k=some k' → k'=k := fun k' heq => (Option.some.inj heq).symm
  have htold : ∀ e : Ele ι,((s.ele k).asc=none → e.asc=none) → Told (Function.update s.ele k e)
    (Function.update s.queue t q) s.sub
      s.waits s.ended s.cancelled s.awaited s.resumed :=
    fun e he => h.told.shift hsub (fun t' hk' => (hnq t' hk').elim) he
  have hawait : ∀ {P : Prop},(s.waits k=true → P) → ¬P → s.waits k=false := by
    intro P himp hno
    cases hw : s.waits k with
    | false => rfl
    | true => exact (hno (himp hw)).elim
  unfold Sys.take
  rw [if_neg hown]
  have htaken := reap_taken hqd
  simp only
  generalize reapCtc (s.ele k)=o at htaken
  cases htaken with
  | request hst =>
    have halter := hp.alter (e := {s.ele k with stat := .running}) rfl rfl rfl rfl
    obtain ⟨rfl,hfound⟩ := hok hst
    refine inv_request halter ?_ h.visits (htold _ id) h.cur h.runs hfound
    simp only [Sys.setEle,Function.update_self]
    exact ⟨hqd.asc,rfl⟩
  | freed hr =>
    have hnw := hawait (fun hw => (h.places.waits k hw).2.2.2) (not_not.mpr hr)
    have hplaces := hp.elsewhere (e := s.ele k) hself hnq hnj (fun k' hk' => Function.update_of_ne hk' none s.owner)
      (fun _ _ => rfl) hnw
      (fun hno => (hno (Function.update_self _ _ _)).elim) fun hno => (hno (Function.update_self _ _ _)).elim
    have hmoved := htold (s.ele k) id
    rw [Function.update_eq_self] at hplaces hmoved
    exact ⟨hplaces,h.visits,hmoved,h.cur,h.runs⟩
  | dropped hst hd =>
    have hnw := hawait (fun hw => (h.places.waits k hw).2.2.1) (by rw [hd]; exact Bool.noConfusion)
    have hplaces := hp.elsewhere (e := {s.ele k with stat := .finish}) hself hnq hnj (fun _ _ => rfl) (fun _ _ => rfl) hnw
      (fun _ _ => hhome) fun _ _ => hd
    exact ⟨hplaces,h.visits,htold _ id,h.cur,h.runs⟩
  | back hst hd =>
    have hplaces : Places none (Function.update s.ele k {s.ele k with stat := .finish}) s.owner
        (Function.update (Function.update s.queue t q) (s.ele k).fromid
          (deqPushBack (Function.update s.queue t q (s.ele k).fromid) k)) s.job s.waits := by
      refine (hp.alter (e := {s.ele k with stat := .finish}) rfl rfl rfl rfl).push ?_
      rw [Function.update_self]
      exact ⟨hqd.asc,.inr ⟨rfl,rfl,hd⟩⟩
    refine ⟨hplaces,h.visits,?_,h.cur,h.runs⟩
    exact h.told.shift (fun t' k' hk' hne => mem_tail hq (mem_push hk' hne))
      (fun t' _ => ⟨fun _ => .inl (hans.2 hst),fun hno => (by cases hno)⟩) id
  | completed hst hd =>
    have hfrom : (s.ele k).fromid=t := by
      rcases hqd.way with ⟨hno | hno,-⟩ | ⟨-,hfrom,-⟩
      · cases hst.symm.trans hno
      · cases hst.symm.trans hno
      · exact hfrom
    have hplaces : ∀ w : κ → Bool,(∀ k'≠k,w k'=s.waits k') → w k=false → Places none
      (Function.update s.ele k {s.ele k with asc := none})
        s.owner (Function.update s.queue t q) s.job w :=
      fun w hw hwk => hp.elsewhere hself hnq hnj (fun _ _ => rfl) hw hwk (fun _ hno => (hno rfl).elim) fun _ hno =>
        (hno rfl).elim
    simp only
    generalize hs₁ : ({s with queue := Function.update s.queue t q}.setEle k {s.ele k with asc := none} : Sys ι κ)=s₁
    rcases complete_cases s₁ t k with heq | ⟨hno,heq⟩ <;> rw [heq] <;> subst hs₁
    · refine ⟨hplaces _ (fun k' hk' => Function.update_of_ne hk' _ _) (Function.update_self _ _ _),h.visits,?_,h.cur,h.runs⟩
      have hresume := h.told.resume (e := {s.ele k with asc := none}) hasc rfl
        (fun t' k' hk' => ⟨fun heq => hnq t' (heq ▸ hk'),mem_tail hq hk'⟩) (hans.1 hst)
      simp only [Sys.setEle,Function.update_self]
      exact hresume
    · have hnw := hawait (fun hw => hno ⟨hw,by rw [← hfrom]; exact hhome⟩) id
      exact ⟨hplaces _ (fun _ _ => rfl) hnw,h.visits,htold _ fun _ => rfl,h.cur,h.runs⟩

/-! ### What the owner does -/

theorem asc_none {e : Ele ι} (h : ¬dpeleIsDoing e=true) : e.asc=none := by
  cases ha : e.asc with
  | none => rfl
  | some a => exact (h (by rw [dpeleIsDoing,ha]; rfl)).elim

theorem inv_new (h : Inv s) (ho : s.owner k=none) : Inv {s.setEle k {} with owner := Function.update s.owner k (some t)} := by
  obtain ⟨hnq,hnj,hnw⟩ := h.places.idle fun hno => (hno ho).elim
  refine ⟨?_,h.visits,?_,h.cur,h.runs⟩
  · exact h.places.elsewhere (fun k' hno => (by cases hno)) hnq hnj (fun k' hk' => Function.update_of_ne hk' _ _)
      (fun _ _ => rfl) hnw
      (fun _ hno => (hno rfl).elim) fun _ hno => (hno rfl).elim
  · exact h.told.shift (fun t' k' hk' _ => hk') (fun t' hk' => (hnq t' hk').elim) (fun _ => rfl)

/-- A change that leaves the CTC where it is. -/
theorem inv_setEle (h : Inv s) (ha : e.asc=(s.ele k).asc) (hd : e.isDetach=(s.ele k).isDetach)
    (hf : e.fromid=(s.ele k).fromid)
    (ht : e.toid=(s.ele k).toid) (hi : e.isReto=(s.ele k).isReto) (hst : e.stat=(s.ele k).stat) (hre : e.ret=(s.ele k).ret)
    (hr : s.waits k=true → e.refc≠0) : Inv (s.setEle k e) := by
  refine ⟨h.places.change ha hd hf hr (fun t hk => ?_) (fun n hn => ?_),h.visits,
    h.told.shift (fun t k' hk' _ => hk') (fun t hk => ?_) (fun hno => ha.trans hno),h.cur,h.runs⟩
  · obtain ⟨-,hq⟩ := h.places.queued t k hk
    refine ⟨ha.trans hq.asc,?_⟩
    rw [hst,ht,hi,hf,hd]
    exact hq.way
  · obtain ⟨-,hw⟩ := h.places.held n k hn
    exact ⟨ha.trans hw.asc,hst.trans hw.stat⟩
  · unfold Answered
    rw [hst,hre]
    exact h.told.queued t k hk

theorem inv_submit {a : ℤ} {toid : Thread ι} {detach : Bool} (h : Inv s) (ho : s.owner k=some t) (ha : (s.ele k).asc=none) :
    Inv ({s.setEle k {submitEle (s.ele k) t dpctcSubmit toid detach with ret := dpeInprogress} with
      data := Function.update s.data k a
      sub := Function.update s.sub k (s.sub k+1)}.push toid k) := by
  obtain ⟨hnq,hnj,hnw⟩ := h.places.idle fun _ => ha
  refine ⟨?_,h.visits,?_,h.cur,h.runs⟩
  · refine (h.places.submit (e := {submitEle (s.ele k) t dpctcSubmit toid detach with ret := dpeInprogress}) ha ho rfl rfl).push ?_
    rw [Function.update_self]
    exact ⟨rfl,.inl ⟨.inl rfl,rfl,rfl⟩⟩
  · exact h.told.submit hnw (fun t' k' hk' hne => mem_push hk' hne) rfl

theorem inv_cancel (h : Inv s) (hst : (s.ele k).stat=.commit) :
    Inv {s.setEle k {s.ele k with stat := .cancel, ret := ret} with cancelled := s.cancelled++[(k,s.sub k,ret)]} := by
  refine ⟨h.places.change rfl rfl rfl (fun hw => (h.places.waits k hw).2.2.2) (fun t hk => ?_) (fun n hn => ?_),h.visits,
    h.told.move (fun t k' hk' _ => hk') (fun t hk => ?_) id (List.Subset.refl _) (List.subset_append_left _ _),h.cur,h.runs⟩
  · obtain ⟨-,hq⟩ := h.places.queued t k hk
    refine ⟨hq.asc,.inl ?_⟩
    rcases hq.way with ⟨-,hto,hre⟩ | ⟨hno,-⟩
    · exact ⟨.inr rfl,hto,hre⟩
    · cases hst.symm.trans hno
  · cases hst.symm.trans (h.places.held n k hn).2.stat
  · exact ⟨fun hno => (by cases hno),fun _ => List.mem_append_right _ List.mem_cons_self⟩

theorem inv_await (h : Inv s) (ho : s.owner k≠none) (ha : (s.ele k).asc≠none) (hd : (s.ele k).isDetach=false)
    (hr : (s.ele k).refc≠0) :
    Inv {s with waits := Function.update s.waits k true, awaited := s.awaited++[(k,s.sub k)]} :=
  ⟨h.places.await ho ha hd hr,h.visits,h.told.await,h.cur,h.runs⟩

theorem inv_unref (h : Inv s) (hr : s.waits k=true → 1<(s.ele k).refc) : Inv (s.unref k) := by
  unfold Sys.unref
  simp only
  split
  · rename_i hfree
    have hasc : (s.ele k).asc=none := asc_none (e := s.ele k)
      (by rw [show dpeleIsDoing (s.ele k)=false from hfree.2]; exact Bool.false_ne_true)
    obtain ⟨hnq,hnj,hnw⟩ := h.places.idle fun _ => hasc
    refine ⟨?_,h.visits,?_,h.cur,h.runs⟩
    · exact h.places.elsewhere (fun k' hno => (by cases hno)) hnq hnj (fun k' hk' => Function.update_of_ne hk' _ _)
        (fun _ _ => rfl) hnw
        (fun hno => (hno (Function.update_self _ _ _)).elim) fun hno => (hno (Function.update_self _ _ _)).elim
    · exact h.told.shift (fun t' k' hk' _ => hk') (fun t' hk' => (hnq t' hk').elim) id
  · refine inv_setEle h rfl rfl rfl rfl rfl rfl rfl fun hw => ?_
    have hlt := hr hw
    simp only
    omega

/-! ### What the callbacks do -/

theorem awake_spec (h : s.awake n=some j) : s.job n=some j ∧ s.runs j.thread ∧ s.cur j.thread=some n := by
  obtain ⟨hj,hrun⟩ := Option.filter_eq_some_iff.mp h
  exact ⟨hj,of_decide_eq_true hrun⟩

/-- A callback changes, but has or has not a CTC as before. -/
theorem holds_iff {x : Option (Job ι κ)} (hj : s.job n=some j)
    (hx : ∀ k,(∃ j',x=some j' ∧ j'.ctc=some k ∧ j'.ended=false) ↔ j.ctc=some k ∧ j.ended=false) (m : ℕ) (k : κ) :
    Holds (Function.update s.job n x) m k ↔ Holds s.job m k := by
  rcases eq_or_ne m n with rfl | hne
  · rw [holds_self,hx k]
    constructor
    · exact fun hk => ⟨j,hj,hk⟩
    · rintro ⟨j',hj',hk⟩
      rw [hj] at hj'
      cases hj'
      exact hk
  · exact holds_of_ne hne

theorem jobs_of {x : Option (Job ι κ)} (hj : s.job n=some j) (hx : ∀ j'∈x,j'.ended=true → j.ended=true) (m : ℕ) (j' : Job ι κ)
    (hm : Function.update s.job n x m=some j') : ∃ j₀,s.job m=some j₀ ∧ (j'.ended=true → j₀.ended=true) := by
  rcases eq_or_ne m n with rfl | hne
  · rw [Function.update_self] at hm
    exact ⟨j,hj,hx j' hm⟩
  · rw [Function.update_of_ne hne] at hm
    exact ⟨j',hm,id⟩

/-- The loop goes on. -/
theorem cur_leave (h : Inv s) (hj : s.job n=some j) (x : Option (Job ι κ)) :
    ∀ t,∀ m∈Function.update s.cur j.thread none t,∃ j',Function.update s.job n x m=some j' ∧ j'.thread=t := by
  intro t m hm
  have ht : t≠j.thread := by
    rintro rfl
    rw [Function.update_self] at hm
    cases hm
  rw [Function.update_of_ne ht] at hm
  obtain ⟨j',hj',hjt⟩ := h.cur t m hm
  have hne : m≠n := by
    rintro rfl
    rw [hj] at hj'
    cases hj'
    exact ht hjt.symm
  exact ⟨j',by rwa [Function.update_of_ne hne],hjt⟩

theorem inv_timer (h : Inv s) : Inv (s.start t none) := by
  have hnone := job_next h.visits
  have hsame : ∀ n k,Holds (Function.update s.job s.next (some ⟨t,none,false,false⟩)) n k ↔ Holds s.job n k := by
    intro n k
    rcases eq_or_ne n s.next with rfl | hne
    · rw [holds_self]
      constructor
      · rintro ⟨j,heq,hk,-⟩
        cases heq
        cases hk
      · rintro ⟨j,hj,-⟩
        rw [hnone] at hj
        cases hj
    · exact holds_of_ne hne
  have hvisits := h.visits.start (j := ⟨t,none,false,false⟩) (l := []) rfl fun z hz => (by cases hz)
  rw [List.append_nil] at hvisits
  exact ⟨h.places.jobs hsame,hvisits,h.told,cur_start h.visits h.cur none,h.runs⟩

theorem inv_yield (h : Inv s) (hj : s.job n=some j) :
    Inv {s with job := Function.update s.job n (some {j with yielded := true}), cur := Function.update s.cur j.thread none} := by
  have hsame := holds_iff (x := some {j with yielded := true}) hj fun k =>
    ⟨fun ⟨j',heq,hk⟩ => (by cases heq; exact hk),fun hk => ⟨_,rfl,hk⟩⟩
  exact ⟨h.places.jobs hsame,h.visits.same hsame (jobs_of hj fun j' heq =>
    (by cases heq; exact id)),h.told,cur_leave h hj _,h.runs⟩

theorem inv_resume (h : Inv s) (hj : s.job n=some j) : Inv {s with cur := Function.update s.cur j.thread (some n)} := by
  refine ⟨h.places,h.visits,h.told,fun t m hm => ?_,h.runs⟩
  simp only at hm
  rcases eq_or_ne t j.thread with rfl | hne
  · rw [Function.update_self] at hm
    cases hm
    exact ⟨j,hj,rfl⟩
  · rw [Function.update_of_ne hne] at hm
    exact h.cur t m hm

theorem inv_endSelf (h : Inv s) (hj : s.job n=some j) (hk : j.ctc=some k) (hok : j.ended=true → quiet s k) :
    Inv ({s with job := Function.update s.job n (some {j with ended := true})}.endCtc n k ret true) := by
  have hcur : ∀ t,∀ m∈s.cur t,∃ j',Function.update s.job n (some {j with ended := true}) m=some j' ∧ j'.thread=t := by
    intro t m hm
    obtain ⟨j',hj',hjt⟩ := h.cur t m hm
    rcases eq_or_ne m n with rfl | hne
    · rw [hj] at hj'
      cases hj'
      exact ⟨_,Function.update_self _ _ _,hjt⟩
    · exact ⟨j',by rwa [Function.update_of_ne hne],hjt⟩
  cases hended : j.ended with
  | true =>
    have hsame := holds_iff (x := some {j with ended := true}) hj fun k =>
      ⟨fun ⟨j',heq,hk'⟩ => (by cases heq; cases hk'.2),fun hk' => (by rw [hended] at hk'; cases hk'.2)⟩
    rw [endCtc_quiet (s := {s with job := Function.update s.job n (some {j with ended := true})}) (hok hended)]
    exact ⟨h.places.jobs hsame,h.visits.same hsame (jobs_of hj fun _ _ _ => hended),h.told,hcur,h.runs⟩
  | false =>
    have hholds : Holds s.job n k := ⟨j,hj,hk,hended⟩
    have hvisits := h.visits.release (x := some {j with ended := true}) (l := []) hholds
      (fun j' heq => (by cases heq; exact ⟨rfl,rfl⟩)) fun z hz => (by cases hz)
    rw [List.append_nil] at hvisits
    exact inv_endCtc (h.places.release hholds fun j' heq => (by cases heq; rfl)) hvisits h.told hcur h.runs
      (fun _ _ _ => .inl rfl)
      (fun x hx heq hf => (by rw [h.visits.seen x hx j (heq ▸ hj)] at hf; cases hf)) fun _ _ _ => rfl

theorem inv_reto {a : Option ℤ} {toid : Option (Thread ι)} (h : Inv s) (hj : s.job n=some j) (hk : j.ctc=some k)
    (hok : j.ended=true → quiet s k) : Inv (s.reto k a toid) := by
  have hown : s.owner k≠none := by
    cases hended : j.ended with
    | true => exact (hok hended).1
    | false => exact (h.places.held n k ⟨j,hj,hk,hended⟩).1
  unfold Sys.reto
  rw [if_neg hown]
  cases toid with
  | none => exact ⟨h.places,h.visits,h.told,h.cur,h.runs⟩
  | some toid =>
    simp only
    split
    · rename_i hst
      have hst : (s.ele k).stat=.running := hst
      have hnq : ∀ t,k∉s.queue t := fun t ht => by
        have hq := (h.places.queued t k ht).2
        exact hq.not_working ⟨hq.asc,hst⟩
      refine ⟨h.places.change rfl rfl rfl (fun hw => (h.places.waits k hw).2.2.2) (fun t ht => (hnq t ht).elim)
        (fun m hm => ⟨(h.places.held m k hm).2.asc,hst⟩),h.visits,?_,h.cur,h.runs⟩
      exact h.told.shift (fun t k' hk' _ => hk') (fun t ht => (hnq t ht).elim) id
    · exact ⟨h.places,h.visits,h.told,h.cur,h.runs⟩

/-- A result that fits ends the CTC. -/
theorem after_fits {l : Loop} (logs : Bool) (h : fits logs r) (hint : l=.lua ∨ r.isInt=true) :
    ∃ ret,after l logs false r=.done ret ∧ codeOf r=some ret := by
  cases l with
  | lua =>
    cases r with
    | ret vals =>
      obtain ⟨ret,hret⟩ := Option.isSome_iff_exists.mp h
      refine ⟨ret,?_,hret⟩
      simp only [after,runCtc,Bool.false_eq_true,if_false,hret]
    | raise e =>
      cases e with
      | text text =>
        refine ⟨-4,?_,rfl⟩
        have hlog : ¬(logs=true ∧ plain (text.takeWhile (·≠0))=false) := by
          rintro ⟨hlogs,hno⟩
          rw [h hlogs] at hno
          cases hno
        simp only [after,runCtc,logError,Bool.false_eq_true,if_false,if_neg hlog]
      | throws e => exact h.elim
  | cwc | cpp =>
    obtain hno | hint := hint
    · cases hno
    · match r,hint with
      | .ret [.num ret],_ => exact ⟨ret,rfl,rfl⟩

theorem after_timer {l : Loop} (logs : Bool) (h : fitsTimer r) (hint : l=.lua ∨ r.isInt=true) :
    ∃ ret,after l logs true r=.done ret := by
  cases l with
  | lua =>
    cases r with
    | ret vals =>
      simp only [after,runTmr,if_true]
      cases htr : (vals.headD .nil).truthy with
      | false => exact ⟨dpeInternalError,by simp only [Bool.false_eq_true,if_false]⟩
      | true =>
        obtain ⟨ret,hret⟩ := Option.isSome_iff_exists.mp (h htr)
        exact ⟨ret,by simp only [if_true,hret]⟩
    | raise e => exact ⟨dpeInternalError,rfl⟩
  | cwc | cpp =>
    obtain hno | hint := hint
    · cases hno
    · match r,hint with
      | .ret [.num ret],_ => exact ⟨ret,rfl⟩

/-- A timer's callback finishes. -/
theorem inv_finishTimer (h : Inv s) (hj : s.job n=some j) (hk : j.ctc=none) (hint : loop j.thread=.lua ∨ r.isInt=true)
    (hok : fitsTimer r) : Inv (s.finish (loop j.thread) logs n j r) := by
  obtain ⟨ret,hret⟩ := after_timer logs hok hint
  have hsame := holds_iff (x := none) hj fun k => ⟨fun ⟨j',heq,_⟩ => (by cases heq),fun ⟨hk',_⟩ =>
    (by rw [hk] at hk'; cases hk')⟩
  unfold Sys.finish
  simp only [hk,hret]
  exact ⟨h.places.jobs hsame,h.visits.same hsame (jobs_of hj fun j' heq => (by cases heq)),h.told,cur_leave h hj none,h.runs⟩

/-- The handler of a CTC finishes. -/
theorem inv_finishCtc (h : Inv s) (hj : s.job n=some j) (hk : j.ctc=some k) (hint : loop j.thread=.lua ∨ r.isInt=true)
    (hok : fits logs r) (hquiet : j.ended=true → quiet s k) : Inv (s.finish (loop j.thread) logs n j r) := by
  obtain ⟨ret,hret,hcode⟩ := after_fits logs hok hint
  unfold Sys.finish
  simp only [hk,hret]
  cases hended : j.ended with
  | true =>
    have hsame := holds_iff (x := none) hj fun k =>
      ⟨fun ⟨j',heq,_⟩ => (by cases heq),fun hk' => (by rw [hended] at hk'; cases hk'.2)⟩
    rw [endCtc_quiet (s := {s with
      job := Function.update s.job n none, cur := Function.update s.cur j.thread none, made := s.made++[(n,r)]})
        (hquiet hended)]
    exact ⟨h.places.jobs hsame,h.visits.leave hj hended,h.told,cur_leave h hj none,h.runs⟩
  | false =>
    have hholds : Holds s.job n k := ⟨j,hj,hk,hended⟩
    refine inv_endCtc (h.places.release hholds fun j' heq => (by cases heq))
      (h.visits.release hholds (fun j' heq => (by cases heq)) fun z hz => (by rw [List.mem_singleton.mp hz])) h.told
      (cur_leave h hj none) h.runs (fun z hz heq => ?_) (fun x hx heq hf => ?_) fun j' hj' _ => ?_
    · rcases List.mem_append.mp hz with hz | hz
      · exact ((h.visits.jobs n j hj).2 (heq ▸ List.mem_map_of_mem hz)).elim
      · rw [List.mem_singleton.mp hz]
        exact .inr hcode
    · rw [h.visits.seen x hx j (heq ▸ hj)] at hf
      cases hf
    · simp only [Function.update_self] at hj'
      cases hj'

theorem inv_step {a : Act ι κ} (h : Inv s) (hok : proper loop logs s a) (hu : step loop logs s a=some u) : Inv u := by
  cases a with
  | app t a b =>
    cases hu
    exact ⟨h.places,h.visits,h.told,h.cur,h.runs⟩
  | new t k =>
    obtain ⟨⟨-,ho⟩,hu⟩ := Option.ite_none_right_eq_some.mp hu
    cases hu
    exact inv_new h ho
  | ref t k =>
    obtain ⟨-,hu⟩ := Option.ite_none_right_eq_some.mp hu
    cases hu
    exact inv_setEle h rfl rfl rfl rfl rfl rfl rfl fun _ => Nat.succ_ne_zero _
  | submit t k a toid detach =>
    obtain ⟨⟨-,ho,-⟩,hu⟩ := Option.ite_none_right_eq_some.mp hu
    split at hu
    · cases hu
      exact h
    · rename_i hdoing
      split at hu
      · cases hu
        exact inv_submit h ho (asc_none hdoing)
      · cases hu
        have hidle := h.places.idle (k := k) fun _ => asc_none hdoing
        refine ⟨h.places.change rfl rfl rfl (fun hw => (h.places.waits k hw).2.2.2) (fun t ht => (hidle.1 t ht).elim)
          (fun m hm => (hidle.2.1 m hm).elim),h.visits,?_,h.cur,h.runs⟩
        exact h.told.shift (fun t k' hk' _ => hk') (fun t ht => (hidle.1 t ht).elim) id
  | cancel t k ret =>
    obtain ⟨-,hu⟩ := Option.ite_none_right_eq_some.mp hu
    simp only [dpctcCesStat] at hu
    by_cases hst : (s.ele k).stat=.commit
    · rw [if_pos hst] at hu
      simp only at hu
      split at hu
      · cases hu
        exact inv_cancel h hst
      · cases hu
        exact h
    · rw [if_neg hst] at hu
      cases hu
      exact h
  | await t k =>
    obtain ⟨⟨⟨-,ho,hr⟩,-⟩,hu⟩ := Option.ite_none_right_eq_some.mp hu
    split at hu
    · rename_i hdoing
      cases hu
      refine inv_await h (by rw [ho]; exact Option.some_ne_none _) (fun hno => ?_) hdoing.2 hr
      have hd := hdoing.1
      rw [dpeleIsDoing,hno] at hd
      cases hd
    · cases hu
      exact h
  | del t k =>
    obtain ⟨⟨-,hr⟩,hu⟩ := Option.ite_none_right_eq_some.mp hu
    cases hu
    exact inv_unref h hr
  | pop t room =>
    obtain ⟨-,hu⟩ := Option.ite_none_right_eq_some.mp hu
    split at hu
    · rename_i k q hq
      cases hu
      exact inv_pop h hq (hok k (by rw [hq]; rfl))
    · cases hu
  | timer t room =>
    obtain ⟨-,hu⟩ := Option.ite_none_right_eq_some.mp hu
    cases hu
    split
    · rename_i hroom
      cases hl : loop t with
      | cwc => exact h
      | cpp | lua => exact absurd (hok (by rw [hl]; exact Loop.noConfusion)) (by rw [hroom]; exact Bool.noConfusion)
    · exact inv_timer h
  | yield n =>
    obtain ⟨j,hj,hu⟩ := Option.map_eq_some_iff.mp hu
    cases hu
    exact inv_yield h (awake_spec hj).1
  | resume n =>
    obtain ⟨j,hj,hu⟩ := Option.bind_eq_some_iff.mp hu
    obtain ⟨-,hu⟩ := Option.ite_none_right_eq_some.mp hu
    cases hu
    exact inv_resume h hj
  | endSelf n ret =>
    obtain ⟨j,hj,hu⟩ := Option.bind_eq_some_iff.mp hu
    obtain ⟨k,hk,hu⟩ := Option.map_eq_some_iff.mp hu
    cases hu
    exact inv_endSelf h (awake_spec hj).1 hk fun hended => hok j (awake_spec hj).1 hended k hk
  | reto n a toid =>
    obtain ⟨j,hj,hu⟩ := Option.bind_eq_some_iff.mp hu
    obtain ⟨k,hk,hu⟩ := Option.map_eq_some_iff.mp hu
    cases hu
    exact inv_reto h (awake_spec hj).1 hk fun hended => hok j (awake_spec hj).1 hended k hk
  | finish n r =>
    obtain ⟨j,hj,hu⟩ := Option.bind_eq_some_iff.mp hu
    obtain ⟨hint,hu⟩ := Option.ite_none_right_eq_some.mp hu
    cases hu
    have hfits := hok j (awake_spec hj).1
    unfold Sys.ends at hfits
    cases hk : j.ctc with
    | none =>
      rw [hk] at hfits
      exact inv_finishTimer h (awake_spec hj).1 hk hint hfits
    | some k =>
      rw [hk] at hfits
      exact inv_finishCtc h (awake_spec hj).1 hk hint hfits.1 hfits.2

theorem ctc_answers (h : Reach (step loop logs) (proper loop logs) ({} : Sys ι κ) s) : Right loop logs s := by
  have hinv : Inv s := h.invariant inv_start fun _ _ _ hi hok hu => inv_step hi hok hu
  have hnone : ∀ n : ℕ,none≠some n := fun n hno => by cases hno
  refine ⟨hinv.visits.once,fun x hx => hinv.visits.answered x hx (hnone _),hinv.visits.early,
    fun x hx => hinv.visits.made x hx (hnone _),
    fun x hx hf => hinv.visits.unknown x hx hf (hnone _),hinv.told.awaited,hinv.told.once,hinv.told.told,fun k hw => ?_,
    fun t => ⟨⟨hinv.runs.1,hinv.runs.2 t⟩,hinv.cur t⟩,fun t hcur hq => ?_⟩
  · obtain ⟨ho,ha,hd,-⟩ := hinv.places.waits k hw
    exact hinv.places.placed k (fun hno => by cases hno) ho ha hd
  · obtain ⟨k,q,heq⟩ := List.exists_cons_of_ne_nil hq
    simp only [step]
    rw [if_pos ⟨⟨hinv.runs.1,hinv.runs.2 t⟩,hcur⟩,heq]
    rfl

end Runs

instance (logs : Bool) : (r : Result) → Decidable (fits logs r)
  | .ret _ => inferInstanceAs (Decidable (_=_))
  | .raise (.text _) => inferInstanceAs (Decidable (_ → _))
  | .raise (.throws _) => .isFalse id

instance : (r : Result) → Decidable (fitsTimer r)
  | .ret _ => inferInstanceAs (Decidable (_ → _))
  | .raise _ => .isTrue trivial

instance (s : Sys ι κ) (k : κ) : Decidable (quiet s k) := inferInstanceAs (Decidable (_ ∧ _))

instance (logs : Bool) (s : Sys ι κ) (j : Job ι κ) (r : Result) : Decidable (s.ends logs j r) := by
  unfold Sys.ends
  split <;> infer_instance

instance (loop : Thread ι → Loop) (logs : Bool) (s : Sys ι κ) (a : Act ι κ) : Decidable (proper loop logs s a) := by
  unfold proper
  split <;> infer_instance

/-- A C thread and a Lua thread. -/
def mixed : Thread Unit → Loop
  | none => .cwc
  | some _ => .lua

/-- Two CTCs go to the Lua thread: the first one's handler waits, and then redirects it to the C thread; the second has an
unknown topic. -/
def thereAndBack : List (Act Unit ℕ) :=
  [.app (some ()) 0 true,.app none 5 true,.new none 0,.submit none 0 0 (some ()) false,.await none 0,
    .new none 1,.submit none 1 9 (some ()) false,.await none 1,.pop (some ()) true,.yield 0,.pop (some ()) true,.resume 0,
    .reto 0 (some 5) (some none),.finish 0 (.ret [.num 7]),.pop none true,.pop none true,.finish 2
    (.ret [.num 9]),.pop none true]

theorem ctc_answers_back : ∃ s : Sys Unit ℕ,s.resumed=[(1,1,-170),(0,1,9)] ∧ Right mixed true s := by
  have hrun : ((execOk (step mixed true) (proper mixed true) {} thereAndBack).any fun s =>
      decide (s.resumed=[(1,1,-170),(0,1,9)]))=true := by
    decide +kernel
  obtain ⟨s,hs,hr⟩ := (Option.any_eq_true _ _).mp hrun
  exact ⟨s,of_decide_eq_true hr,ctc_answers (execOk_reach hs)⟩

/-- A Lua handler without a return statement. -/
def nothing : List (Act Unit ℕ) :=
  [.app (some ()) 0 true,.new none 0,.submit none 0 0 (some ()) false,.await none 0,.pop (some ()) true,.finish 0 (.ret [])]

/-- The loop has stopped. -/
theorem nothing_stops : ¬∀ (loop : Thread Unit → Loop) (logs : Bool) (s : Sys Unit ℕ),
    Reach (step loop logs) anyStep {} s → Right loop logs s := by
  intro hall
  have hrun : ((exec (step mixed true) {} nothing).any fun s => s.stopped (some ()))=true := by
    decide +kernel
  obtain ⟨s,hs,hstop⟩ := (Option.any_eq_true _ _).mp hrun
  have hgoes := ((hall mixed true s (exec_reach hs)).loops (some ())).1.2
  rw [hstop] at hgoes
  cases hgoes

end Dpapp.CtcAnswer
