import Dpapp.CtcChannel
import Dpapp.Ret

/-! # The life of one CTC (os/linux/dpevp_epoll.c)

A CTC is one memory object that its owner's thread and the engines on its way
use without a lock. Every function is cut at the accesses that two threads can
order either way; `ApiOp` is what the owner's thread does inside dpevp_addv,
dpevp_end and dpele_del, `EngOp` what a thread does that has popped the CTC or
ends its request. -/

namespace Dpapp.CtcLife
open Dpapp.Machine Dpapp.CtcChannel Dpapp.Ret

inductive Stat | initial | commit | cancel | running | finish
  deriving DecidableEq, Repr

/- `post` tells whether the asc has a post function. A prep hands the CTC on with
DPE_CONTINUE or refuses it with an error; no prep of a CTC asc returns DPE_WAIT. -/
structure Asc where
  post : Bool
  prep : Stat → Dpret
  refuses : ∀ st,prep st≠dpeContinue → dpretIserr (prep st) ∧ prep st≠dpeWait

def dpctcSubmitPrep (stat : Stat) : Dpret :=
  match stat with
  | .commit | .cancel | .running => dpeRepeat
  | .initial | .finish => dpeContinue

def dpctcSubmit : Asc where
  post := false
  prep := dpctcSubmitPrep
  refuses := by
    intro st h
    cases st with
    | initial | finish => exact (h rfl).elim
    | commit | cancel | running => exact ⟨by decide,by decide⟩

/-- dpsyc_open and its siblings: a NULL path is refused, the syscall is the post function. -/
def dpsycOpen (path : Bool) : Asc where
  post := true
  prep := fun _ => if path then dpeContinue else dpeInval
  refuses := by
    intro st h
    cases path with
    | true => exact (h rfl).elim
    | false => exact ⟨by decide,by decide⟩

structure Ele (ι : Type*) where
  toid : Thread ι := none
  fromid : Thread ι := none
  stat : Stat := .initial
  asc : Option Asc := none
  isReto : Bool := false
  isDetach : Bool := false
  ret : Dpret := 0
  refc : ℕ := 1

def dpeleIsDoing {ι : Type*} (e : Ele ι) : Bool := e.asc.isSome

def hasPost {ι : Type*} (e : Ele ι) : Bool :=
  match e.asc with
  | some a => a.post
  | none => false

/-- Compare and exchange of the status. -/
def dpctcCesStat {ι : Type*} (e : Ele ι) (new old : Stat) : Option (Ele ι) :=
  if e.stat=old then some {e with stat := new} else none

/-- The deques that hold CTCs. A channel's two deques count as one queue. -/
inductive Loc (ι : Type*)
  | enter (t : Thread ι)
  | commit (w : ι)
  | accept (w : ι)
  | ready (t : Thread ι)
  deriving DecidableEq

inductive ApiOp
  | addCommit | addRet | addIsok | addIsWait | addInprog | addDetach | addClear
  | endTest (ret : Dpret) | endCas (ret : Dpret) | endRet (ret : Dpret)
  | delUnref | delTest | delFree
  deriving DecidableEq

inductive EngOp
  | reap | casRun | casFin | cancelDel | runTest | runPost | runClear | runFin | runPush | dflt
  | ascOver | overClear | overPost | overDel
  | finRet (err : Dpret) | finReto | finCommit | finPush | finStat | finDetach
  deriving DecidableEq

/-- What becomes of a CTC that a function lets go without queueing it. -/
inductive Fate | kept | request | completed | dropped | freed
  deriving DecidableEq

structure Out (ι Op : Type*) where
  ele : Ele ι
  push : Option (Loc ι) := none
  next : Option Op := none
  fate : Fate := .kept

variable {ι : Type*} [DecidableEq ι]

/-! ### Where the engines send a CTC -/

def workerPushCommit (w : ι) : Loc ι := .commit w
def workerPushAccept (w : ι) : Loc ι := .accept w

def workerCommitCtc (w : ι) (e : Ele ι) : Loc ι :=
  if e.toid=some w then .enter (some w) else workerPushCommit w
def workerFinishCtc (w : ι) (e : Ele ι) : Loc ι :=
  if e.fromid=some w then .enter (some w) else workerPushCommit w
def masterCommitCtc (e : Ele ι) : Loc ι :=
  match e.toid with
  | none => .enter none
  | some w => workerPushAccept w
def masterFinishCtc (e : Ele ι) : Loc ι :=
  match e.fromid with
  | none => .enter none
  | some w => workerPushAccept w

/-- The function pointers commit_ctc_f and finish_ctc_f of the engine of a thread. -/
def commitCtcF : Thread ι → Ele ι → Loc ι
  | none => masterCommitCtc
  | some w => workerCommitCtc w
def finishCtcF : Thread ι → Ele ι → Loc ι
  | none => masterFinishCtc
  | some w => workerFinishCtc w

/-! ### The owner's thread -/

/-- One access of thread `t` inside dpevp_addv (after prep), dpevp_end or dpele_del. -/
def runApi (t : Thread ι) (e : Ele ι) : ApiOp → Out ι ApiOp
  -- self->commit_ctc_f(self, ele): from here on other threads have the CTC
  | .addCommit => {ele := e, push := some (commitCtcF t e), next := some .addRet}
  | .addRet => {ele := {e with ret := dpeWait}, next := some .addIsok}
  | .addIsok =>
      if dpretIsok e.ret then {ele := e, push := some (.ready t), next := some .addDetach}
      else {ele := e, next := some .addIsWait}
  | .addIsWait => {ele := e, next := some (if e.ret=dpeWait then .addInprog else .addClear)}
  | .addInprog => {ele := {e with ret := dpeInprogress}, next := some .addDetach}
  -- tmr_spec is NULL for a CTC, so no timer is armed; is_detach only chooses what is returned
  | .addDetach => {ele := e}
  | .addClear => {ele := {e with asc := none}}
  | .endTest ret =>
      if dpeleIsDoing e ∧ e.fromid=t then {ele := e, next := some (.endCas ret)} else {ele := e}
  | .endCas ret =>
      match dpctcCesStat e .cancel .commit with
      | some e' => {ele := e', next := some (.endRet ret)}
      | none => {ele := e}
  | .endRet ret => {ele := {e with ret := ret}}
  | .delUnref =>
      {ele := {e with refc := e.refc-1}, next := if e.refc=1 then some .delTest else none}
  | .delTest => {ele := e, next := if dpeleIsDoing e then none else some .delFree}
  | .delFree => {ele := e, fate := .freed}

/-! ### The engines -/

/-- `_dpctc_del`: a deleted CTC is freed, a detached one is let go, another one goes on. -/
def dpctcDel {Op : Type*} (e : Ele ι) (o : Out ι Op) : Out ι Op :=
  if e.refc=0 then {ele := e, fate := .freed}
  else if e.isDetach then {ele := e, fate := .dropped}
  else o

def workerReapCtc (e : Ele ι) : EngOp :=
  match e.stat with
  | .commit => .casRun
  | .cancel => .casFin
  | .running => .runTest
  | _ => .dflt
def masterReapCtc (e : Ele ι) : EngOp :=
  match e.stat with
  | .commit => .casRun
  | .cancel => .casFin
  | _ => .dflt

/-- One access of thread `t` after it has popped the CTC; `r` is what a post function returns. -/
def runEng (t : Thread ι) (r : Dpret) (e : Ele ι) : EngOp → Out ι EngOp
  | .reap => {ele := e, next := some (if t=none then masterReapCtc e else workerReapCtc e)}
  | .casRun =>
      match dpctcCesStat e .running .commit with
      | some e' =>
          match t,e.toid with
          | none,some w => {ele := e', push := some (workerPushAccept w)}
          | _,_ => {ele := e', next := some .ascOver}
      | none => {ele := e, next := some .casFin}
  | .casFin =>
      match dpctcCesStat e .finish .cancel with
      | some e' => {ele := e', next := some .cancelDel}
      | none => {ele := e, next := some (if t=none then .dflt else .runTest)}
  | .cancelDel => dpctcDel e {ele := e, push := some (finishCtcF t e)}
  | .runTest => {ele := e, next := some (if hasPost e then .runPost else .ascOver)}
  | .runPost => {ele := {e with ret := r}, next := some .runClear}
  | .runClear => {ele := {e with asc := none}, next := some .runFin}
  | .runFin => {ele := {e with stat := .finish}, next := some .runPush}
  | .runPush => {ele := e, push := some (finishCtcF t e)}
  | .dflt =>
      match t,e.fromid with
      | none,some w => {ele := e, push := some (workerPushAccept w)}
      | _,_ => dpctcDel e {ele := e, next := some .ascOver}
  -- _dpele_asc_over
  | .ascOver =>
      if e.stat=.running ∧ dpeleIsDoing e ∧ hasPost e=false then {ele := e, fate := .request}
      else {ele := e, next := some .overClear}
  | .overClear =>
      {ele := {e with asc := none}, next := some (if hasPost e then .overPost else .overDel)}
  | .overPost => {ele := {e with ret := r}, next := some .overDel}
  | .overDel => dpctcDel e {ele := e, fate := .completed}
  -- dpevp_end_ctc_
  | .finRet err => {ele := {e with ret := err}, next := some .finReto}
  | .finReto =>
      if e.isReto then {ele := {e with isReto := false}, next := some .finCommit}
      else {ele := e, next := some .finStat}
  | .finCommit => {ele := {e with stat := .commit}, next := some .finPush}
  | .finPush => {ele := e, push := some (commitCtcF t e)}
  | .finStat => {ele := {e with stat := .finish}, next := some .finDetach}
  | .finDetach =>
      if e.isDetach then {ele := e, fate := if e.refc=0 then .freed else .dropped}
      else {ele := e, push := some (finishCtcF t e)}

/-! ### One CTC on its own -/

/-- Who has the CTC besides its owner. -/
inductive Place (ι : Type*)
  | idle
  | queued (loc : Loc ι)
  | run (t : Thread ι)
  | held (t : Thread ι)
  deriving DecidableEq

/- History of one CTC. The fields from `route` on are about its last submission: the threads it
was sent to, those whose dpevp_pop handed it out as a request, the post functions that ran, the last
value given to dpevp_end_ctc_, the code of a cancel that took effect, and the pops that handed it
out as completed with the result they found. -/
structure Hist (ι : Type*) where
  owner : Thread ι := none
  born : Bool := false
  place : Place ι := .idle
  frees : ℕ := 0
  uaf : Bool := false
  route : List (Thread ι) := []
  asked : List (Thread ι) := []
  posted : List (Thread ι × Dpret) := []
  given : Option Dpret := none
  cancelled : Option Dpret := none
  done : List (Thread ι × Dpret) := []

/-- An access to the CTC's memory. -/
def Hist.touch (h : Hist ι) : Hist ι := {h with uaf := h.uaf || decide (h.frees≠0)}
def Hist.free {Op : Type*} (h : Hist ι) (o : Out ι Op) : Hist ι :=
  {h with frees := if o.fate=.freed then h.frees+1 else h.frees}

def Hist.submit (h : Hist ι) (toid : Thread ι) : Hist ι :=
  {h with route := [toid], asked := [], posted := [], given := none, cancelled := none, done := []}

/-- The code of a cancel that takes effect. -/
def cancels (op : ApiOp) (o : Out ι ApiOp) : Option Dpret :=
  match op,o.next with
  | .endCas ret,some _ => some ret
  | _,_ => none

def histApi (h : Hist ι) (op : ApiOp) (o : Out ι ApiOp) : Hist ι :=
  {h.touch.free o with
    place := (o.push.map .queued).getD h.place
    cancelled := (cancels op o).or h.cancelled
    given := if (cancels op o).isSome then none else h.given}

def placeEng (t : Thread ι) (o : Out ι EngOp) : Place ι :=
  match o.push,o.next,o.fate with
  | some loc,_,_ => .queued loc
  | none,some _,_ => .run t
  | none,none,.request => .held t
  | none,none,_ => .idle

def histEng (h : Hist ι) (t : Thread ι) (r : Dpret) (op : EngOp) (o : Out ι EngOp) : Hist ι :=
  {h.touch.free o with
    place := placeEng t o
    route := if op=.finReto ∧ o.next=some .finCommit then h.route++[o.ele.toid] else h.route
    asked := if o.fate=.request then h.asked++[t] else h.asked
    posted := if op=.runPost ∨ op=.overPost then h.posted++[(t,r)] else h.posted
    given := match op with
      | .finRet err => some err
      | _ => h.given
    done := if o.fate=.completed then h.done++[(t,o.ele.ret)] else h.done}

/-- What dpevp_addv does up to the hand-off. -/
def submitEle (e : Ele ι) (t : Thread ι) (asc : Asc) (toid : Thread ι) (detach : Bool) : Ele ι :=
  {e with asc := some asc, stat := .commit, fromid := t, isReto := false, toid := toid, isDetach := detach}

structure Life (ι : Type*) where
  e : Ele ι
  h : Hist ι
  api : Option ApiOp
  eng : Option EngOp

inductive Lbl (ι : Type*)
  | new (t : Thread ι)
  | ref
  | add (asc : Asc) (toid : Thread ι) (detach : Bool)
  | cancel (ret : Dpret)
  | del
  | endCtc (err : Dpret)
  | reto (toid : Thread ι)
  | pop
  | popReady
  | deliver
  | api
  | eng (r : Dpret)

/-- The thread is not in the middle of a function that is about this CTC. -/
def Life.free (x : Life ι) (t : Thread ι) : Prop := (t=x.h.owner → x.api=none) ∧ x.h.place≠.run t

instance (x : Life ι) (t : Thread ι) : Decidable (x.free t) := inferInstanceAs (Decidable (_ ∧ _))

def Life.start : Life ι := ⟨{},{},none,none⟩

def Life.step (x : Life ι) : Lbl ι → Option (Life ι)
  | .new t => if x.h.born then none else some {x with e := {}, h := {owner := t, born := true}}
  | .ref =>
      if x.h.born ∧ x.free x.h.owner ∧ x.e.refc≠0 then
        some {x with e := {x.e with refc := x.e.refc+1}, h := x.h.touch}
      else none
  | .add asc toid detach =>
      if x.h.born ∧ x.free x.h.owner ∧ x.e.refc≠0 then
        if dpeleIsDoing x.e then some {x with h := x.h.touch}
        else if asc.prep x.e.stat=dpeContinue then
          some {x with
            e := submitEle x.e x.h.owner asc toid detach
            h := x.h.touch.submit toid
            api := some .addCommit}
        else some {x with e := {x.e with ret := asc.prep x.e.stat}, h := x.h.touch}
      else none
  | .cancel ret =>
      if x.h.born ∧ x.free x.h.owner then some {x with api := some (.endTest ret)} else none
  | .del =>
      if x.h.born ∧ x.free x.h.owner ∧ x.e.refc≠0 then some {x with api := some .delUnref} else none
  | .api =>
      match x.api with
      | some op =>
          let o := runApi x.h.owner x.e op
          some {x with e := o.ele, h := histApi x.h op o, api := o.next}
      | none => none
  | .endCtc err =>
      match x.h.place with
      | .held t =>
          if x.free t then
            if dpeleIsDoing x.e then
              some {x with h := {x.h.touch with place := .run t}, eng := some (.finRet err)}
            else some {x with h := x.h.touch}
          else none
      | _ => none
  | .reto toid =>
      match x.h.place with
      | .held t =>
          if x.free t then
            if x.e.stat=.running then
              some {x with e := {x.e with toid := toid, isReto := true}, h := x.h.touch}
            else some {x with h := x.h.touch}
          else none
      | _ => none
  | .pop =>
      match x.h.place with
      | .queued (.enter t) =>
          if x.free t then some {x with h := {x.h with place := .run t}, eng := some .reap} else none
      | _ => none
  | .popReady =>
      match x.h.place with
      | .queued (.ready t) =>
          if x.free t then some {x with h := {x.h with place := .run t}, eng := some .ascOver} else none
      | _ => none
  | .deliver =>
      match x.h.place with
      | .queued (.commit _) => some {x with h := {x.h with place := .queued (.enter none)}}
      | .queued (.accept w) => some {x with h := {x.h with place := .queued (.enter (some w))}}
      | _ => none
  | .eng r =>
      match x.h.place,x.eng with
      | .run t,some op =>
          let o := runEng t r x.e op
          some {x with e := o.ele, h := histEng x.h t r op o, eng := o.next}
      | _,_ => none

end Dpapp.CtcLife
