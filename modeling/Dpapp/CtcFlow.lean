import Dpapp.CtcResult

/-! # The way of a CTC there and back

Which engines hand a CTC out as a request, where its post function runs, and
when its owner gets it back. -/

set_option linter.unusedSectionVars false

namespace Dpapp.CtcFlow
open Dpapp.Machine Dpapp.Ret Dpapp.CtcLife Dpapp.CtcEngine Dpapp.CtcMemory Dpapp.CtcResult
open Dpapp.CtcChannel (Thread)

variable {ι κ : Type*} [DecidableEq ι] [DecidableEq κ]

/-- The owner's dpevp_end is about to cancel a CTC that has a post function. -/
def cutsPost (x : Life ι) : Bool :=
  match x.api with
  | some (.endCas _) => decide (x.e.stat=.commit) && hasPost x.e
  | _ => false

/- A CTC with a post function goes to its own engine or from worker to worker, and no cancel takes
effect on it. Otherwise as `settled`. -/
def straight (x : Life ι) : Lbl ι → Prop
  | .add asc toid _ => (dpeleIsDoing x.e=false → x.h.place=.idle) ∧
      (asc.post=true → toid=x.h.owner ∨ (x.h.owner≠none ∧ toid≠none))
  | .api => cutsPost x=false
  | .eng r => writes x r≠none → x.api.all (fun op => !settling op)=true
  | _ => True

instance (x : Life ι) : (l : Lbl ι) → Decidable (straight x l)
  | .add _ _ _ => inferInstanceAs (Decidable (_ ∧ _))
  | .api => inferInstanceAs (Decidable (_=_))
  | .eng _ => inferInstanceAs (Decidable (_ → _))
  | .new _ | .ref | .cancel _ | .del | .endCtc _ | .reto _ | .pop | .popReady | .deliver => .isTrue trivial

theorem straight_settled {x : Life ι} {l : Lbl ι} (h : straight x l) : settled x l := by
  cases l with
  | add => exact h.1
  | eng => exact h
  | _ => trivial

/-! ### Phases -/

/- The deques a request may be in. A worker finds a request with a post function already taken by the
master, except one that comes from itself. -/
def onward (e : Ele ι) : Loc ι → Prop
  | .enter t => if e.stat=.running then t=e.toid ∧ t≠none
      else t=none ∨ t=e.toid ∧ (hasPost e=true → t=e.fromid)
  | .commit _ => e.stat≠.running
  | .accept w => e.toid=some w ∧ (e.stat≠.running → hasPost e=false)
  | .ready _ => False

theorem onward_enter {e : Ele ι} {t : Thread ι} (h : e.stat≠.running) :
    onward e (.enter t) ↔ t=none ∨ t=e.toid ∧ (hasPost e=true → t=e.fromid) := by
  simp only [onward,if_neg h]

def homeward (e : Ele ι) : Loc ι → Prop
  | .enter t => t=e.fromid ∨ t=none
  | .commit _ => True
  | .accept w => e.fromid=some w
  | .ready _ => False

/-- The submission has not reached its target: nobody has been asked there yet. -/
structure Asking (x : Life ι) : Prop where
  fromid : x.e.fromid=x.h.owner
  doing : dpeleIsDoing x.e=true
  isReto : x.e.isReto=false
  done : x.h.done=[]
  posted : x.h.posted=[]
  plain : hasPost x.e=false → x.h.asked++[x.e.toid]=x.h.route
  post : hasPost x.e=true → x.h.asked=[] ∧ x.h.route=[x.e.toid] ∧
    (x.e.toid=x.h.owner ∨ (x.h.owner≠none ∧ x.e.toid≠none))
  stat : (x.e.stat=.commit ∨ x.e.stat=.running) ∧ x.h.cancelled=none ∨
    x.e.stat=.cancel ∧ x.h.cancelled≠none ∧ hasPost x.e=false

theorem Asking.uncancelled {x : Life ι} (ha : Asking x) (hst : x.e.stat≠.cancel) : x.h.cancelled=none := by
  obtain ⟨-,h⟩ | ⟨h,-⟩ := ha.stat
  · exact h
  · exact (hst h).elim

/-- The target's application has the request. -/
structure Working (x : Life ι) : Prop where
  fromid : x.e.fromid=x.h.owner
  plain : plain x.e
  stat : x.e.stat=.running
  done : x.h.done=[]
  posted : x.h.posted=[]
  asked : x.h.asked=x.h.route
  cancelled : x.h.cancelled=none

/-- How a submission without a post function, with one, and a cancelled one end. -/
inductive Outcome (h : Hist ι) : Prop
  | given : h.cancelled=none → h.posted=[] → h.given≠none → h.asked=h.route → Outcome h
  | posted (t : Thread ι) (v : Dpret) :
      h.cancelled=none → h.posted=[(t,v)] → h.asked=[] → h.route=[t] → Outcome h
  | cancelled (t : Thread ι) : h.cancelled≠none → h.posted=[] → h.asked++[t]=h.route → Outcome h

/-- On the way back. -/
structure Answer (x : Life ι) : Prop where
  fromid : x.e.fromid=x.h.owner
  stat : x.e.stat=.finish
  post : hasPost x.e=false
  done : x.h.done=[]
  outcome : Outcome x.h

/-- The post function has run. -/
structure Posted (x : Life ι) : Prop where
  fromid : x.e.fromid=x.h.owner
  stat : x.e.stat≠.commit
  done : x.h.done=[]
  cancelled : x.h.cancelled=none
  posted : ∃ t v,x.h.posted=[(t,v)] ∧ x.h.asked=[] ∧ x.h.route=[t]

/-- The owner's dpevp_pop has taken it back and is about to hand it out. -/
structure Back (x : Life ι) (t : Thread ι) : Prop where
  thread : t=x.h.owner
  stat : x.e.stat≠.commit
  asc : x.e.asc=none
  done : x.h.done=[]

def flowRun (x : Life ι) (t : Thread ι) : EngOp → Prop
  | .reap => Asking x ∧ onward x.e (.enter t) ∨ Answer x ∧ homeward x.e (.enter t)
  | .casRun => Asking x ∧ onward x.e (.enter t) ∧ x.e.stat≠.running
  | .casFin => Asking x ∧ x.e.stat=.cancel
  | .cancelDel => Answer x
  | .runTest => Asking x ∧ x.e.stat=.running ∧ t=x.e.toid
  | .runPost => Asking x ∧ x.e.stat=.running ∧ t=x.e.toid ∧ hasPost x.e=true
  | .runClear => Posted x
  | .runFin => Posted x ∧ x.e.asc=none
  | .runPush => Answer x
  | .dflt => Answer x ∧ homeward x.e (.enter t)
  | .ascOver => Asking x ∧ x.e.stat=.running ∧ t=x.e.toid ∧ (hasPost x.e=true → t=x.h.owner) ∨
      Answer x ∧ t=x.h.owner
  | .overClear => Asking x ∧ x.e.stat=.running ∧ t=x.e.toid ∧ hasPost x.e=true ∧ t=x.h.owner ∨
      Answer x ∧ t=x.h.owner
  | .overPost => Back x t ∧ x.h.cancelled=none ∧ x.h.asked=[] ∧ x.h.route=[t] ∧ x.h.posted=[]
  | .overDel => Back x t ∧ Outcome x.h
  | .finRet _ => Working x
  | .finReto | .finStat => Working x ∧ x.h.given≠none
  | .finCommit => x.e.fromid=x.h.owner ∧ CtcResult.plain x.e ∧ x.e.stat=.running ∧ x.e.isReto=false ∧ x.h.done=[] ∧
      x.h.posted=[] ∧ x.h.asked++[x.e.toid]=x.h.route ∧ x.h.cancelled=none
  | .finPush => Asking x ∧ x.e.stat≠.running ∧ hasPost x.e=false
  | .finDetach => Answer x

/-- Handed out as completed, once, on the owner's thread. -/
structure Complete (x : Life ι) : Prop where
  asc : x.e.asc=none
  isDetach : x.e.isDetach=false
  done : ∃ v,x.h.done=[(x.h.owner,v)]
  outcome : Outcome x.h

/-- Never to be handed out as completed: deleted by its owner, or detached. -/
structure LetGo (x : Life ι) : Prop where
  unwanted : x.e.refc=0 ∨ x.e.isDetach=true
  done : x.h.done=[]
  outcome : Outcome x.h

/-- Never submitted. -/
structure Unused (x : Life ι) : Prop where
  route : x.h.route=[]
  asked : x.h.asked=[]
  posted : x.h.posted=[]
  cancelled : x.h.cancelled=none
  done : x.h.done=[]

/-- What is known of the CTC wherever it is. -/
def Flow (x : Life ι) : Prop :=
  match x.h.place,x.eng with
  | .idle,_ => x.e.stat≠.commit ∧ (Unused x ∨ Complete x ∨ LetGo x) ∨
      x.e.stat=.commit ∧ Asking x ∧ x.api=some .addCommit
  | .queued loc,_ => Asking x ∧ onward x.e loc ∨ Answer x ∧ homeward x.e loc
  | .held t,_ => Working x ∧ ∃ l,x.h.asked=l++[t]
  | .run t,some op => flowRun x t op
  | .run _,none => False

theorem flow_idle {x : Life ι} (h : x.h.place=.idle) : Flow x ↔ x.e.stat≠.commit ∧ (Unused x ∨ Complete x ∨ LetGo x) ∨
    x.e.stat=.commit ∧ Asking x ∧ x.api=some .addCommit := by
  unfold Flow
  rw [h]

theorem flow_queued {x : Life ι} {loc : Loc ι} (h : x.h.place=.queued loc) :
    Flow x ↔ Asking x ∧ onward x.e loc ∨ Answer x ∧ homeward x.e loc := by
  unfold Flow
  rw [h]

theorem flow_held {x : Life ι} {t : Thread ι} (h : x.h.place=.held t) : Flow x ↔ Working x ∧ ∃ l,x.h.asked=l++[t] := by
  unfold Flow
  rw [h]

theorem flow_run {x : Life ι} {t : Thread ι} (h : x.h.place=.run t) :
    Flow x ↔ ∃ op,x.eng=some op ∧ flowRun x t op := by
  unfold Flow
  rw [h]
  cases x.eng <;> simp

/-- The same submission, as far as it has come. -/
structure Same (h h' : Hist ι) : Prop where
  owner : h'.owner=h.owner
  route : h'.route=h.route
  asked : h'.asked=h.asked
  posted : h'.posted=h.posted
  given : h'.given=h.given
  cancelled : h'.cancelled=h.cancelled
  done : h'.done=h.done

section
variable {x y : Life ι}

theorem Outcome.congr {h h' : Hist ι} (hc : h'.cancelled=h.cancelled) (hp : h'.posted=h.posted) (hg : h'.given=h.given)
    (ha : h'.asked=h.asked) (hr : h'.route=h.route) (ho : Outcome h) : Outcome h' := by
  cases ho with
  | given h1 h2 h3 h4 => exact .given (by rw [hc,h1]) (by rw [hp,h2]) (by rw [hg]; exact h3) (by rw [ha,hr,h4])
  | posted t v h1 h2 h3 h4 => exact .posted t v (by rw [hc,h1]) (by rw [hp,h2]) (by rw [ha,h3]) (by rw [hr,h4])
  | cancelled t h1 h2 h3 => exact .cancelled t (by rw [hc]; exact h1) (by rw [hp,h2]) (by rw [ha,hr,h3])

theorem Outcome.same {h h' : Hist ι} (hs : Same h h') (ho : Outcome h) : Outcome h' :=
  ho.congr hs.cancelled hs.posted hs.given hs.asked hs.route

theorem Asking.same {v : Dpret} {n : ℕ} (hs : Same x.h y.h) (he : y.e={x.e with ret := v, refc := n}) (ha : Asking x) :
    Asking y := by
  obtain ⟨h1,h2,h3,h4,h5,h6,h7,h8⟩ := ha
  refine ⟨?_,?_,?_,?_,?_,?_,?_,?_⟩ <;>
    simp only [he,hs.owner,hs.route,hs.asked,hs.posted,hs.cancelled,hs.done] <;> assumption

/-- Engines and the owner's dpevp_end change the status only. -/
theorem Asking.restat {c : Stat} (hs : Same x.h {y.h with cancelled := x.h.cancelled, given := x.h.given}) (he : y.e={x.e with stat := c})
    (ha : Asking x) (hst : (c=.commit ∨ c=.running) ∧ y.h.cancelled=none ∨
      c=.cancel ∧ y.h.cancelled≠none ∧ hasPost x.e=false) : Asking y := by
  obtain ⟨h1,h2,h3,h4,h5,h6,h7,h8⟩ := ha
  have ho := hs.owner
  have hr := hs.route
  have hk := hs.asked
  have hp := hs.posted
  have hd := hs.done
  simp only at ho hr hk hp hd
  refine ⟨?_,?_,?_,?_,?_,?_,?_,?_⟩ <;> simp only [he,ho,hr,hk,hp,hd] <;> assumption

theorem Working.same (hs : Same x.h y.h) (hf : y.e.fromid=x.e.fromid) (hst : y.e.stat=x.e.stat) (ha : y.e.asc=x.e.asc)
    (hw : Working x) : Working y := by
  obtain ⟨h1,⟨h2,h2'⟩,h3,h4,h5,h6,h7⟩ := hw
  refine ⟨?_,⟨?_,?_⟩,?_,?_,?_,?_,?_⟩ <;>
    simp only [hf,hst,ha,dpeleIsDoing,hasPost,hs.owner,hs.route,hs.asked,hs.posted,hs.cancelled,hs.done] <;> assumption

theorem Answer.same (hs : Same x.h y.h) (hf : y.e.fromid=x.e.fromid) (hst : y.e.stat=x.e.stat) (ha : y.e.asc=x.e.asc)
    (hx : Answer x) : Answer y := by
  obtain ⟨h1,h2,h3,h4,h5⟩ := hx
  refine ⟨?_,?_,?_,?_,h5.same hs⟩ <;> simp only [hf,hst,ha,hasPost,hs.owner,hs.done] <;> assumption

theorem Posted.same (hs : Same x.h y.h) (hf : y.e.fromid=x.e.fromid) (hst : y.e.stat=x.e.stat) (hp : Posted x) :
    Posted y := by
  obtain ⟨h1,h2,h3,h4,h5⟩ := hp
  constructor <;> simp only [hf,hst,hs.owner,hs.route,hs.asked,hs.posted,hs.cancelled,hs.done] <;> assumption

theorem Back.same {t : Thread ι} (hs : Same x.h y.h) (hst : y.e.stat=x.e.stat) (ha : y.e.asc=x.e.asc)
    (hb : Back x t) : Back y t :=
  ⟨by rw [hs.owner,hb.thread],by rw [hst]; exact hb.stat,by rw [ha,hb.asc],by rw [hs.done,hb.done]⟩

end

/-- Most accesses of an engine leave the history of the submission as it is. -/
theorem same_eng {h : Hist ι} {t : Thread ι} {r : Dpret} {op : EngOp} {o : Out ι EngOp} (h1 : ∀ err,op≠.finRet err)
    (h2 : op≠.runPost) (h3 : op≠.overPost) (h4 : o.next≠some .finCommit) (h5 : o.fate≠.request)
    (h6 : o.fate≠.completed) : Same h (histEng h t r op o) := by
  constructor <;> simp only [histEng,h2,h3,h4,h5,h6,and_false,or_self,if_false] <;> rfl

/-! ### The engines -/

theorem onward_commit {e : Ele ι} {t : Thread ι} (hs : e.stat≠.running)
    (hp : hasPost e=true → t=e.fromid ∧ (t=none → e.toid=none)) : onward e (commitCtcF t e) := by
  cases t with
  | none =>
    simp only [commitCtcF,masterCommitCtc]
    cases hto : e.toid with
    | none => simp [onward,hs]
    | some w =>
      refine ⟨hto,fun _ => ?_⟩
      by_contra hpost
      have := (hp (by simpa using hpost)).2 rfl
      rw [hto] at this; cases this
  | some w =>
    simp only [commitCtcF,workerCommitCtc]
    split
    · rename_i hto
      simp only [onward,hs,if_false]
      exact .inr ⟨hto.symm,fun h => (hp h).1⟩
    · exact hs

theorem homeward_finish {e : Ele ι} {t : Thread ι} : homeward e (finishCtcF t e) := by
  cases t with
  | none =>
    simp only [finishCtcF,masterFinishCtc]
    cases hf : e.fromid with
    | none => exact .inr rfl
    | some w => exact hf
  | some w =>
    simp only [finishCtcF,workerFinishCtc]
    split
    · rename_i hf
      exact .inl hf.symm
    · trivial

/-- Thread `t`, which has the CTC, makes its next access. -/
def engStep (x : Life ι) (t : Thread ι) (r : Dpret) (op : EngOp) : Life ι :=
  let o := runEng t r x.e op
  {x with e := o.ele, h := histEng x.h t r op o, eng := o.next}

/-- What `_dpctc_del` keeps back will not be handed out. -/
theorem flow_dpctcDel {x : Life ι} {t : Thread ι} {r : Dpret} {op : EngOp} {o : Out ι EngOp}
    (hst : x.e.stat≠.commit) (hdone : x.h.done=[]) (hout : Outcome x.h) (h1 : ∀ err,op≠.finRet err) (h2 : op≠.runPost)
    (h3 : op≠.overPost)
    (ho : x.e.isDetach=false → Flow {x with e := o.ele, h := histEng x.h t r op o, eng := o.next}) :
    Flow {x with e := (dpctcDel x.e o).ele, h := histEng x.h t r op (dpctcDel x.e o), eng := (dpctcDel x.e o).next} := by
  have hgo (fate : Fate) (hf : fate=.freed ∨ fate=.dropped) (hu : x.e.refc=0 ∨ x.e.isDetach=true) :
      Flow {x with e := x.e, h := histEng x.h t r op {ele := x.e, fate := fate}, eng := none} := by
    have hs : Same x.h (histEng x.h t r op {ele := x.e, fate := fate}) := by
      obtain rfl | rfl := hf <;> exact same_eng h1 h2 h3 (by simp) (by simp) (by simp)
    have hl : LetGo {x with e := x.e, h := histEng x.h t r op {ele := x.e, fate := fate}, eng := none} :=
      ⟨hu,hs.done.trans hdone,hout.same hs⟩
    obtain rfl | rfl := hf <;> exact .inl ⟨hst,.inr (.inr hl)⟩
  unfold dpctcDel
  split
  · exact hgo .freed (.inl rfl) (.inl ‹_›)
  · split
    · exact hgo .dropped (.inr rfl) (.inr ‹_›)
    · exact ho (by simpa using ‹¬x.e.isDetach=true›)

section Engines
variable {x : Life ι} {t : Thread ι} {r : Dpret}

theorem flow_reap (hx : flowRun x t .reap) : Flow (engStep x t r .reap) := by
  set op' := if t=none then masterReapCtc x.e else workerReapCtc x.e with hop
  have hne : op'≠.finCommit := by
    rw [hop]; unfold masterReapCtc workerReapCtc
    cases x.e.stat <;> (split <;> simp)
  have hs : Same x.h (engStep x t r .reap).h :=
    same_eng (by simp) (by simp) (by simp) (by simpa [runEng] using hne) (by simp [runEng]) (by simp [runEng])
  show flowRun _ t op'
  obtain ⟨ha,ho⟩ | ⟨ha,ho⟩ := hx
  · have ha' : Asking (engStep x t r .reap) := ha.same hs rfl
    obtain ⟨hst | hst,-⟩ | ⟨hst,-⟩ := ha.stat
    · rw [show op'=.casRun by simp [hop,masterReapCtc,workerReapCtc,hst]]
      exact ⟨ha',ho,by simp [runEng,engStep,hst]⟩
    · simp only [onward,hst,if_true] at ho
      rw [show op'=.runTest by simp [hop,workerReapCtc,hst,ho.2]]
      exact ⟨ha',hst,ho.1⟩
    · rw [show op'=.casFin by simp [hop,masterReapCtc,workerReapCtc,hst]]
      exact ⟨ha',hst⟩
  · rw [show op'=.dflt by simp [hop,masterReapCtc,workerReapCtc,ha.stat]]
    exact ⟨ha.same hs rfl rfl rfl,ho⟩

theorem flow_casRun (hx : flowRun x t .casRun) : Flow (engStep x t r .casRun) := by
  obtain ⟨ha,ho,hnr⟩ := hx
  by_cases hst : x.e.stat=.commit
  · have hcan := ha.uncancelled (by rw [hst]; simp)
    simp only [onward,hnr,if_false] at ho
    have hpost : x.e.toid=none → hasPost x.e=true → x.e.toid=x.e.fromid := fun hn hp => by
      obtain hto | hto := (ha.post hp).2.2
      · rw [hto,ha.fromid]
      · exact (hto.2 hn).elim
    have hto : (∃ w,t=none ∧ x.e.toid=some w) ∨ t=x.e.toid ∧ (hasPost x.e=true → t=x.e.fromid) := by
      obtain rfl | ho := ho
      · cases hto : x.e.toid with
        | none => rw [hto] at hpost; exact .inr ⟨rfl,hpost rfl⟩
        | some w => exact .inl ⟨w,rfl,rfl⟩
      · exact .inr ho
    obtain ⟨w,rfl,hto⟩ | ⟨hto,hp⟩ := hto
    · have ho : runEng none r x.e .casRun={ele := {x.e with stat := .running}, push := workerPushAccept w} := by
        simp only [runEng,dpctcCesStat,hst,if_true,hto]
      have hs : Same x.h (histEng x.h none r .casRun {ele := {x.e with stat := .running}, push := workerPushAccept w}) :=
        same_eng (by simp) (by simp) (by simp) (by simp) (by simp) (by simp)
      simp only [engStep,ho]
      exact .inl ⟨ha.restat hs rfl (.inl ⟨.inr rfl,hs.cancelled.trans hcan⟩),hto,
        fun hne => (hne rfl).elim⟩
    · have ho : runEng t r x.e .casRun={ele := {x.e with stat := .running}, next := some .ascOver} := by
        simp only [runEng,dpctcCesStat,hst,if_true,←hto]
      have hs : Same x.h (histEng x.h t r .casRun {ele := {x.e with stat := .running}, next := some .ascOver}) :=
        same_eng (by simp) (by simp) (by simp) (by simp) (by simp) (by simp)
      simp only [engStep,ho]
      exact .inl ⟨ha.restat hs rfl (.inl ⟨.inr rfl,hs.cancelled.trans hcan⟩),rfl,hto,
        fun h => (hp h).trans (ha.fromid.trans hs.owner.symm)⟩
  · have hcan : x.e.stat=.cancel := by
      obtain ⟨hc | hc,-⟩ | ⟨hc,-⟩ := ha.stat
      · exact (hst hc).elim
      · exact (hnr hc).elim
      · exact hc
    simp only [engStep,runEng,dpctcCesStat,hst,if_false]
    exact ⟨ha.same (same_eng (by simp) (by simp) (by simp) (by simp) (by simp) (by simp)) rfl,hcan⟩

theorem flow_casFin (hx : flowRun x t .casFin) : Flow (engStep x t r .casFin) := by
  obtain ⟨ha,hst⟩ := hx
  obtain ⟨hc | hc,-⟩ | ⟨-,hcan,hpost⟩ := ha.stat
  · rw [hst] at hc; cases hc
  · rw [hst] at hc; cases hc
  · simp only [engStep,runEng,dpctcCesStat,hst,if_true]
    have hs : Same x.h (histEng x.h t r .casFin {ele := {x.e with stat := .finish}, next := some .cancelDel}) :=
      same_eng (by simp) (by simp) (by simp) (by simp) (by simp) (by simp)
    have hout : Outcome x.h := .cancelled x.e.toid hcan ha.posted (ha.plain hpost)
    exact ⟨ha.fromid.trans hs.owner.symm,rfl,hpost,hs.done.trans ha.done,hout.same hs⟩

theorem flow_cancelDel (hx : flowRun x t .cancelDel) : Flow (engStep x t r .cancelDel) := by
  have ha : Answer x := hx
  refine flow_dpctcDel (o := {ele := x.e, push := some (finishCtcF t x.e)}) (by rw [ha.stat]; simp) ha.done ha.outcome
    (by simp) (by simp) (by simp) (fun _ => .inr ⟨?_,homeward_finish⟩)
  exact ha.same (same_eng (by simp) (by simp) (by simp) (by simp) (by simp) (by simp)) rfl rfl rfl

theorem flow_runTest (hx : flowRun x t .runTest) : Flow (engStep x t r .runTest) := by
  obtain ⟨ha,hst,hto⟩ := hx
  cases hp : hasPost x.e with
  | true =>
    simp only [engStep,runEng,hp,if_true]
    exact ⟨ha.same (same_eng (by simp) (by simp) (by simp) (by simp) (by simp) (by simp)) rfl,hst,hto,hp⟩
  | false =>
    simp only [engStep,runEng,hp]
    refine .inl ⟨ha.same (same_eng (by simp) (by simp) (by simp) (by simp) (by simp) (by simp)) rfl,hst,hto,fun h => ?_⟩
    rw [hp] at h; cases h

theorem flow_runPost (hx : flowRun x t .runPost) : Flow (engStep x t r .runPost) := by
  obtain ⟨ha,hst,hto,hp⟩ := hx
  obtain ⟨hasked,hroute,-⟩ := ha.post hp
  have hcan := ha.uncancelled (by rw [hst]; simp)
  refine ⟨ha.fromid,?_,ha.done,hcan,t,r,?_,hasked,?_⟩
  · simp [engStep,runEng,hst]
  · simp [engStep,histEng,runEng,ha.posted,Hist.free,Hist.touch]
  · rw [hto]; exact hroute

theorem flow_runClear (hx : flowRun x t .runClear) : Flow (engStep x t r .runClear) := by
  have hp : Posted x := hx
  exact ⟨hp.same (same_eng (by simp) (by simp) (by simp) (by simp [runEng]) (by simp [runEng]) (by simp [runEng]))
    rfl rfl,rfl⟩

theorem Posted.outcome (hp : Posted x) : Outcome x.h := by
  obtain ⟨v,w,h1,h2,h3⟩ := hp.posted
  exact .posted v w hp.cancelled h1 h2 h3

theorem flow_runFin (hx : flowRun x t .runFin) : Flow (engStep x t r .runFin) := by
  obtain ⟨hp,hasc⟩ := hx
  have hs : Same x.h (engStep x t r .runFin).h :=
    same_eng (by simp) (by simp) (by simp) (by simp [runEng]) (by simp [runEng]) (by simp [runEng])
  refine ⟨hp.fromid.trans hs.owner.symm,rfl,?_,hs.done.trans hp.done,hp.outcome.same hs⟩
  simp [hasPost,engStep,runEng,hasc]

theorem flow_runPush (hx : flowRun x t .runPush) : Flow (engStep x t r .runPush) := by
  have ha : Answer x := hx
  exact .inr ⟨ha.same (same_eng (by simp) (by simp) (by simp) (by simp [runEng]) (by simp [runEng]) (by simp [runEng]))
    rfl rfl rfl,homeward_finish⟩

theorem flow_dflt (hx : flowRun x t .dflt) : Flow (engStep x t r .dflt) := by
  obtain ⟨ha,hh⟩ := hx
  by_cases hw : ∃ w,t=none ∧ x.e.fromid=some w
  · obtain ⟨w,rfl,hw⟩ := hw
    have ho : runEng none r x.e .dflt={ele := x.e, push := some (workerPushAccept w)} := by simp only [runEng,hw]
    simp only [engStep,ho]
    exact .inr ⟨ha.same (same_eng (by simp) (by simp) (by simp) (by simp) (by simp) (by simp)) rfl rfl rfl,hw⟩
  · have ho : runEng t r x.e .dflt=dpctcDel x.e {ele := x.e, next := some .ascOver} := by
      cases t with
      | some t => rfl
      | none =>
        cases hf : x.e.fromid with
        | none => simp only [runEng,hf]
        | some w => exact (hw ⟨w,rfl,hf⟩).elim
    have hto : t=x.h.owner := by
      rw [←ha.fromid]
      obtain h | rfl := hh
      · exact h
      · cases hf : x.e.fromid with
        | none => rfl
        | some w => exact (hw ⟨w,rfl,hf⟩).elim
    simp only [engStep,ho]
    have hs : Same x.h (histEng x.h t r .dflt {ele := x.e, next := some .ascOver}) :=
      same_eng (by simp) (by simp) (by simp) (by simp) (by simp) (by simp)
    exact flow_dpctcDel (o := {ele := x.e, next := some .ascOver}) (by rw [ha.stat]; simp) ha.done ha.outcome (by simp)
      (by simp) (by simp) (fun _ => .inr ⟨ha.same hs rfl rfl rfl,hto.trans hs.owner.symm⟩)

theorem flow_ascOver (hx : flowRun x t .ascOver) : Flow (engStep x t r .ascOver) := by
  obtain ⟨ha,hst,hto,hp⟩ | ⟨ha,hto⟩ := hx
  · cases hpost : hasPost x.e with
    | false =>
      have ho : runEng t r x.e .ascOver={ele := x.e, fate := .request} := by
        simp only [runEng,hst,ha.doing,hpost,and_self,if_true]
      have hcan := ha.uncancelled (by rw [hst]; simp)
      simp only [engStep,ho]
      refine ⟨⟨ha.fromid,⟨ha.doing,hpost⟩,hst,ha.done,ha.posted,?_,hcan⟩,x.h.asked,?_⟩
      · have hr := ha.plain hpost
        rw [←hto] at hr
        simpa [histEng,Hist.free,Hist.touch] using hr
      · simp [histEng,Hist.free,Hist.touch]
    | true =>
      have ho : runEng t r x.e .ascOver={ele := x.e, next := some .overClear} := by simp [runEng,hpost]
      simp only [engStep,ho]
      exact .inl ⟨ha.same (same_eng (by simp) (by simp) (by simp) (by simp) (by simp) (by simp)) rfl,hst,hto,hpost,
        hp hpost⟩
  · have ho : runEng t r x.e .ascOver={ele := x.e, next := some .overClear} := by simp [runEng,ha.stat]
    simp only [engStep,ho]
    exact .inr ⟨ha.same (same_eng (by simp) (by simp) (by simp) (by simp) (by simp) (by simp)) rfl rfl rfl,hto⟩

theorem flow_overClear (hx : flowRun x t .overClear) : Flow (engStep x t r .overClear) := by
  have hs (op : EngOp) (hop : op≠.finCommit) :
      Same x.h (histEng x.h t r .overClear {ele := {x.e with asc := none}, next := some op}) :=
    same_eng (by simp) (by simp) (by simp) (by simpa using hop) (by simp) (by simp)
  obtain ⟨ha,hst,hto,hp,ht⟩ | ⟨ha,hto⟩ := hx
  · obtain ⟨hasked,hroute,-⟩ := ha.post hp
    have hcan := ha.uncancelled (by rw [hst]; simp)
    simp only [engStep,runEng,hp,if_true]
    have hs := hs .overPost (by simp)
    refine ⟨⟨ht.trans hs.owner.symm,?_,rfl,hs.done.trans ha.done⟩,hs.cancelled.trans hcan,hs.asked.trans hasked,?_,
      hs.posted.trans ha.posted⟩
    · rw [hst]; simp
    · rw [hto]; exact hs.route.trans hroute
  · simp only [engStep,runEng,ha.post]
    have hs := hs .overDel (by simp)
    refine ⟨⟨hto.trans hs.owner.symm,?_,rfl,hs.done.trans ha.done⟩,ha.outcome.same hs⟩
    rw [ha.stat]; simp

theorem flow_overPost (hx : flowRun x t .overPost) : Flow (engStep x t r .overPost) := by
  obtain ⟨hb,hcan,hasked,hroute,hposted⟩ := hx
  refine ⟨⟨hb.thread,hb.stat,hb.asc,hb.done⟩,.posted t r hcan ?_ hasked hroute⟩
  simp [engStep,histEng,runEng,hposted,Hist.free,Hist.touch]

theorem flow_overDel (hx : flowRun x t .overDel) : Flow (engStep x t r .overDel) := by
  obtain ⟨hb,hout⟩ := hx
  have hout' : Outcome (histEng x.h t r .overDel {ele := x.e, fate := .completed}) :=
    Outcome.congr (h := x.h) rfl (by simp [histEng,Hist.free,Hist.touch]) rfl
      (by simp [histEng,Hist.free,Hist.touch]) (by simp [histEng,Hist.free,Hist.touch]) hout
  refine flow_dpctcDel (o := {ele := x.e, fate := .completed}) hb.stat hb.done hout (by simp) (by simp) (by simp)
    (fun hd => .inl ⟨hb.stat,.inr (.inl ⟨hb.asc,hd,⟨x.e.ret,?_⟩,hout'⟩)⟩)
  simp [histEng,Hist.free,Hist.touch,hb.done,hb.thread]

/-! ### The end of a request -/

theorem flow_finRet {err : Dpret} (hx : flowRun x t (.finRet err)) : Flow (engStep x t r (.finRet err)) := by
  have hw : Working x := hx
  exact ⟨⟨hw.fromid,hw.plain,hw.stat,hw.done,hw.posted,hw.asked,hw.cancelled⟩,by simp [engStep,histEng]⟩

theorem flow_finReto (hx : flowRun x t .finReto) : Flow (engStep x t r .finReto) := by
  obtain ⟨hw,hg⟩ := hx
  cases hr : x.e.isReto with
  | true =>
    simp only [engStep,runEng,hr,if_true]
    refine ⟨hw.fromid,hw.plain,hw.stat,rfl,?_,?_,?_,hw.cancelled⟩
    · simpa [histEng,Hist.free,Hist.touch] using hw.done
    · simpa [histEng,Hist.free,Hist.touch] using hw.posted
    · simp [histEng,Hist.free,Hist.touch,hw.asked]
  | false =>
    have ho : runEng t r x.e .finReto={ele := x.e, next := some .finStat} := by simp [runEng,hr]
    simp only [engStep,ho]
    have hs : Same x.h (histEng x.h t r .finReto {ele := x.e, next := some .finStat}) :=
      same_eng (by simp) (by simp) (by simp) (by simp) (by simp) (by simp)
    exact ⟨hw.same hs rfl rfl rfl,hg⟩

theorem flow_finCommit (hx : flowRun x t .finCommit) : Flow (engStep x t r .finCommit) := by
  obtain ⟨hf,hp,hst,hr,hd,hposted,hasked,hcan⟩ := hx
  have hs : Same x.h (engStep x t r .finCommit).h :=
    same_eng (by simp) (by simp) (by simp) (by simp [runEng]) (by simp [runEng]) (by simp [runEng])
  refine ⟨⟨hf.trans hs.owner.symm,hp.1,hr,hs.done.trans hd,hs.posted.trans hposted,fun _ => ?_,fun h => ?_,
    .inl ⟨.inl rfl,hs.cancelled.trans hcan⟩⟩,by simp [engStep,runEng],hp.2⟩
  · rw [hs.asked,hs.route]; exact hasked
  · have hn : hasPost x.e=true := h
    rw [hp.2] at hn; cases hn

theorem flow_finPush (hx : flowRun x t .finPush) : Flow (engStep x t r .finPush) := by
  obtain ⟨ha,hst,hp⟩ := hx
  have hs : Same x.h (engStep x t r .finPush).h :=
    same_eng (by simp) (by simp) (by simp) (by simp [runEng]) (by simp [runEng]) (by simp [runEng])
  exact .inl ⟨ha.same hs rfl,onward_commit (e := x.e) hst (by rw [hp]; simp)⟩

theorem flow_finStat (hx : flowRun x t .finStat) : Flow (engStep x t r .finStat) := by
  obtain ⟨hw,hg⟩ := hx
  have hs : Same x.h (engStep x t r .finStat).h :=
    same_eng (by simp) (by simp) (by simp) (by simp [runEng]) (by simp [runEng]) (by simp [runEng])
  have hout : Outcome x.h := .given hw.cancelled hw.posted hg hw.asked
  exact ⟨hw.fromid.trans hs.owner.symm,rfl,hw.plain.2,hs.done.trans hw.done,hout.same hs⟩

theorem flow_finDetach (hx : flowRun x t .finDetach) : Flow (engStep x t r .finDetach) := by
  have ha : Answer x := hx
  have hs (o : Out ι EngOp) (h1 : o.next=none) (h2 : o.fate≠.request) (h3 : o.fate≠.completed) :
      Same x.h (histEng x.h t r .finDetach o) :=
    same_eng (by simp) (by simp) (by simp) (by simp [h1]) h2 h3
  cases hd : x.e.isDetach with
  | false =>
    simp only [engStep,runEng,hd]
    exact .inr ⟨ha.same (hs _ rfl (by simp) (by simp)) rfl rfl rfl,homeward_finish⟩
  | true =>
    have hgo (fate : Fate) (hf : fate=.freed ∨ fate=.dropped) :
        Flow {x with e := x.e, h := histEng x.h t r .finDetach {ele := x.e, fate := fate}, eng := none} := by
      have hs := hs {ele := x.e, fate := fate} rfl (by obtain rfl | rfl := hf <;> simp)
        (by obtain rfl | rfl := hf <;> simp)
      have hl : LetGo {x with e := x.e, h := histEng x.h t r .finDetach {ele := x.e, fate := fate}, eng := none} :=
        ⟨.inr hd,hs.done.trans ha.done,ha.outcome.same hs⟩
      obtain rfl | rfl := hf <;> exact .inl ⟨by simp [ha.stat],.inr (.inr hl)⟩
    simp only [engStep,runEng,hd,if_true]
    split
    · exact hgo .freed (.inl rfl)
    · exact hgo .dropped (.inr rfl)

theorem flow_eng {op : EngOp} (hx : flowRun x t op) : Flow (engStep x t r op) := by
  cases op with
  | reap => exact flow_reap hx
  | casRun => exact flow_casRun hx
  | casFin => exact flow_casFin hx
  | cancelDel => exact flow_cancelDel hx
  | runTest => exact flow_runTest hx
  | runPost => exact flow_runPost hx
  | runClear => exact flow_runClear hx
  | runFin => exact flow_runFin hx
  | runPush => exact flow_runPush hx
  | dflt => exact flow_dflt hx
  | ascOver => exact flow_ascOver hx
  | overClear => exact flow_overClear hx
  | overPost => exact flow_overPost hx
  | overDel => exact flow_overDel hx
  | finRet err => exact flow_finRet hx
  | finReto => exact flow_finReto hx
  | finCommit => exact flow_finCommit hx
  | finPush => exact flow_finPush hx
  | finStat => exact flow_finStat hx
  | finDetach => exact flow_finDetach hx

end Engines

/-! ### The owner -/

theorem onward_same {e : Ele ι} {v : Dpret} {n : ℕ} {loc : Loc ι} (h : onward e loc) :
    onward {e with ret := v, refc := n} loc := by
  cases loc <;> exact h

theorem homeward_same {e : Ele ι} {v : Dpret} {n : ℕ} {loc : Loc ι} (h : homeward e loc) :
    homeward {e with ret := v, refc := n} loc := by
  cases loc <;> exact h

theorem flowRun_frame {x y : Life ι} {v : Dpret} {n : ℕ} {t : Thread ι} {op : EngOp} (hx : flowRun x t op)
    (he : y.e={x.e with ret := v, refc := n}) (hs : Same x.h y.h) : flowRun y t op := by
  have hans (h : Answer x) : Answer y := h.same hs (by rw [he]) (by rw [he]) (by rw [he])
  have hask (h : Asking x) : Asking y := h.same hs he
  have hwork (h : Working x) : Working y := h.same hs (by rw [he]) (by rw [he]) (by rw [he])
  have hposted (h : Posted x) : Posted y := h.same hs (by rw [he]) (by rw [he])
  have hback {t : Thread ι} (h : Back x t) : Back y t := h.same hs (by rw [he]) (by rw [he])
  have hon {loc : Loc ι} (h : onward x.e loc) : onward y.e loc := by rw [he]; exact onward_same h
  have hhome {loc : Loc ι} (h : homeward x.e loc) : homeward y.e loc := by rw [he]; exact homeward_same h
  have hf : y.e.fromid=x.e.fromid := by rw [he]
  have hst : y.e.stat=x.e.stat := by rw [he]
  have hto : y.e.toid=x.e.toid := by rw [he]
  have hre : y.e.isReto=x.e.isReto := by rw [he]
  have hasc : y.e.asc=x.e.asc := by rw [he]
  have hpost : hasPost y.e=hasPost x.e := by rw [he]; rfl
  have hplain (h : plain x.e) : plain y.e := by rw [he]; exact h
  cases op <;>
    simp only [flowRun,hf,hst,hto,hre,hpost,hasc,hs.owner,hs.asked,hs.posted,hs.route,hs.cancelled,hs.given,hs.done]
      at hx ⊢
  case reap => exact hx.imp (fun h => ⟨hask h.1,hon h.2⟩) (fun h => ⟨hans h.1,hhome h.2⟩)
  case casRun => exact ⟨hask hx.1,hon hx.2.1,hx.2.2⟩
  case dflt => exact ⟨hans hx.1,hhome hx.2⟩
  case casFin | runTest | runPost | finPush => exact ⟨hask hx.1,hx.2⟩
  case cancelDel | runPush | finDetach => exact hans hx
  case runClear => exact hposted hx
  case runFin => exact ⟨hposted hx.1,hx.2⟩
  case ascOver | overClear => exact hx.imp (fun h => ⟨hask h.1,h.2⟩) (fun h => ⟨hans h.1,h.2⟩)
  case overPost => exact ⟨hback hx.1,hx.2⟩
  case overDel => exact ⟨hback hx.1,hx.2.same hs⟩
  case finRet => exact hwork hx
  case finReto | finStat => exact ⟨hwork hx.1,hx.2⟩
  case finCommit => exact ⟨hx.1,hplain hx.2.1,hx.2.2⟩

/-- The owner's thread writes `ret` and the reference count wherever the CTC is. -/
theorem flow_frame {x y : Life ι} {v : Dpret} {n : ℕ} (hx : Flow x) (he : y.e={x.e with ret := v, refc := n})
    (hn : x.e.refc=0 → n=0) (hs : Same x.h y.h) (hp : y.h.place=x.h.place) (heng : y.eng=x.eng)
    (hapi : x.api≠some .addCommit) : Flow y := by
  cases hpl : x.h.place with
  | idle =>
    obtain ⟨hc,hi⟩ | ⟨-,-,ha⟩ := (flow_idle hpl).mp hx
    · refine (flow_idle (hp.trans hpl)).mpr (.inl ⟨by rw [he]; exact hc,?_⟩)
      obtain h | h | h := hi
      · exact .inl ⟨hs.route.trans h.route,hs.asked.trans h.asked,hs.posted.trans h.posted,
          hs.cancelled.trans h.cancelled,hs.done.trans h.done⟩
      · refine .inr (.inl ⟨by rw [he]; exact h.asc,by rw [he]; exact h.isDetach,?_,h.outcome.same hs⟩)
        rw [hs.done,hs.owner]; exact h.done
      · refine .inr (.inr ⟨?_,hs.done.trans h.done,h.outcome.same hs⟩)
        rw [he]; exact h.unwanted.imp hn id
    · exact (hapi ha).elim
  | queued loc =>
    rw [flow_queued (hp.trans hpl),he]
    exact ((flow_queued hpl).mp hx).imp (fun h => ⟨h.1.same hs he,onward_same h.2⟩)
      (fun h => ⟨h.1.same hs (by rw [he]) (by rw [he]) (by rw [he]),homeward_same h.2⟩)
  | held t =>
    obtain ⟨hw,hl⟩ := (flow_held hpl).mp hx
    rw [flow_held (hp.trans hpl),hs.asked]
    exact ⟨hw.same hs (by rw [he]) (by rw [he]) (by rw [he]),hl⟩
  | run t =>
    obtain ⟨op,hop,hrun⟩ := (flow_run hpl).mp hx
    exact (flow_run (hp.trans hpl)).mpr ⟨op,heng.trans hop,flowRun_frame hrun he hs⟩

/-- The owner's thread makes its next access. -/
def apiStep (x : Life ι) (op : ApiOp) : Life ι :=
  let o := runApi x.h.owner x.e op
  {x with e := o.ele, h := histApi x.h op o, api := o.next}

/-- What the submission is about does not change, except by a cancel that takes effect. -/
theorem same_api {h : Hist ι} {op : ApiOp} {o : Out ι ApiOp} (hc : cancels op o=none) : Same h (histApi h op o) := by
  constructor <;> simp only [histApi,hc] <;> rfl

/-- A cancel that takes effect finds the request where no engine has taken it up. -/
theorem flow_cut {x : Life ι} {ret : Dpret} (hx : Flow x) (hapi : x.api=some (.endCas ret)) (hst : x.e.stat=.commit)
    (hok : cutsPost x=false) : Flow (apiStep x (.endCas ret)) := by
  have hpost : hasPost x.e=false := by simpa [cutsPost,hapi,hst] using hok
  have ho : runApi x.h.owner x.e (.endCas ret)={ele := {x.e with stat := .cancel}, next := some (.endRet ret)} := by
    simp only [runApi,dpctcCesStat,hst,if_true]
  simp only [apiStep,ho]
  set y : Life ι := {x with
    e := {x.e with stat := .cancel}, api := some (.endRet ret)
    h := histApi x.h (.endCas ret) {ele := {x.e with stat := .cancel}, next := some (.endRet ret)}} with hy
  have hask (ha : Asking x) : Asking y :=
    Asking.restat (x := x) (y := y) (c := .cancel) ⟨rfl,rfl,rfl,rfl,rfl,rfl,rfl⟩ rfl ha
      (.inr ⟨rfl,by simp [hy,histApi,cancels],hpost⟩)
  have hon {loc : Loc ι} (h : onward x.e loc) : onward y.e loc := by
    cases loc with
    | enter t =>
      have ho := (onward_enter (e := x.e) (t := t) (by rw [hst]; simp)).mp h
      exact (onward_enter (by simp [hy])).mpr ho
    | commit w => simp [onward,hy]
    | accept w => exact ⟨h.1,fun _ => hpost⟩
    | ready t => exact h
  have hne {st : Stat} (h : x.e.stat=st) (hne : st≠.commit) : False := hne (h.symm.trans hst)
  have hpl : y.h.place=x.h.place := rfl
  have heng : y.eng=x.eng := rfl
  cases hp : x.h.place with
  | idle =>
    obtain ⟨hc,-⟩ | ⟨-,-,hadd⟩ := (flow_idle hp).mp hx
    · exact (hc hst).elim
    · rw [hapi] at hadd; cases hadd
  | queued loc =>
    obtain ⟨ha,ho⟩ | ⟨ha,-⟩ := (flow_queued hp).mp hx
    · exact (flow_queued (hpl.trans hp)).mpr (.inl ⟨hask ha,hon ho⟩)
    · exact (hne ha.stat (by simp)).elim
  | held t => exact (hne ((flow_held hp).mp hx).1.stat (by simp)).elim
  | run t =>
    obtain ⟨op,hop,hx⟩ := (flow_run hp).mp hx
    refine (flow_run (hpl.trans hp)).mpr ⟨op,heng.trans hop,?_⟩
    cases op <;> simp only [flowRun] at hx ⊢
    case reap =>
      obtain ⟨ha,ho⟩ | ⟨ha,-⟩ := hx
      · exact .inl ⟨hask ha,hon ho⟩
      · exact (hne ha.stat (by simp)).elim
    case casRun => exact ⟨hask hx.1,hon hx.2.1,by simp [hy]⟩
    case finPush => exact ⟨hask hx.1,by simp [hy],hx.2.2⟩
    case casFin => exact (hne hx.2 (by simp)).elim
    case runTest | runPost => exact (hne hx.2.1 (by simp)).elim
    case cancelDel | runPush | finDetach | finRet => exact (hne hx.stat (by simp)).elim
    case dflt | finReto | finStat => exact (hne hx.1.stat (by simp)).elim
    case runClear => exact (hx.stat hst).elim
    case runFin | overPost | overDel => exact (hx.1.stat hst).elim
    case ascOver | overClear =>
      obtain ⟨-,hr,-⟩ | ⟨ha,-⟩ := hx
      · exact (hne hr (by simp)).elim
      · exact (hne ha.stat (by simp)).elim
    case finCommit => exact (hne hx.2.2.1 (by simp)).elim

theorem flow_api {x : Life ι} {op : ApiOp} (hl : Linked x) (hx : Flow x) (hapi : x.api=some op)
    (hcom : op=.addCommit → x.e.stat=.commit) (hok : cutsPost x=false) : Flow (apiStep x op) := by
  have hne (h : op≠.addCommit) : x.api≠some .addCommit := by rw [hapi]; simpa using h
  cases op with
  | addCommit =>
    have hi := hl.addCommit hapi
    have hst := hcom rfl
    obtain ⟨hc,-⟩ | ⟨-,ha,-⟩ := (flow_idle hi).mp hx
    · exact (hc hst).elim
    · have hs : Same x.h (apiStep x .addCommit).h := same_api rfl
      refine .inl ⟨ha.same hs rfl,onward_commit (by simp [apiStep,runApi,hst]) fun hp => ⟨ha.fromid.symm,fun hn => ?_⟩⟩
      obtain ho | ho := (ha.post hp).2.2
      · exact ho.trans hn
      · exact (ho.1 hn).elim
  | addIsok =>
    have hno : ¬dpretIsok x.e.ret := by rw [hl.isWait (.inl hapi)]; decide
    simp only [apiStep,runApi,if_neg hno]
    exact flow_frame hx rfl id (same_api rfl) rfl rfl (hne (by simp))
  | addClear => exact (hl.addClear hapi).elim
  | endTest ret =>
    simp only [apiStep,runApi]
    split <;> exact flow_frame hx rfl id (same_api rfl) rfl rfl (hne (by simp))
  | endCas ret =>
    by_cases hst : x.e.stat=.commit
    · exact flow_cut hx hapi hst hok
    · simp only [apiStep,runApi,dpctcCesStat,hst,if_false]
      exact flow_frame hx rfl id (same_api rfl) rfl rfl (hne (by simp))
  | delUnref =>
    refine flow_frame (n := x.e.refc-1) hx rfl (fun h => by rw [h]) (same_api rfl) rfl rfl (hne (by simp))
  | _ => exact flow_frame hx rfl id (same_api rfl) rfl rfl (hne (by simp))

/-! ### Every step -/

theorem flow_step {x y : Life ι} {l : Lbl ι} (hl : Linked x) (hx : Flow x) (hcom : x.api=some .addCommit → x.e.stat=.commit)
    (hok : straight x l) (h : x.step l=some y) : Flow y := by
  cases l with
  | new t =>
    simp only [Life.step] at h
    split at h <;> cases h
    exact .inl ⟨by simp,.inl ⟨rfl,rfl,rfl,rfl,rfl⟩⟩
  | ref =>
    simp only [Life.step] at h
    split at h <;> cases h
    rename_i hc
    have hapi := hc.2.1.1 rfl
    exact flow_frame (n := x.e.refc+1) hx rfl (fun h => (hc.2.2 h).elim) ⟨rfl,rfl,rfl,rfl,rfl,rfl,rfl⟩ rfl rfl
      (by rw [hapi]; simp)
  | add asc toid detach =>
    simp only [Life.step] at h
    split at h
    · rename_i hc
      have hapi := hc.2.1.1 rfl
      have hframe (v : Dpret) : Flow {x with e := {x.e with ret := v}, h := x.h.touch} :=
        flow_frame (y := {x with e := {x.e with ret := v}, h := x.h.touch}) hx rfl id ⟨rfl,rfl,rfl,rfl,rfl,rfl,rfl⟩ rfl rfl
          (by rw [hapi]; simp)
      split at h
      · cases h
        exact hframe x.e.ret
      · rename_i hd
        have hi : x.h.place=.idle := hok.1 (by simpa using hd)
        split at h <;> cases h
        · have ha : Asking {x with
              e := submitEle x.e x.h.owner asc toid detach, h := x.h.touch.submit toid, api := some .addCommit} :=
            ⟨rfl,rfl,rfl,rfl,rfl,fun _ => rfl,fun hp => ⟨rfl,rfl,hok.2 hp⟩,.inl ⟨.inl rfl,rfl⟩⟩
          exact (flow_idle (by exact hi)).mpr (.inr ⟨rfl,ha,rfl⟩)
        · exact hframe _
    · cases h
  | cancel ret =>
    simp only [Life.step] at h
    split at h <;> cases h
    rename_i hc
    exact flow_frame hx rfl id ⟨rfl,rfl,rfl,rfl,rfl,rfl,rfl⟩ rfl rfl (by rw [hc.2.1 rfl]; simp)
  | del =>
    simp only [Life.step] at h
    split at h <;> cases h
    rename_i hc
    exact flow_frame hx rfl id ⟨rfl,rfl,rfl,rfl,rfl,rfl,rfl⟩ rfl rfl (by rw [hc.2.1.1 rfl]; simp)
  | endCtc err =>
    simp only [Life.step] at h
    split at h
    · rename_i t hp
      obtain ⟨hw,-⟩ := (flow_held hp).mp hx
      split at h
      · split at h <;> cases h
        · have hs : Same x.h {x.h.touch with place := .run t} := ⟨rfl,rfl,rfl,rfl,rfl,rfl,rfl⟩
          exact hw.same (y := {x with h := _, eng := some (.finRet err)}) hs rfl rfl rfl
        · rename_i hd
          exact (hd hw.plain.1).elim
      · cases h
    · cases h
  | reto toid =>
    simp only [Life.step] at h
    split at h
    · rename_i t hp
      obtain ⟨hw,hl'⟩ := (flow_held hp).mp hx
      split at h
      · split at h <;> cases h
        · refine (flow_held (by exact hp)).mpr ⟨?_,hl'⟩
          have hs : Same x.h x.h.touch := ⟨rfl,rfl,rfl,rfl,rfl,rfl,rfl⟩
          exact hw.same (y := {x with e := {x.e with toid := toid, isReto := true}, h := _}) hs rfl rfl rfl
        · rename_i hr
          exact (hr hw.stat).elim
      · cases h
    · cases h
  | pop =>
    simp only [Life.step] at h
    split at h
    · rename_i t hp
      split at h <;> cases h
      have hs : Same x.h {x.h with place := .run t} := ⟨rfl,rfl,rfl,rfl,rfl,rfl,rfl⟩
      exact ((flow_queued hp).mp hx).imp (fun h => ⟨h.1.same (y := {x with h := _, eng := some .reap}) hs rfl,h.2⟩)
        (fun h => ⟨h.1.same (y := {x with h := _, eng := some .reap}) hs rfl rfl rfl,h.2⟩)
    · cases h
  | popReady =>
    simp only [Life.step] at h
    split at h
    · rename_i t hp
      obtain ⟨-,ho⟩ | ⟨-,ho⟩ := (flow_queued hp).mp hx <;> exact ho.elim
    · cases h
  | deliver =>
    have hs (loc : Loc ι) : Same x.h {x.h with place := .queued loc} := ⟨rfl,rfl,rfl,rfl,rfl,rfl,rfl⟩
    simp only [Life.step] at h
    split at h
    · rename_i w hp
      cases h
      refine ((flow_queued hp).mp hx).imp (fun h => ⟨h.1.same (hs _) rfl,?_⟩)
        (fun h => ⟨h.1.same (hs _) rfl rfl rfl,.inr rfl⟩)
      exact (if_neg h.2).mpr (.inl rfl)
    · rename_i w hp
      cases h
      refine ((flow_queued hp).mp hx).imp (fun h => ⟨h.1.same (hs _) rfl,?_⟩)
        (fun h => ⟨h.1.same (hs _) rfl rfl rfl,.inl h.2.symm⟩)
      obtain ⟨hto,hpost⟩ := h.2
      simp only [onward]
      split
      · exact ⟨hto.symm,by simp⟩
      · rename_i hst
        exact .inr ⟨hto.symm,fun hp => by rw [hpost hst] at hp; cases hp⟩
    · cases h
  | api =>
    simp only [Life.step] at h
    split at h <;> cases h
    rename_i op hapi
    exact flow_api hl hx hapi (fun hop => hcom (by rw [hapi,hop])) hok
  | eng r =>
    simp only [Life.step] at h
    split at h <;> cases h
    rename_i t op hp heng
    obtain ⟨op',hop,hx⟩ := (flow_run hp).mp hx
    rw [heng] at hop
    cases hop
    exact flow_eng hx

/-! ### The result on the way -/

/-- dpevp_addv is not about to write or test `ret`. -/
def ceased (x : Life ι) : Prop := x.api.all (fun op => !settling op)=true

structure Steady (x : Life ι) : Prop where
  commit : x.api=some .addCommit → x.e.stat=.commit
  solo : x.h.place=.run x.h.owner → x.api=none
  endRet : ∀ ret,x.api=some (.endRet ret) → x.h.cancelled=some ret ∧ x.h.posted=[]
  cancelled : ∀ ret,x.h.cancelled=some ret → x.h.place≠.idle →
    ceased x ∧ (x.e.ret=ret ∨ x.api=some (.endRet ret))
  posted : ∀ p∈x.h.posted,x.h.place≠.idle → ceased x ∧ x.e.ret=p.2
  result : ∀ p∈x.h.done,(∀ ret,x.h.cancelled=some ret → p.2=ret) ∧ ∀ q∈x.h.posted,p.2=q.2

/-- Only the submission that no engine has taken up has status COMMIT. -/
theorem flow_commit {x : Life ι} (hx : Flow x) (hst : x.e.stat=.commit) : Asking x := by
  have hne {st : Stat} (h : x.e.stat=st) (hne : st≠.commit) : Asking x := (hne (h.symm.trans hst)).elim
  cases hp : x.h.place with
  | idle =>
    obtain ⟨hc,-⟩ | ⟨-,ha,-⟩ := (flow_idle hp).mp hx
    · exact (hc hst).elim
    · exact ha
  | queued loc =>
    obtain ⟨ha,-⟩ | ⟨ha,-⟩ := (flow_queued hp).mp hx
    · exact ha
    · exact hne ha.stat (by simp)
  | held t => exact hne ((flow_held hp).mp hx).1.stat (by simp)
  | run t =>
    obtain ⟨op,-,hx⟩ := (flow_run hp).mp hx
    cases op <;> simp only [flowRun] at hx
    case reap | ascOver | overClear =>
      obtain ⟨ha,-⟩ | ⟨ha,-⟩ := hx
      · exact ha
      · exact hne ha.stat (by simp)
    case casRun | casFin | runTest | runPost | finPush => exact hx.1
    case cancelDel | runPush | finDetach | finRet => exact hne hx.stat (by simp)
    case dflt | finReto | finStat => exact hne hx.1.stat (by simp)
    case runClear => exact (hx.stat hst).elim
    case runFin | overPost | overDel => exact (hx.1.stat hst).elim
    case finCommit => exact hne hx.2.2.1 (by simp)

/-- A result is written only where no cancel has taken effect and no post function has run. -/
theorem flow_writes {x : Life ι} {t : Thread ι} {r : Dpret} (hx : Flow x) (hp : x.h.place=.run t)
    (hw : writes x r≠none) : x.h.cancelled=none ∧ x.h.posted=[] := by
  obtain ⟨op,hop,hx⟩ := (flow_run hp).mp hx
  simp only [writes,hop] at hw
  cases op with
  | finRet err => exact ⟨hx.cancelled,hx.posted⟩
  | runPost => exact ⟨hx.1.uncancelled (by rw [hx.2.1]; simp),hx.1.posted⟩
  | overPost => exact ⟨hx.2.1,hx.2.2.2.2⟩
  | _ => exact (hw rfl).elim

/-- The owner's thread goes on without a cancel that takes effect. -/
theorem steady_keep {x y : Life ι} (hx : Steady x) (hs : Same x.h y.h) (hp : y.h.place=x.h.place) (hapi : x.api≠none)
    (hcom : y.api≠some .addCommit) (hend : ∀ ret,y.api≠some (.endRet ret))
    (hc : ∀ ret,x.h.cancelled=some ret → x.h.place≠.idle → ceased y ∧ y.e.ret=ret)
    (hq : ∀ p∈x.h.posted,x.h.place≠.idle → ceased y ∧ y.e.ret=p.2) : Steady y := by
  refine ⟨fun h => (hcom h).elim,fun h => ?_,fun ret h => (hend ret h).elim,fun ret h hne => ?_,fun p h hne => ?_,
    fun p h => ?_⟩
  · rw [hp,hs.owner] at h
    exact (hapi (hx.solo h)).elim
  · rw [hs.cancelled] at h
    rw [hp] at hne
    exact ⟨(hc ret h hne).1,.inl (hc ret h hne).2⟩
  · rw [hs.posted] at h
    rw [hp] at hne
    exact hq p h hne
  · rw [hs.done] at h
    rw [hs.cancelled,hs.posted]
    exact hx.result p h

theorem steady_api {x : Life ι} {op : ApiOp} (hl : Linked x) (hf : Flow x) (hx : Steady x) (hapi : x.api=some op) :
    Steady (apiStep x op) := by
  have hsome : x.api≠none := by rw [hapi]; simp
  have hset (hs : settling op=true) : ¬ceased x := by simp [ceased,hapi,hs]
  -- what an access that is no cancel keeps
  have hkeep (hcan : cancels op (runApi x.h.owner x.e op)=none) (hpush : (runApi x.h.owner x.e op).push=none)
      (hop : ∀ ret,op≠.endRet ret) (h1 : (runApi x.h.owner x.e op).next≠some .addCommit)
      (h2 : ∀ ret,(runApi x.h.owner x.e op).next≠some (.endRet ret))
      (hret : settling op=true ∨ (runApi x.h.owner x.e op).ele.ret=x.e.ret ∧
        (runApi x.h.owner x.e op).next.all (fun op => !settling op)=true) : Steady (apiStep x op) := by
    refine steady_keep hx (same_api hcan) (by simp [apiStep,histApi_place,hpush]) hsome h1 h2 (fun ret hc hne => ?_)
      (fun p hq hne => ?_)
    · obtain ⟨hce,hr | hr⟩ := hx.cancelled ret hc hne
      · obtain h | h := hret
        · exact (hset h hce).elim
        · exact ⟨h.2,h.1.trans hr⟩
      · rw [hapi] at hr; exact (hop ret (Option.some.inj hr)).elim
    · obtain ⟨hce,hr⟩ := hx.posted p hq hne
      obtain h | h := hret
      · exact (hset h hce).elim
      · exact ⟨h.2,h.1.trans hr⟩
  cases op with
  | addCommit =>
    have ha := flow_commit hf (hx.commit hapi)
    have hcan := ha.uncancelled (by rw [hx.commit hapi]; simp)
    have hs : Same x.h (apiStep x .addCommit).h := same_api rfl
    refine ⟨fun h => ?_,fun h => ?_,fun ret h => ?_,fun ret h => ?_,fun p h => ?_,fun p h => ?_⟩
    · cases h
    · cases h
    · cases h
    · rw [hs.cancelled,hcan] at h; cases h
    · rw [hs.posted,ha.posted] at h; cases h
    · rw [hs.done,ha.done] at h; cases h
  | addRet | addInprog => exact hkeep rfl rfl (by simp) (by simp [runApi]) (by simp [runApi]) (.inl rfl)
  | addIsok =>
    have hno : ¬dpretIsok x.e.ret := by rw [hl.isWait (.inl hapi)]; decide
    exact hkeep rfl (by simp [runApi,hno]) (by simp) (by simp [runApi,hno]) (by simp [runApi,hno]) (.inl rfl)
  | addIsWait =>
    exact hkeep rfl rfl (by simp) (by simp only [runApi]; split <;> simp) (by simp only [runApi]; split <;> simp)
      (.inl rfl)
  | addClear => exact (hl.addClear hapi).elim
  | endTest ret =>
    refine hkeep ?_ ?_ (by simp) ?_ ?_ (.inr ?_) <;> simp only [runApi] <;> split <;> simp [cancels,settling]
  | endCas ret =>
    by_cases hst : x.e.stat=.commit
    · have ha := flow_commit hf hst
      have hcan : (apiStep x (.endCas ret)).h.cancelled=some ret := by
        simp [apiStep,runApi,dpctcCesStat,hst,histApi,cancels]
      have hpo : (apiStep x (.endCas ret)).h.posted=[] := ha.posted
      have hdo : (apiStep x (.endCas ret)).h.done=[] := ha.done
      have hapi' : (apiStep x (.endCas ret)).api=some (.endRet ret) := by simp [apiStep,runApi,dpctcCesStat,hst]
      refine ⟨fun h => ?_,fun h => ?_,fun ret' h => ?_,fun ret' h _ => ?_,fun p h => ?_,fun p h => ?_⟩
      · rw [hapi'] at h; cases h
      · have hpl : (apiStep x (.endCas ret)).h.place=x.h.place := by
          simp [apiStep,runApi,dpctcCesStat,hst,histApi_place]
        rw [hpl] at h
        exact (hsome (hx.solo h)).elim
      · rw [hapi'] at h; cases h
        exact ⟨hcan,hpo⟩
      · rw [hcan] at h; cases h
        exact ⟨by simp [ceased,hapi',settling],.inr hapi'⟩
      · rw [hpo] at h; cases h
      · rw [hdo] at h; cases h
    · refine hkeep ?_ ?_ (by simp) ?_ ?_ (.inr ?_) <;> simp [runApi,dpctcCesStat,hst,cancels]
  | endRet ret =>
    obtain ⟨hcan,hpo⟩ := hx.endRet ret hapi
    refine steady_keep hx (same_api rfl) rfl hsome (by simp [apiStep,runApi]) (by simp [apiStep,runApi])
      (fun ret' hc _ => ?_) (fun p hq => ?_)
    · rw [hcan] at hc; cases hc
      exact ⟨rfl,rfl⟩
    · rw [hpo] at hq; cases hq
  | delUnref =>
    exact hkeep rfl rfl (by simp) (by simp only [runApi]; split <;> simp) (by simp only [runApi]; split <;> simp)
      (.inr ⟨rfl,by simp only [runApi]; split <;> rfl⟩)
  | delTest =>
    exact hkeep rfl rfl (by simp) (by simp only [runApi]; split <;> simp) (by simp only [runApi]; split <;> simp)
      (.inr ⟨rfl,by simp only [runApi]; split <;> rfl⟩)
  | addDetach | delFree => exact hkeep rfl rfl (by simp) (by simp [runApi]) (by simp [runApi]) (.inr ⟨rfl,rfl⟩)

theorem placeEng_thread {t t' : Thread ι} {o : Out ι EngOp} (h : placeEng t o=.run t') : t=t' := by
  cases hpush : o.push <;> cases hnext : o.next <;> cases hfate : o.fate <;> simp_all [placeEng]

theorem steady_eng {x : Life ι} {t : Thread ι} {r : Dpret} {op : EngOp} (hl : Linked x) (hk : Kept x) (hf : Flow x)
    (hx : Steady x) (hp : x.h.place=.run t) (heng : x.eng=some op) (hok : straight x (.eng r)) :
    Steady (engStep x t r op) := by
  have hp' : x.h.place≠.idle := by rw [hp]; simp
  have hspec := runEng_spec t r x.e op
  have hdone := hk.done (.inl hp')
  -- a result is written once, and not while dpevp_addv is at it
  have hret : writes x r=none → (engStep x t r op).e.ret=x.e.ret := fun hw => runEng_keeps heng hw
  have hpo (p : Thread ι × Dpret) (h : p∈(engStep x t r op).h.posted) :
      p∈x.h.posted ∧ writes x r=none ∨ p.2=r ∧ (engStep x t r op).e.ret=r ∧ writes x r=some r := by
    have hw (h : op=.runPost ∨ op=.overPost) : writes x r=some r := by
      obtain rfl | rfl := h <;> simp only [writes,heng]
    simp only [engStep,histEng] at h
    split at h
    · rename_i hop
      rw [(flow_writes hf hp (by rw [hw hop]; simp)).2] at h
      cases List.mem_singleton.mp h
      obtain rfl | rfl := hop <;> exact .inr ⟨rfl,rfl,hw (by simp)⟩
    · rename_i hop
      by_cases hn : writes x r=none
      · exact .inl ⟨h,hn⟩
      · have hpo := (flow_writes hf hp hn).2
        have h : p∈x.h.posted := h
        rw [hpo] at h; cases h
  have hcut (ret : Dpret) (h : x.h.cancelled=some ret) : writes x r=none := by
    by_contra hw
    have hn := (flow_writes hf hp hw).1
    rw [h] at hn; cases hn
  refine ⟨fun h => (hp' (hl.addCommit h)).elim,fun h => ?_,fun ret h => ?_,fun ret h _ => ?_,fun p h _ => ?_,
    fun p h => ?_⟩
  · have ht : t=x.h.owner := placeEng_thread h
    exact hx.solo (by rw [hp,ht])
  · obtain ⟨hc,hq⟩ := hx.endRet ret h
    refine ⟨hc,List.eq_nil_iff_forall_not_mem.mpr fun p h => ?_⟩
    obtain ⟨h,-⟩ | ⟨-,-,hw⟩ := hpo p h
    · rw [hq] at h; cases h
    · rw [hcut ret hc] at hw; cases hw
  · obtain ⟨hce,hr⟩ := hx.cancelled ret h hp'
    exact ⟨hce,hr.imp (hret (hcut ret h)).trans id⟩
  · obtain ⟨h,hw⟩ | ⟨hv,hr,hw⟩ := hpo p h
    · obtain ⟨hce,hr⟩ := hx.posted p h hp'
      exact ⟨hce,(hret hw).trans hr⟩
    · exact ⟨hok (by rw [hw]; simp),hr.trans hv.symm⟩
  · simp only [engStep,histEng] at h
    split at h
    · rename_i hfate
      rw [hdone] at h
      cases List.mem_singleton.mp h
      obtain ⟨rfl,-⟩ := hspec.completed hfate
      have hw : writes x r=none := by simp only [writes,heng]
      obtain ⟨op',hop,hb⟩ := (flow_run hp).mp hf
      rw [heng] at hop
      cases hop
      have hapi := hx.solo (by rw [hp,hb.1.thread])
      refine ⟨fun ret hc => ?_,fun q hq => ?_⟩
      · obtain ⟨-,hr | hr⟩ := hx.cancelled ret hc hp'
        · exact (hret hw).trans hr
        · rw [hapi] at hr; cases hr
      · obtain ⟨hq,-⟩ | ⟨-,-,hw'⟩ := hpo q hq
        · exact (hret hw).trans (hx.posted q hq hp').2
        · rw [hw] at hw'; cases hw'
    · have h : p∈x.h.done := h
      rw [hdone] at h; cases h

/-- Only who has the CTC changes. -/
theorem steady_place {x y : Life ι} (hl : Linked x) (hx : Steady x) (hp : x.h.place≠.idle) (hs : Same x.h y.h)
    (hr : y.e.ret=x.e.ret) (hapi : y.api=x.api) (hsolo : y.h.place=.run x.h.owner → x.api=none) : Steady y := by
  refine ⟨fun h => ?_,fun h => ?_,fun ret h => ?_,fun ret h _ => ?_,fun p h _ => ?_,fun p h => ?_⟩
  · rw [hapi] at h
    exact (hp (hl.addCommit h)).elim
  · rw [hs.owner] at h
    exact hapi.trans (hsolo h)
  · rw [hapi] at h
    rw [hs.cancelled,hs.posted]; exact hx.endRet ret h
  · rw [hs.cancelled] at h
    rw [hr]; unfold ceased; rw [hapi]; exact hx.cancelled ret h hp
  · rw [hs.posted] at h
    rw [hr]; unfold ceased; rw [hapi]; exact hx.posted p h hp
  · rw [hs.done] at h
    rw [hs.cancelled,hs.posted]; exact hx.result p h

/-- The owner's thread enters dpevp_end or dpele_del, or leaves at once. -/
theorem steady_enter {x y : Life ι} (hx : Steady x) (hnone : x.api=none) (hs : Same x.h y.h)
    (hpl : y.h.place=x.h.place) (hsolo : y.api≠none → x.h.place≠.run x.h.owner)
    (hr : x.h.place≠.idle → y.e.ret=x.e.ret)
    (hapi : y.api=none ∨ y.api=some .delUnref ∨ ∃ ret,y.api=some (.endTest ret)) : Steady y := by
  have hce : ceased y := by obtain h | h | ⟨ret,h⟩ := hapi <;> simp [ceased,h,settling]
  have hcom : y.api≠some .addCommit := by obtain h | h | ⟨ret,h⟩ := hapi <;> simp [h]
  have hend (ret : Dpret) : y.api≠some (.endRet ret) := by obtain h | h | ⟨ret,h⟩ := hapi <;> simp [h]
  refine ⟨fun h => (hcom h).elim,fun h => ?_,fun ret h => (hend ret h).elim,fun ret h hne => ⟨hce,?_⟩,
    fun p h hne => ⟨hce,?_⟩,fun p h => ?_⟩
  · rw [hpl,hs.owner] at h
    by_contra hne
    exact hsolo hne h
  · rw [hs.cancelled] at h
    rw [hpl] at hne
    obtain ⟨-,hret | hret⟩ := hx.cancelled ret h hne
    · exact .inl ((hr hne).trans hret)
    · rw [hnone] at hret; cases hret
  · rw [hs.posted] at h
    rw [hpl] at hne
    exact (hr hne).trans (hx.posted p h hne).2
  · rw [hs.done] at h
    rw [hs.cancelled,hs.posted]; exact hx.result p h

theorem steady_step {x y : Life ι} {l : Lbl ι} (hl : Linked x) (hk : Kept x) (hf : Flow x) (hx : Steady x)
    (hok : straight x l) (h : x.step l=some y) : Steady y := by
  have htouch (h : Hist ι) : Same h h.touch := ⟨rfl,rfl,rfl,rfl,rfl,rfl,rfl⟩
  have hplace (h : Hist ι) (p : Place ι) : Same h {h with place := p} := ⟨rfl,rfl,rfl,rfl,rfl,rfl,rfl⟩
  cases l with
  | new t =>
    simp only [Life.step] at h
    split at h <;> cases h
    rename_i hb
    obtain ⟨hapi,-⟩ := hl.unborn (by simpa using hb)
    constructor <;> simp [hapi]
  | ref =>
    simp only [Life.step] at h
    split at h <;> cases h
    rename_i hc
    have hapi := hc.2.1.1 rfl
    exact steady_enter hx hapi (htouch _) rfl (fun h => (h hapi).elim) (fun _ => rfl) (.inl hapi)
  | add asc toid detach =>
    simp only [Life.step] at h
    split at h
    · rename_i hc
      have hapi := hc.2.1.1 rfl
      split at h
      · cases h
        exact steady_enter hx hapi (htouch _) rfl (fun h => (h hapi).elim) (fun _ => rfl) (.inl hapi)
      · rename_i hd
        have hi : x.h.place=.idle := hok.1 (by simpa using hd)
        split at h <;> cases h
        · constructor <;> simp [Hist.touch,Hist.submit,submitEle,hi]
        · exact steady_enter hx hapi (htouch _) rfl (fun h => (h hapi).elim) (fun hne => (hne hi).elim) (.inl hapi)
    · cases h
  | cancel ret =>
    simp only [Life.step] at h
    split at h <;> cases h
    rename_i hc
    exact steady_enter hx (hc.2.1 rfl) ⟨rfl,rfl,rfl,rfl,rfl,rfl,rfl⟩ rfl (fun _ => hc.2.2) (fun _ => rfl)
      (.inr (.inr ⟨ret,rfl⟩))
  | del =>
    simp only [Life.step] at h
    split at h <;> cases h
    rename_i hc
    exact steady_enter hx (hc.2.1.1 rfl) ⟨rfl,rfl,rfl,rfl,rfl,rfl,rfl⟩ rfl (fun _ => hc.2.1.2) (fun _ => rfl)
      (.inr (.inl rfl))
  | endCtc err =>
    simp only [Life.step] at h
    split at h
    · rename_i t hp
      have hne : x.h.place≠.idle := by rw [hp]; simp
      split at h
      · rename_i hfree
        split at h <;> cases h
        · have hs : Same x.h {x.h.touch with place := .run t} := ⟨rfl,rfl,rfl,rfl,rfl,rfl,rfl⟩
          exact steady_place hl hx hne hs rfl rfl (fun h => hfree.1 (Place.run.inj h))
        · exact steady_place hl hx hne (htouch _) rfl rfl (fun h => hx.solo h)
      · cases h
    · cases h
  | reto toid =>
    simp only [Life.step] at h
    split at h
    · rename_i t hp
      have hne : x.h.place≠.idle := by rw [hp]; simp
      split at h
      · split at h <;> cases h <;> exact steady_place hl hx hne (htouch _) rfl rfl (fun h => hx.solo h)
      · cases h
    · cases h
  | pop =>
    simp only [Life.step] at h
    split at h
    · rename_i t hp
      split at h <;> cases h
      rename_i hfree
      exact steady_place hl hx (by rw [hp]; simp) (hplace _ _) rfl rfl (fun h => hfree.1 (Place.run.inj h))
    · cases h
  | popReady =>
    simp only [Life.step] at h
    split at h
    · rename_i t hp
      split at h <;> cases h
      rename_i hfree
      exact steady_place hl hx (by rw [hp]; simp) (hplace _ _) rfl rfl (fun h => hfree.1 (Place.run.inj h))
    · cases h
  | deliver =>
    simp only [Life.step] at h
    split at h
    · rename_i w hp
      cases h
      exact steady_place hl hx (by rw [hp]; simp) (hplace _ _) rfl rfl (by simp)
    · rename_i w hp
      cases h
      exact steady_place hl hx (by rw [hp]; simp) (hplace _ _) rfl rfl (by simp)
    · cases h
  | api =>
    simp only [Life.step] at h
    split at h <;> cases h
    exact steady_api hl hf hx ‹_›
  | eng r =>
    simp only [Life.step] at h
    split at h <;> cases h
    exact steady_eng hl hk hf hx ‹_› ‹_› hok

theorem steady_start : Steady (Life.start : Life ι) := by
  constructor <;> simp [Life.start]

theorem flow_start : Flow (Life.start : Life ι) := .inl ⟨by simp [Life.start],.inl ⟨rfl,rfl,rfl,rfl,rfl⟩⟩

theorem straight_run {s : Sys ι κ} {k : κ} (h : Reach step (okFor straight k) {} s) :
    Placed s k ∧ Linked (life s k) ∧ Kept (life s k) ∧ Flow (life s k) ∧ Steady (life s k) :=
  life_invariant (I := fun x => Linked x ∧ Kept x ∧ Flow x ∧ Steady x) h
    ⟨linked_start,kept_start,flow_start,steady_start⟩
    (fun _ _ _ ⟨hl,hk,hf,hx⟩ hok hy =>
      ⟨linked_step hl (straight_settled hok) hy,kept_step hl hk (straight_settled hok) hy,
        flow_step hl hf hx.commit hok hy,steady_step hl hk hf hx hok hy⟩)
    (fun _ _ hx _ => linked_safe hx.1)

/-! ### What has been handed out -/

/-- The hand-outs of a submission so far, wherever it is. -/
structure Account (x : Life ι) : Prop where
  asked : x.h.asked <+: x.h.route
  posted : ∀ p∈x.h.posted,x.h.posted=[p] ∧ x.h.route=[p.1] ∧ x.h.asked=[]
  cancelled : x.h.cancelled≠none → x.h.posted=[] ∧ ∃ t,x.h.asked++[t]=x.h.route
  done : ∀ p∈x.h.done,x.h.done=[p] ∧ p.1=x.h.owner ∧ x.e.asc=none ∧ x.e.isDetach=false ∧ Outcome x.h

section
variable {x : Life ι}

theorem Asking.account (ha : Asking x) : Account x := by
  refine ⟨?_,fun p h => ?_,fun hc => ⟨ha.posted,x.e.toid,ha.plain ?_⟩,fun p h => ?_⟩
  · cases hp : hasPost x.e with
    | true => rw [(ha.post hp).1]; exact List.nil_prefix
    | false => exact ⟨[x.e.toid],ha.plain hp⟩
  · rw [ha.posted] at h; cases h
  · obtain ⟨-,h⟩ | ⟨-,-,h⟩ := ha.stat
    · exact (hc h).elim
    · exact h
  · rw [ha.done] at h; cases h

theorem Working.account (hw : Working x) : Account x := by
  refine ⟨by rw [hw.asked],fun p h => ?_,fun hc => (hc hw.cancelled).elim,fun p h => ?_⟩
  · rw [hw.posted] at h; cases h
  · rw [hw.done] at h; cases h

theorem Outcome.account (ho : Outcome x.h)
    (hd : x.h.done=[] ∨ (∃ v,x.h.done=[(x.h.owner,v)]) ∧ x.e.asc=none ∧ x.e.isDetach=false) : Account x := by
  have hdone (p : Thread ι × Dpret) (h : p∈x.h.done) :
      x.h.done=[p] ∧ p.1=x.h.owner ∧ x.e.asc=none ∧ x.e.isDetach=false ∧ Outcome x.h := by
    obtain hd | ⟨⟨v,hd⟩,ha,hdet⟩ := hd
    · rw [hd] at h; cases h
    · rw [hd] at h
      cases List.mem_singleton.mp h
      exact ⟨hd,rfl,ha,hdet,ho⟩
  cases ho with
  | given hc hp hg ha =>
    refine ⟨by rw [ha],fun p h => ?_,fun h => (h hc).elim,hdone⟩
    rw [hp] at h; cases h
  | posted t v hc hp ha hr =>
    refine ⟨by rw [ha]; exact List.nil_prefix,fun p h => ?_,fun h => (h hc).elim,hdone⟩
    rw [hp] at h
    cases List.mem_singleton.mp h
    exact ⟨hp,hr,ha⟩
  | cancelled t hc hp ha =>
    refine ⟨⟨[t],ha⟩,fun p h => ?_,fun _ => ⟨hp,t,ha⟩,hdone⟩
    rw [hp] at h; cases h

theorem Unused.account (hu : Unused x) : Account x := by
  refine ⟨by rw [hu.asked,hu.route],fun p h => ?_,fun h => (h hu.cancelled).elim,fun p h => ?_⟩
  · rw [hu.posted] at h; cases h
  · rw [hu.done] at h; cases h

theorem flow_account (hx : Flow x) : Account x := by
  cases hp : x.h.place with
  | idle =>
    obtain ⟨-,hu | hc | hl⟩ | ⟨-,ha,-⟩ := (flow_idle hp).mp hx
    · exact hu.account
    · exact hc.outcome.account (.inr ⟨hc.done,hc.asc,hc.isDetach⟩)
    · exact hl.outcome.account (.inl hl.done)
    · exact ha.account
  | queued loc =>
    obtain ⟨ha,-⟩ | ⟨ha,-⟩ := (flow_queued hp).mp hx
    · exact ha.account
    · exact ha.outcome.account (.inl ha.done)
  | held t => exact ((flow_held hp).mp hx).1.account
  | run t =>
    obtain ⟨op,-,hx⟩ := (flow_run hp).mp hx
    cases op <;> simp only [flowRun] at hx
    case reap | ascOver | overClear =>
      obtain ⟨ha,-⟩ | ⟨ha,-⟩ := hx
      · exact ha.account
      · exact ha.outcome.account (.inl ha.done)
    case casRun | casFin | runTest | runPost | finPush => exact hx.1.account
    case cancelDel | runPush | finDetach => exact hx.outcome.account (.inl hx.done)
    case dflt => exact hx.1.outcome.account (.inl hx.1.done)
    case runClear => exact hx.outcome.account (.inl hx.done)
    case runFin => exact hx.1.outcome.account (.inl hx.1.done)
    case overDel => exact hx.2.account (.inl hx.1.done)
    case overPost =>
      obtain ⟨hb,hc,ha,-,hpo⟩ := hx
      refine ⟨by rw [ha]; exact List.nil_prefix,fun p h => ?_,fun h => (h hc).elim,fun p h => ?_⟩
      · rw [hpo] at h; cases h
      · rw [hb.done] at h; cases h
    case finRet => exact hx.account
    case finReto | finStat => exact hx.1.account
    case finCommit =>
      obtain ⟨-,-,-,-,hd,hpo,ha,hc⟩ := hx
      refine ⟨⟨_,ha⟩,fun p h => ?_,fun h => (h hc).elim,fun p h => ?_⟩
      · rw [hpo] at h; cases h
      · rw [hd] at h; cases h

end

/-- Acts of the engines: no application calls them. -/
def engine : Act ι κ → Bool
  | .pop _ | .popReady _ | .deliver _ | .cont _ _ => true
  | _ => false

/-- As long as something is in a deque or in a function, some engine can go on. -/
theorem engine_goes {s : Sys ι κ} (h : ¬Quiet s) :
    (∃ k t,(s.hist k).place=.held t) ∨ ∃ a,engine a=true ∧ (step s a).isSome=true := by
  by_contra hno
  obtain ⟨hheld,hstep⟩ := not_or.mp hno
  have hpc (t : Thread ι) : s.pc t=none := by
    by_contra hne
    obtain ⟨⟨k,op⟩,hop⟩ := Option.ne_none_iff_exists'.mp hne
    refine hstep ⟨.cont t 0,rfl,?_⟩
    cases op <;> simp [step,hop]
  refine h ⟨fun loc => ?_,hpc,fun k t hh => hheld ⟨k,t,hh⟩⟩
  cases hq : s.queue loc with
  | nil => rfl
  | cons k q =>
    cases loc with
    | enter t => exact (hstep ⟨.pop t,rfl,by simp [step,hpc,hq]⟩).elim
    | ready t => exact (hstep ⟨.popReady t,rfl,by simp [step,hpc,hq]⟩).elim
    | commit w => exact (hstep ⟨.deliver (.commit w),rfl,by simp [step,taker,hq]⟩).elim
    | accept w => exact (hstep ⟨.deliver (.accept w),rfl,by simp [step,taker,hq]⟩).elim

/-- When everything is quiet, what has been submitted has come back or is not wanted any more. -/
theorem flow_quiet {s : Sys ι κ} {k : κ} (hp : Placed s k) (hx : Flow (life s k)) (hq : Quiet s)
    (hr : (s.hist k).route≠[]) :
    Complete (life s k) ∨ LetGo (life s k) := by
  obtain ⟨hi,hapi⟩ := quiet_idle hp hq
  obtain ⟨-,hu | hc⟩ | ⟨-,-,ha⟩ := (flow_idle (x := life s k) hi).mp hx
  · exact (hr hu.route).elim
  · exact hc
  · rw [hapi] at ha; cases ha

/- An uncancelled submission: each thread it is sent to gets it as a request, in that order and once, as
long as it has it still doing; a post function runs instead, once and on the target; the owner gets it
back once, no longer doing, after that and with the target's result, and a detached one not at all. -/
structure Carried (s : Sys ι κ) (k : κ) : Prop where
  asked : (s.hist k).asked <+: (s.hist k).route
  held : ∀ t,(s.hist k).place=.held t → dpeleIsDoing (s.ele k)=true ∧ (s.hist k).asked=(s.hist k).route ∧
    (s.hist k).route.getLast?=some t
  posted : ∀ p∈(s.hist k).posted,(s.hist k).posted=[p] ∧ (s.hist k).route=[p.1] ∧ (s.hist k).asked=[]
  done : ∀ p∈(s.hist k).done,(s.hist k).done=[p] ∧ p.1=(s.hist k).owner ∧ dpeleIsDoing (s.ele k)=false ∧
    (s.ele k).isDetach=false
  result : (s.hist k).cancelled=none → ∀ p∈(s.hist k).done,
    ((s.hist k).asked=(s.hist k).route ∧ (s.hist k).given=some p.2) ∨ ∃ t,(s.hist k).posted=[(t,p.2)]
  quiet : Quiet s → (s.hist k).route≠[] →
    (s.hist k).done≠[] ∨ (s.ele k).refc=0 ∨ (s.ele k).isDetach=true
  goes : ¬Quiet s → (∃ k t,(s.hist k).place=.held t) ∨ ∃ a,engine a=true ∧ (step s a).isSome=true

theorem flow_result {x : Life ι} (hk : Kept x) (hf : Flow x) (hx : Steady x) (hc : x.h.cancelled=none)
    {p : Thread ι × Dpret} (hp : p∈x.h.done) :
    (x.h.asked=x.h.route ∧ x.h.given=some p.2) ∨ ∃ t,x.h.posted=[(t,p.2)] := by
  obtain ⟨-,-,-,-,ho⟩ := (flow_account hf).done p hp
  cases ho with
  | given _ _ hg ha =>
    obtain ⟨g,hg⟩ := Option.ne_none_iff_exists'.mp hg
    exact .inl ⟨ha,by rw [hg,hk.result p hp g hg]⟩
  | posted t v _ hpo _ _ =>
    have hv := (hx.result p hp).2 (t,v) (by rw [hpo]; exact List.mem_singleton.mpr rfl)
    exact .inr ⟨t,by rw [hpo,hv]⟩
  | cancelled t hn _ _ => exact (hn hc).elim

/-- From the master to a worker, which redirects the request back to the master. -/
def redirectedRun : List (Act (Fin 1) Unit) :=
  List.flatten [[.new none (),.add none () dpctcSubmit (some 0) false],conts none 6,
    [.deliver (.accept 0),.pop (some 0)],conts (some 0) 3,[.reto (some 0) () none,.endCtc (some 0) () 5],
    conts (some 0) 4,[.deliver (.commit 0),.pop none],conts none 3,[.endCtc none () 9],conts none 4,[.pop none],
    conts none 5]

theorem cancels_commit {t : Thread ι} {e : Ele ι} {op : ApiOp} (h : cancels op (runApi t e op)≠none) :
    e.stat=.commit := by
  cases op with
  | endCas ret =>
    by_contra hst
    simp [cancels,runApi,dpctcCesStat,hst] at h
  | _ => exact (h rfl).elim

/-- After a cancel has taken effect the submission is neither asked about nor run any more. -/
theorem frozen_step {x y : Life ι} {l : Lbl ι} (hf : Flow x) (h : x.step l=some y) (hc : x.h.cancelled≠none)
    (hn : ∀ t,l≠.new t) (hl : ∀ asc toid detach,l≠.add asc toid detach) :
    y.h.cancelled=x.h.cancelled ∧ y.h.asked=x.h.asked ∧ y.h.posted=x.h.posted ∧ y.h.route=x.h.route := by
  cases l with
  | new t => exact (hn t rfl).elim
  | add asc toid detach => exact (hl asc toid detach rfl).elim
  | ref | cancel | del =>
    simp only [Life.step] at h
    split at h <;> cases h
    exact ⟨rfl,rfl,rfl,rfl⟩
  | endCtc err | reto toid =>
    simp only [Life.step] at h
    split at h
    · split at h
      · split at h <;> cases h <;> exact ⟨rfl,rfl,rfl,rfl⟩
      · cases h
    · cases h
  | pop | popReady =>
    simp only [Life.step] at h
    split at h
    · split at h <;> cases h
      exact ⟨rfl,rfl,rfl,rfl⟩
    · cases h
  | deliver =>
    simp only [Life.step] at h
    split at h <;> cases h <;> exact ⟨rfl,rfl,rfl,rfl⟩
  | api =>
    simp only [Life.step] at h
    split at h <;> cases h
    rename_i op hapi
    have hn : cancels op (runApi x.h.owner x.e op)=none := by
      by_contra hne
      have hst := cancels_commit hne
      exact hc ((flow_commit hf hst).uncancelled (by rw [hst]; simp))
    have hs := same_api (h := x.h) hn
    exact ⟨hs.cancelled,hs.asked,hs.posted,hs.route⟩
  | eng r =>
    simp only [Life.step] at h
    split at h <;> cases h
    rename_i t op hp heng
    obtain ⟨op',hop,hx⟩ := (flow_run hp).mp hf
    rw [heng] at hop
    cases hop
    refine ⟨rfl,?_,?_,?_⟩
    · refine if_neg fun hreq => hc ?_
      obtain ⟨rfl,-,-,hst⟩ := runEng_request hreq
      obtain ⟨ha,-⟩ | ⟨ha,-⟩ := hx
      · exact ha.uncancelled (by rw [hst]; simp)
      · rw [ha.stat] at hst; cases hst
    · refine if_neg fun hop => hc (flow_writes (r := r) hf hp ?_).1
      obtain rfl | rfl := hop <;> simp [writes,heng]
    · refine if_neg fun hop => hc ?_
      obtain ⟨rfl,-⟩ := hop
      exact hx.1.cancelled

/-- A new element or a new submission. -/
def renews (k : κ) : Act ι κ → Prop
  | .new _ k' | .add _ k' _ _ _ => k'=k
  | _ => False

instance (k : κ) : (a : Act ι κ) → Decidable (renews k a)
  | .new _ _ | .add _ _ _ _ _ => inferInstanceAs (Decidable (_=_))
  | .ref _ _ | .cancel _ _ _ | .del _ _ | .endCtc _ _ _ | .reto _ _ _ | .pop _ | .popReady _ | .deliver _ | .cont _ _ =>
      .isFalse id

theorem lbl_renews {s : Sys ι κ} {k : κ} {a : Act ι κ} {l : Lbl ι} (hl : lbl s k a=some l)
    (h : (∃ t,l=.new t) ∨ ∃ asc toid detach,l=.add asc toid detach) : renews k a := by
  obtain ⟨t,rfl⟩ | ⟨asc,toid,detach,rfl⟩ := h <;> cases a <;> simp only [lbl] at hl <;> (repeat' split at hl) <;>
    simp_all [renews]

/- A cancel takes effect when no engine has taken the request up: the target is not asked and no post
function runs, then or later, and the owner gets the CTC back once and with the code. Any other
dpevp_end changes nothing, and the owner gets the target's result. -/
structure Cut (s : Sys ι κ) (k : κ) : Prop where
  effect : ∀ ret r u,s.pc (s.hist k).owner=some (k,.inl (.endCas ret)) → step s (.cont (s.hist k).owner r)=some u →
    if (s.ele k).stat=.commit then (u.hist k).cancelled=some ret ∧ (u.hist k).done=[] else
      u.ele=s.ele ∧ u.queue=s.queue ∧ u.pc (s.hist k).owner=none ∧ (u.hist k).cancelled=(s.hist k).cancelled
  unasked : (s.hist k).cancelled≠none → (s.hist k).posted=[] ∧ ∃ t,(s.hist k).asked++[t]=(s.hist k).route
  frozen : (s.hist k).cancelled≠none → ∀ a u,step s a=some u → ¬renews k a →
    (u.hist k).cancelled=(s.hist k).cancelled ∧ (u.hist k).asked=(s.hist k).asked ∧
    (u.hist k).posted=(s.hist k).posted ∧ (u.hist k).route=(s.hist k).route
  done : ∀ ret,(s.hist k).cancelled=some ret → (s.hist k).done=[] ∨ (s.hist k).done=[((s.hist k).owner,ret)]
  quiet : ∀ ret,(s.hist k).cancelled=some ret → Quiet s →
    (s.hist k).done=[((s.hist k).owner,ret)] ∨ (s.ele k).refc=0 ∨ (s.ele k).isDetach=true
  refused : (s.hist k).cancelled=none → ∀ p∈(s.hist k).done,p.1=(s.hist k).owner ∧
    ((s.hist k).given=some p.2 ∨ ∃ t,(s.hist k).posted=[(t,p.2)])

/-- From the master to a worker. -/
def submitted : List (Act (Fin 1) Unit) :=
  List.flatten [[.new none (),.add none () dpctcSubmit (some 0) false],conts none 6]

/-- The owner cancels the CTC before the worker takes it up. -/
def cancelledEarly : List (Act (Fin 1) Unit) :=
  List.flatten [submitted,[.cancel none () dpeIntr],conts none 3,[.deliver (.accept 0),.pop (some 0)],conts (some 0) 3,
    [.deliver (.commit 0),.pop none],conts none 5]

/-- What follows on a cancel that comes while the worker has the request. -/
def endedAfter : List (Act (Fin 1) Unit) :=
  List.flatten [conts none 2,[.endCtc (some 0) () 7],conts (some 0) 4,[.deliver (.commit 0),.pop none],conts none 5]

end Dpapp.CtcFlow
