import Dpapp.CtcEngine

/-! # Who frees a CTC -/

set_option linter.unusedSectionVars false

namespace Dpapp.CtcMemory
open Dpapp.Machine Dpapp.Ret Dpapp.CtcLife Dpapp.CtcEngine
open Dpapp.CtcChannel (Thread)

variable {ι κ : Type*} [DecidableEq ι] [DecidableEq κ]

/-- The engine is about to free the CTC or let it go, unless it has to hand it on. -/
def leaves (x : Life ι) : Bool :=
  match x.h.place,x.eng with
  | .run _,some .cancelDel | .run _,some .overDel => true
  | .run t,some .dflt => t.isSome || x.e.fromid.isNone
  | .run _,some .finDetach => x.e.isDetach
  | _,_ => false

/-- The value an engine is about to write to `ret`. -/
def writes (x : Life ι) (r : Dpret) : Option Dpret :=
  match x.eng with
  | some (.finRet err) => some err
  | some .runPost | some .overPost => some r
  | _ => none

/- A new submission finds the CTC with no engine; dpevp_end is not called on a freed CTC; dpele_del
finds asc_type NULL only when no engine has the CTC; an engine lets a detached CTC go only after its
owner's dpele_del, and does not free it while the owner is in dpele_del or dpevp_end; and no result
that is no error is written between dpevp_addv's write of `ret` and its dpret_isok. -/
def ordered (x : Life ι) : Lbl ι → Prop
  | .add asc _ _ => dpeleIsDoing x.e=false → asc.prep x.e.stat=dpeContinue → x.h.place=.idle
  | .cancel _ => x.h.frees=0
  | .api => x.api=some .delTest → dpeleIsDoing x.e=false → x.h.place=.idle
  | .eng r => (leaves x=true → (x.e.isDetach=true → x.e.refc=0) ∧ (x.e.refc=0 → x.api=none)) ∧
      (x.api=some .addIsok → ∀ v∈writes x r,dpretIserr v)
  | _ => True

instance (x : Life ι) : (l : Lbl ι) → Decidable (ordered x l)
  | .add _ _ _ => inferInstanceAs (Decidable (_ → _ → _))
  | .cancel _ => inferInstanceAs (Decidable (_=_))
  | .api => inferInstanceAs (Decidable (_ → _ → _))
  | .eng _ => inferInstanceAs (Decidable (_ ∧ _))
  | .new _ | .ref | .del | .endCtc _ | .reto _ | .pop | .popReady | .deliver => .isTrue trivial

/-- The functions of the owner that need its reference. -/
def usesRef : ApiOp → Prop
  | .addCommit | .addRet | .addIsok | .addIsWait | .addInprog | .addDetach | .addClear | .delUnref => True
  | _ => False

structure Alive (x : Life ι) : Prop where
  unborn : x.h.born=false → x.api=none ∧ x.h.place=.idle
  run : x.eng≠none ↔ ∃ t,x.h.place=.run t
  ref : ∀ op,x.api=some op → usesRef op → x.e.refc≠0
  delTest : x.api=some .delTest → x.e.refc=0
  delFree : x.api=some .delFree → x.e.refc=0 ∧ x.h.place=.idle
  addCommit : x.api=some .addCommit → x.h.place=.idle
  addIsok : x.api=some .addIsok → dpretIserr x.e.ret
  idle : x.h.place=.idle → x.api=some .addCommit ∨
    (x.e.asc=none ∧ (x.e.refc=0 → x.api=some .delTest ∨ x.api=some .delFree))
  cleared : x.eng=some .overPost ∨ x.eng=some .overDel → x.e.asc=none
  detach : x.e.isDetach=true → x.h.route≠[] → x.h.place≠.idle ∨ x.api=some .addCommit

structure Gone (x : Life ι) : Prop where
  born : x.h.born=true
  frees : x.h.frees=1
  place : x.h.place=.idle
  api : x.api=none
  eng : x.eng=none
  refc : x.e.refc=0

structure Sound (x : Life ι) : Prop where
  uaf : x.h.uaf=false
  frees : x.h.frees=0 ∧ Alive x ∨ Gone x

theorem alive_still {x : Life ι} (ha : Alive x) (h : ∀ t,x.h.place≠.run t) : x.eng=none := by
  by_contra hne
  obtain ⟨t,ht⟩ := ha.run.mp hne
  exact h t ht

theorem sound_start : Sound (Life.start : Life ι) := by
  refine ⟨rfl,.inl ⟨rfl,?_⟩⟩
  constructor <;> simp [Life.start]

theorem touch_sound {x : Life ι} (h : x.h.frees=0) (hu : x.h.uaf=false) :
    x.h.touch=x.h := by
  have : x.h={x.h with uaf := false} := by rw [←hu]
  rw [this]
  simp [Hist.touch,h]

theorem sound_new {x y : Life ι} {t : Thread ι} (hx : Sound x) (h : x.step (.new t)=some y) : Sound y := by
  simp only [Life.step] at h
  split at h <;> cases h
  rename_i hb
  obtain ⟨-,ha⟩ | hg := hx.frees
  · obtain ⟨hapi,hplace⟩ := ha.unborn (by simpa using hb)
    have heng := alive_still ha (fun t => by rw [hplace]; simp)
    refine ⟨rfl,.inl ⟨rfl,?_⟩⟩
    constructor <;> simp [hapi,heng]
  · exact (hb hg.born).elim

theorem sound_ref {x y : Life ι} (hx : Sound x) (h : x.step .ref=some y) : Sound y := by
  simp only [Life.step] at h
  split at h <;> cases h
  rename_i hc
  obtain ⟨hf,ha⟩ | hg := hx.frees
  · rw [touch_sound hf hx.uaf]
    have hapi := hc.2.1.1 rfl
    refine ⟨hx.uaf,.inl ⟨hf,⟨ha.unborn,ha.run,?_,?_,?_,?_,?_,?_,ha.cleared,ha.detach⟩⟩⟩ <;> simp [hapi]
    intro hi
    obtain h | h := ha.idle hi
    · simp [hapi] at h
    · exact h.1
  · exact (hc.2.2 hg.refc).elim

theorem sound_add {x y : Life ι} {asc : Asc} {toid : Thread ι} {detach : Bool} (hx : Sound x)
    (hok : ordered x (.add asc toid detach)) (h : x.step (.add asc toid detach)=some y) : Sound y := by
  simp only [Life.step] at h
  split at h
  · rename_i hc
    obtain ⟨hf,ha⟩ | hg := hx.frees
    · rw [touch_sound hf hx.uaf] at h
      have hapi := hc.2.1.1 rfl
      split at h
      · cases h; exact ⟨hx.uaf,.inl ⟨hf,ha⟩⟩
      · rename_i hd
        have hd' : dpeleIsDoing x.e=false := by simpa using hd
        split at h <;> cases h
        · rename_i hp
          have hi := hok hd' hp
          have heng := alive_still ha (fun t => by rw [hi]; simp)
          refine ⟨hx.uaf,.inl ⟨hf,?_⟩⟩
          constructor <;> simp [Hist.submit,submitEle,hi,heng,hc.1,hc.2.2,usesRef]
        · have hasc : x.e.asc=none := by simpa [dpeleIsDoing] using hd'
          refine ⟨hx.uaf,.inl ⟨hf,⟨ha.unborn,ha.run,?_,?_,?_,?_,?_,?_,?_,ha.detach⟩⟩⟩ <;> simp [hapi,hasc,hc.2.2]
    · exact (hc.2.2 hg.refc).elim
  · cases h

theorem sound_enter {x : Life ι} {op : ApiOp} (hx : Sound x) (hf : x.h.frees=0) (hb : x.h.born=true)
    (hapi : x.api=none) (href : usesRef op → x.e.refc≠0)
    (hop : op≠.delTest ∧ op≠.delFree ∧ op≠.addCommit ∧ op≠.addIsok) :
    Sound {x with api := some op} := by
  obtain ⟨-,ha⟩ | hg := hx.frees
  · obtain ⟨h1,h2,h3,h4⟩ := hop
    refine ⟨hx.uaf,.inl ⟨hf,?_,ha.run,?_,?_,?_,?_,?_,?_,ha.cleared,?_⟩⟩
    · simp [hb]
    · intro op' ho; cases ho; exact href
    · simp [h1]
    · simp [h2]
    · simp [h3]
    · simp [h4]
    · intro hi
      obtain h | h := ha.idle hi
      · simp [hapi] at h
      · refine .inr ⟨h.1,fun hr => ?_⟩
        obtain h | h := h.2 hr <;> simp [hapi] at h
    · intro hd hr
      obtain h | h := ha.detach hd hr
      · exact .inl h
      · simp [hapi] at h
  · rw [hg.frees] at hf; cases hf

theorem sound_cancel {x y : Life ι} {ret : Dpret} (hx : Sound x) (hok : ordered x (.cancel ret))
    (h : x.step (.cancel ret)=some y) : Sound y := by
  simp only [Life.step] at h
  split at h <;> cases h
  rename_i hc
  exact sound_enter hx hok hc.1 (hc.2.1 rfl) (fun h => h.elim) (by simp)

theorem sound_del {x y : Life ι} (hx : Sound x) (h : x.step .del=some y) : Sound y := by
  simp only [Life.step] at h
  split at h <;> cases h
  rename_i hc
  obtain ⟨hf,-⟩ | hg := hx.frees
  · exact sound_enter hx hf hc.1 (hc.2.1.1 rfl) (fun _ => hc.2.2) (by simp)
  · exact (hc.2.2 hg.refc).elim

/-- The accesses of the owner's thread that neither queue, unref nor free the CTC. -/
def quiet : ApiOp → Prop
  | .addCommit | .delUnref | .delTest | .delFree => False
  | _ => True

theorem runApi_quiet (t : Thread ι) (e : Ele ι) {op : ApiOp} (hop : quiet op) (hok : op=.addIsok → dpretIserr e.ret) :
    (runApi t e op).push=none ∧ (runApi t e op).fate=.kept ∧ (runApi t e op).ele.refc=e.refc ∧
    (runApi t e op).ele.isDetach=e.isDetach ∧ (e.asc=none → (runApi t e op).ele.asc=none) ∧
    ∀ op',(runApi t e op).next=some op' → (usesRef op' → usesRef op) ∧ op'≠.addCommit ∧ op'≠.delTest ∧
      op'≠.delFree ∧ (op'=.addIsok → dpretIserr (runApi t e op).ele.ret) := by
  cases op with
  | addRet =>
    refine ⟨rfl,rfl,rfl,rfl,id,fun op' h => ?_⟩
    cases h
    exact ⟨fun _ => trivial,by simp,by simp,by simp,fun _ => show dpeWait<0 by decide⟩
  | addIsok =>
    have hno : ¬dpretIsok e.ret := (dpretIserr_iff _).mp (hok rfl)
    simp only [runApi,if_neg hno]
    refine ⟨trivial,trivial,trivial,trivial,id,fun op' h => ?_⟩
    cases h
    exact ⟨fun _ => trivial,by simp⟩
  | addIsWait =>
    refine ⟨rfl,rfl,rfl,rfl,id,fun op' h => ?_⟩
    simp only [runApi] at h
    split at h <;> cases h <;> exact ⟨fun _ => trivial,by simp⟩
  | addInprog =>
    refine ⟨rfl,rfl,rfl,rfl,id,fun op' h => ?_⟩
    cases h
    exact ⟨fun _ => trivial,by simp⟩
  | addDetach | endRet => exact ⟨rfl,rfl,rfl,rfl,id,fun op' h => by cases h⟩
  | addClear => exact ⟨rfl,rfl,rfl,rfl,fun _ => rfl,fun op' h => by cases h⟩
  | endTest ret =>
    simp only [runApi]
    split
    · refine ⟨rfl,rfl,rfl,rfl,id,fun op' h => ?_⟩
      cases h
      exact ⟨fun h => h.elim,by simp⟩
    · exact ⟨rfl,rfl,rfl,rfl,id,fun op' h => by cases h⟩
  | endCas ret =>
    simp only [runApi,dpctcCesStat]
    by_cases hs : e.stat=.commit
    · simp only [hs,if_true]
      refine ⟨trivial,trivial,trivial,trivial,id,fun op' h => ?_⟩
      cases h
      exact ⟨fun h => h.elim,by simp⟩
    · simp only [hs,if_false]
      exact ⟨trivial,trivial,trivial,trivial,id,fun op' h => by cases h⟩
  | _ => exact hop.elim

theorem histApi_quiet {h : Hist ι} (op : ApiOp) {o : Out ι ApiOp} (ht : h.touch=h) (hp : o.push=none)
    (hf : o.fate=.kept) : (histApi h op o).uaf=h.uaf ∧ (histApi h op o).frees=h.frees ∧
    (histApi h op o).born=h.born ∧ (histApi h op o).place=h.place ∧ (histApi h op o).route=h.route := by
  unfold histApi
  rw [hp,ht]
  cases op <;> cases o.next <;> simp [Hist.free,hf]

/-- The owner's thread goes on to `next`, and with the element as it was but for its status and result. -/
theorem alive_api {x : Life ι} {op : ApiOp} {e : Ele ι} {h : Hist ι} {next : Option ApiOp} (ha : Alive x)
    (hapi : x.api=some op) (hop : quiet op) (hr : e.refc=x.e.refc) (hd : e.isDetach=x.e.isDetach)
    (hb : h.born=x.h.born) (hp : h.place=x.h.place) (hrt : h.route=x.h.route) (hasc : x.e.asc=none → e.asc=none)
    (hnext : ∀ op',next=some op' → (usesRef op' → usesRef op) ∧ op'≠.addCommit ∧ op'≠.delTest ∧ op'≠.delFree ∧
      (op'=.addIsok → dpretIserr e.ret)) : Alive {x with e := e, h := h, api := next} := by
  have hne {op' : ApiOp} (hq : ¬quiet op') : x.api≠some op' := by
    intro h
    rw [hapi] at h
    exact hq (Option.some.inj h ▸ hop)
  refine ⟨fun hb' => ?_,by simpa only [hp] using ha.run,fun op' ho hu => ?_,fun ho => ?_,fun ho => ?_,fun ho => ?_,
    fun ho => ?_,fun hi => ?_,fun ho => ?_,fun hd' hr' => ?_⟩
  · rw [hb] at hb'
    have := (ha.unborn hb').1
    simp [hapi] at this
  · rw [hr]; exact ha.ref op hapi ((hnext op' ho).1 hu)
  · exact ((hnext _ ho).2.2.1 rfl).elim
  · exact ((hnext _ ho).2.2.2.1 rfl).elim
  · exact ((hnext _ ho).2.1 rfl).elim
  · exact (hnext _ ho).2.2.2.2 rfl
  · rw [hp] at hi
    obtain h | h := ha.idle hi
    · exact (hne id h).elim
    · refine .inr ⟨hasc h.1,fun h0 => ?_⟩
      rw [hr] at h0
      obtain h | h := h.2 h0
      · exact (hne id h).elim
      · exact (hne id h).elim
  · exact hasc (ha.cleared ho)
  · rw [hd] at hd'
    rw [hrt] at hr'
    rw [hp]
    obtain h | h := ha.detach hd' hr'
    · exact .inl h
    · exact (hne id h).elim

theorem sound_api {x y : Life ι} (hx : Sound x) (hok : ordered x .api) (h : x.step .api=some y) : Sound y := by
  simp only [Life.step] at h
  split at h
  · rename_i op hapi
    cases h
    obtain ⟨hf,ha⟩ | hg := hx.frees
    · have ht := touch_sound hf hx.uaf
      have hb : x.h.born=true := by
        by_contra hb
        have := (ha.unborn (by simpa using hb)).1
        simp [hapi] at this
      by_cases hq : quiet op
      · obtain ⟨hp,hfate,hr,hd,hasc,hnext⟩ := runApi_quiet x.h.owner x.e hq (fun h => ha.addIsok (h ▸ hapi))
        obtain ⟨hu,hf',hb',hp',hrt⟩ := histApi_quiet op (o := runApi x.h.owner x.e op) ht hp hfate
        exact ⟨hu.trans hx.uaf,.inl ⟨hf'.trans hf,alive_api ha hapi hq hr hd hb' hp' hrt hasc hnext⟩⟩
      cases op with
      | addCommit =>
        have hi := ha.addCommit hapi
        have hr := ha.ref _ hapi trivial
        have heng := alive_still ha (fun t => by rw [hi]; simp)
        refine ⟨by simp [histApi,runApi,ht,Hist.free,hx.uaf],.inl ⟨by simp [histApi,runApi,ht,Hist.free,hf],?_⟩⟩
        constructor <;> simp [histApi,runApi,ht,Hist.free,heng,hb,usesRef,hr]
      | delUnref =>
        have hr := ha.ref _ hapi trivial
        have hne {op : ApiOp} (h : op≠.delUnref) : x.api≠some op := by simpa [hapi] using h.symm
        refine ⟨by simp [histApi,runApi,ht,Hist.free,hx.uaf],.inl ⟨by simp [histApi,runApi,ht,Hist.free,hf],?_⟩⟩
        have hidle (hi : x.h.place=.idle) : x.e.asc=none := (ha.idle hi).elim (fun h => (hne (by simp) h).elim) (·.1)
        have hdet (hd : x.e.isDetach=true) (hrt : x.h.route≠[]) : x.h.place≠.idle :=
          (ha.detach hd hrt).elim id fun h => (hne (by simp) h).elim
        by_cases h1 : x.e.refc=1
        · constructor <;> simp [histApi,runApi,ht,Hist.free,h1,hb,usesRef]
          · exact ha.run
          · exact hidle
          · exact fun h => ha.cleared h
          · exact hdet
        · have h2 : x.e.refc-1≠0 := by omega
          constructor <;> simp [histApi,runApi,ht,Hist.free,h1,hb]
          · exact ha.run
          · exact fun hi => ⟨hidle hi,h2⟩
          · exact fun h => ha.cleared h
          · exact hdet
      | delTest =>
        have hr := ha.delTest hapi
        have hne {op : ApiOp} (h : op≠.delTest) : x.api≠some op := by simpa [hapi] using h.symm
        have hdet (hd : x.e.isDetach=true) (hrt : x.h.route≠[]) : x.h.place≠.idle :=
          (ha.detach hd hrt).elim id fun h => (hne (by simp) h).elim
        refine ⟨by simp [histApi,runApi,ht,Hist.free,hx.uaf],.inl ⟨by simp [histApi,runApi,ht,Hist.free,hf],?_⟩⟩
        cases hd : dpeleIsDoing x.e with
        | false =>
          have hi := hok hapi hd
          have hasc : x.e.asc=none := by simpa [dpeleIsDoing] using hd
          constructor <;> simp [histApi,runApi,ht,Hist.free,hd,hb,hr,hi,hasc,usesRef]
          · simpa [hi] using ha.run
          · exact fun h1 => by_contra fun h2 => hdet h1 h2 hi
        | true =>
          have hni : x.h.place≠.idle := fun hi => by
            obtain h | h := ha.idle hi
            · exact hne (by simp) h
            · simp [dpeleIsDoing,h.1] at hd
          constructor <;> simp [histApi,runApi,ht,Hist.free,hd,hb,hr,hni]
          · exact ha.run
          · exact fun h => ha.cleared h
      | delFree =>
        obtain ⟨hr,hi⟩ := ha.delFree hapi
        have heng := alive_still ha (fun t => by rw [hi]; simp)
        refine ⟨by simp [histApi,runApi,ht,Hist.free,hx.uaf],.inr ?_⟩
        constructor <;> simp [histApi,runApi,ht,Hist.free,hb,hf,hi,heng,hr]
      | _ => exact (hq trivial).elim
    · rw [hg.api] at hapi; cases hapi
  · cases h

/-- What an engine's access does to the CTC, and when it stops having it. -/
structure EngSpec (t : Thread ι) (e : Ele ι) (op : EngOp) (o : Out ι EngOp) : Prop where
  refc : o.ele.refc=e.refc
  isDetach : o.ele.isDetach=e.isDetach
  asc : e.asc=none → o.ele.asc=none
  cleared : o.next=some .overPost ∨ o.next=some .overDel → o.ele.asc=none ∨ op=.overPost
  next : o.push≠none ∨ o.fate≠.kept → o.next=none
  fate : o.push≠none → o.fate=.kept
  goes : o.push=none → o.next=none → o.fate≠.kept
  freed : o.fate=.freed → e.refc=0
  dropped : o.fate=.dropped → e.isDetach=true ∧ e.refc≠0
  completed : o.fate=.completed → op=.overDel ∧ e.isDetach=false ∧ e.refc≠0 ∧ o.ele.asc=e.asc

theorem dpctcDel_cases {Op : Type*} (e : Ele ι) (o : Out ι Op) :
    (e.refc=0 ∧ dpctcDel e o={ele := e, fate := .freed}) ∨
    (e.refc≠0 ∧ e.isDetach=true ∧ dpctcDel e o={ele := e, fate := .dropped}) ∨
    (e.refc≠0 ∧ e.isDetach=false ∧ dpctcDel e o=o) := by
  unfold dpctcDel
  by_cases hr : e.refc=0
  · exact .inl ⟨hr,if_pos hr⟩
  · cases hd : e.isDetach with
    | true => exact .inr (.inl ⟨hr,rfl,by simp [hr]⟩)
    | false => exact .inr (.inr ⟨hr,rfl,by simp [hr]⟩)

theorem runEng_spec (t : Thread ι) (r : Dpret) (e : Ele ι) (op : EngOp) : EngSpec t e op (runEng t r e op) := by
  cases op with
  | reap =>
    have hn : (if t=none then masterReapCtc e else workerReapCtc e)≠.overPost ∧
        (if t=none then masterReapCtc e else workerReapCtc e)≠.overDel := by
      unfold masterReapCtc workerReapCtc
      split <;> cases e.stat <;> simp
    constructor <;> simp_all [runEng]
  | casRun =>
    simp only [runEng,dpctcCesStat]
    by_cases hs : e.stat=.commit
    · simp only [hs,if_true]
      split <;> constructor <;> simp
    · simp only [hs,if_false]
      constructor <;> simp
  | casFin =>
    simp only [runEng,dpctcCesStat]
    by_cases hs : e.stat=.cancel
    · simp only [hs,if_true]
      constructor <;> simp
    · simp only [hs,if_false]
      split <;> constructor <;> simp
  | cancelDel =>
    simp only [runEng]
    obtain ⟨hr,ho⟩ | ⟨hr,hd,ho⟩ | ⟨hr,hd,ho⟩ := dpctcDel_cases e
      ({ele := e, push := some (finishCtcF t e)} : Out ι EngOp) <;> rw [ho] <;> constructor <;> simp_all
  | dflt =>
    simp only [runEng]
    split
    · constructor <;> simp
    · obtain ⟨hr,ho⟩ | ⟨hr,hd,ho⟩ | ⟨hr,hd,ho⟩ := dpctcDel_cases e
        ({ele := e, next := some .ascOver} : Out ι EngOp) <;> rw [ho] <;> constructor <;> simp_all
  | overDel =>
    simp only [runEng]
    obtain ⟨hr,ho⟩ | ⟨hr,hd,ho⟩ | ⟨hr,hd,ho⟩ := dpctcDel_cases e
      ({ele := e, fate := .completed} : Out ι EngOp) <;> rw [ho] <;> constructor <;> simp_all
  | ascOver => simp only [runEng]; split <;> constructor <;> simp
  | finReto => simp only [runEng]; split <;> constructor <;> simp
  | finDetach => simp only [runEng]; (repeat' split) <;> constructor <;> simp_all
  | runTest => simp only [runEng]; split <;> constructor <;> simp
  | overClear => constructor <;> simp [runEng]
  | _ => constructor <;> simp [runEng]

theorem placeEng_run {t : Thread ι} {e : Ele ι} {op : EngOp} {o : Out ι EngOp} (hs : EngSpec t e op o) :
    o.next≠none ↔ ∃ t',placeEng t o=.run t' := by
  cases hpush : o.push with
  | some loc => simp [hs.next (.inl (by simp [hpush])),placeEng,hpush]
  | none =>
    cases hnext : o.next with
    | some op' => simp [placeEng,hpush,hnext]
    | none => cases hfate : o.fate <;> simp [placeEng,hpush,hnext,hfate]

/-- An engine that frees a CTC, lets it go or hands it out as completed is at such a point. -/
theorem fate_leaves {x : Life ι} {t : Thread ι} {r : Dpret} {op : EngOp} (hp : x.h.place=.run t) (he : x.eng=some op)
    (hf : (runEng t r x.e op).fate=.freed ∨ (runEng t r x.e op).fate=.dropped ∨
      (runEng t r x.e op).fate=.completed) : leaves x=true := by
  simp only [leaves,hp,he]
  cases op with
  | cancelDel | overDel => rfl
  | dflt =>
    cases t with
    | some w => rfl
    | none =>
      cases hfr : x.e.fromid with
      | none => rfl
      | some w => simp [runEng,hfr] at hf
  | finDetach =>
    simp only
    by_contra hd
    simp [runEng,hd] at hf
  | casRun =>
    simp only [runEng,dpctcCesStat] at hf
    by_cases hs : x.e.stat=.commit
    · simp only [hs,if_true] at hf
      split at hf <;> simp at hf
    · simp [hs] at hf
  | casFin =>
    simp only [runEng,dpctcCesStat] at hf
    by_cases hs : x.e.stat=.cancel <;> simp [hs] at hf
  | ascOver => simp only [runEng] at hf; split at hf <;> simp at hf
  | finReto => simp only [runEng] at hf; split at hf <;> simp at hf
  | _ => simp [runEng] at hf

theorem runEng_keeps {x : Life ι} {t : Thread ι} {r : Dpret} {op : EngOp} (he : x.eng=some op)
    (hw : writes x r=none) : (runEng t r x.e op).ele.ret=x.e.ret := by
  simp only [writes,he] at hw
  cases op with
  | finRet | runPost | overPost => cases hw
  | casRun =>
    simp only [runEng,dpctcCesStat]
    by_cases hs : x.e.stat=.commit <;> simp only [hs,if_true,if_false]
    split <;> rfl
  | casFin =>
    simp only [runEng,dpctcCesStat]
    by_cases hs : x.e.stat=.cancel <;> simp only [hs,if_true,if_false]
  | cancelDel | dflt | overDel | ascOver | finReto | finDetach =>
    simp only [runEng,dpctcDel]; (repeat' split) <;> rfl
  | _ => rfl

theorem runEng_ret {x : Life ι} {t : Thread ι} {r : Dpret} {op : EngOp} (he : x.eng=some op)
    (hw : ∀ v∈writes x r,dpretIserr v) (hr : dpretIserr x.e.ret) : dpretIserr (runEng t r x.e op).ele.ret := by
  cases hv : writes x r with
  | none => rwa [runEng_keeps he hv]
  | some v =>
    have hle := hw v hv
    simp only [writes,he] at hv
    cases op <;> cases hv <;> exact hle

theorem sound_frees {x : Life ι} (hx : Sound x) (hp : x.h.place≠.idle) : x.h.frees=0 ∧ Alive x :=
  hx.frees.elim id fun hg => (hp hg.place).elim

theorem alive_born {x : Life ι} (ha : Alive x) (hp : x.h.place≠.idle) : x.h.born=true := by
  by_contra hb
  exact hp (ha.unborn (by simpa using hb)).2

/-- Only the place changes, from one that is not idle to another. -/
theorem sound_place {x : Life ι} {e : Ele ι} {p : Place ι} {o : Option EngOp} (hx : Sound x)
    (hp : x.h.place≠.idle) (hp' : p≠.idle) (hr : e.refc=x.e.refc) (hd : e.ret=x.e.ret)
    (heng : o≠none ↔ ∃ t,p=.run t) (hover : o≠some .overPost ∧ o≠some .overDel) :
    Sound {x with e := e, h := {x.h with place := p}, eng := o} := by
  obtain ⟨hf,ha⟩ := sound_frees hx hp
  have hb := alive_born ha hp
  refine ⟨hx.uaf,.inl ⟨hf,fun h => ?_,heng,fun op ho hu => ?_,fun ho => ?_,fun ho => ?_,fun ho => ?_,fun ho => ?_,
    fun ho => (hp' ho).elim,fun ho => ?_,fun _ _ => .inl hp'⟩⟩
  · rw [hb] at h; cases h
  · rw [hr]; exact ha.ref op ho hu
  · rw [hr]; exact ha.delTest ho
  · exact (hp (ha.delFree ho).2).elim
  · exact (hp (ha.addCommit ho)).elim
  · rw [hd]; exact ha.addIsok ho
  · obtain h | h := ho
    · exact (hover.1 h).elim
    · exact (hover.2 h).elim

theorem sound_endCtc {x y : Life ι} {err : Dpret} (hx : Sound x)
    (h : x.step (.endCtc err)=some y) : Sound y := by
  simp only [Life.step] at h
  split at h
  · rename_i t hp
    have hp' : x.h.place≠.idle := by rw [hp]; simp
    have ht := touch_sound (sound_frees hx hp').1 hx.uaf
    rw [ht] at h
    split at h
    · split at h <;> cases h
      · exact sound_place (e := x.e) (p := .run t) (o := some (.finRet err)) hx hp' (by simp) rfl rfl (by simp)
          (by simp)
      · exact hx
    · cases h
  · cases h

theorem sound_reto {x y : Life ι} {toid : Thread ι} (hx : Sound x)
    (h : x.step (.reto toid)=some y) : Sound y := by
  simp only [Life.step] at h
  split at h
  · rename_i t hp
    have hp' : x.h.place≠.idle := by rw [hp]; simp
    obtain ⟨hf,ha⟩ := sound_frees hx hp'
    rw [touch_sound hf hx.uaf] at h
    have heng := alive_still ha (fun t => by rw [hp]; simp)
    split at h
    · split at h <;> cases h
      · have hs := sound_place (e := {x.e with toid := toid, isReto := true}) (p := x.h.place) (o := x.eng) hx hp'
          hp' rfl rfl ha.run (by simp [heng])
        exact hs
      · exact hx
    · cases h
  · cases h

theorem sound_queue {x y : Life ι} {l : Lbl ι} (hl : l=.pop ∨ l=.popReady ∨ l=.deliver)
    (hx : Sound x) (h : x.step l=some y) : Sound y := by
  have heng (loc : Loc ι) (hp : x.h.place=.queued loc) : x.eng=none :=
    alive_still (sound_frees hx (by rw [hp]; simp)).2 (fun t => by rw [hp]; simp)
  rcases hl with rfl | rfl | rfl
  · simp only [Life.step] at h
    split at h
    · rename_i t hp
      have hp' : x.h.place≠.idle := by rw [hp]; simp
      split at h <;> cases h
      exact sound_place (e := x.e) (p := .run t) (o := some .reap) hx hp' (by simp) rfl rfl (by simp)
        (by simp)
    · cases h
  · simp only [Life.step] at h
    split at h
    · rename_i t hp
      have hp' : x.h.place≠.idle := by rw [hp]; simp
      split at h <;> cases h
      exact sound_place (e := x.e) (p := .run t) (o := some .ascOver) hx hp' (by simp) rfl rfl (by simp)
        (by simp)
    · cases h
  · simp only [Life.step] at h
    split at h
    · rename_i w hp
      have hp' : x.h.place≠.idle := by rw [hp]; simp
      cases h
      exact sound_place (e := x.e) (p := .queued (.enter none)) (o := x.eng) hx hp' (by simp) rfl rfl
        (by simp [heng _ hp]) (by simp [heng _ hp])
    · rename_i w hp
      have hp' : x.h.place≠.idle := by rw [hp]; simp
      cases h
      exact sound_place (e := x.e) (p := .queued (.enter (some w))) (o := x.eng) hx hp' (by simp) rfl rfl
        (by simp [heng _ hp]) (by simp [heng _ hp])
    · cases h

theorem sound_eng {x y : Life ι} {r : Dpret} (hx : Sound x)
    (hok : ordered x (.eng r)) (h : x.step (.eng r)=some y) : Sound y := by
  simp only [Life.step] at h
  split at h
  · rename_i t op hp heng
    cases h
    have hp' : x.h.place≠.idle := by rw [hp]; simp
    obtain ⟨hf,ha⟩ := sound_frees hx hp'
    have hborn := alive_born ha hp'
    have ht := touch_sound hf hx.uaf
    have hs := runEng_spec t r x.e op
    have hret := fun hr => runEng_ret (t := t) heng (fun v hv => hok.2 hr v hv) (ha.addIsok hr)
    have hleave := fun hf => hok.1 (fate_leaves (r := r) hp heng hf)
    set o := runEng t r x.e op with ho
    have hapi : x.api≠some .addCommit ∧ x.api≠some .delFree :=
      ⟨fun h => hp' (ha.addCommit h),fun h => hp' (ha.delFree h).2⟩
    have hcl : o.next=some .overPost ∨ o.next=some .overDel → o.ele.asc=none := fun h => by
      obtain h | rfl := hs.cleared h
      · exact h
      · exact hs.asc (ha.cleared (.inl heng))
    by_cases hfree : o.fate=.freed
    · -- freed: nobody else can have the CTC
      have hr := hs.freed hfree
      have hnone := (hleave (.inl hfree)).2 hr
      have hnp : o.push=none := by
        by_contra hne
        rw [hs.fate hne] at hfree
        cases hfree
      have hnn := hs.next (.inr (by rw [hfree]; simp))
      refine ⟨by simp [histEng,ht,Hist.free,hx.uaf],.inr ?_⟩
      constructor <;> simp [histEng,ht,Hist.free,hborn,hfree,hf,placeEng,hnp,hnn,hnone,hs.refc,hr]
    · refine ⟨by simp [histEng,ht,Hist.free,hx.uaf],.inl ⟨by simp [histEng,ht,Hist.free,hfree,hf],?_⟩⟩
      have hrun := placeEng_run hs
      have hidle : placeEng t o=.idle → o.ele.asc=none ∧ x.e.refc≠0 ∧ x.e.isDetach=false := by
        intro hi
        have hpush : o.push=none := by
          cases hpush : o.push with
          | none => rfl
          | some loc => simp [placeEng,hpush] at hi
        have hnext : o.next=none := by
          cases hnext : o.next with
          | none => rfl
          | some op' => simp [placeEng,hpush,hnext] at hi
        cases hfate : o.fate with
        | kept => exact (hs.goes hpush hnext hfate).elim
        | request => simp [placeEng,hpush,hnext,hfate] at hi
        | freed => exact (hfree hfate).elim
        | dropped =>
          obtain ⟨hd,hr⟩ := hs.dropped hfate
          exact (hr ((hleave (.inr (.inl hfate))).1 hd)).elim
        | completed =>
          obtain ⟨rfl,hd,hr,hasc⟩ := hs.completed hfate
          exact ⟨by rw [hasc]; exact ha.cleared (.inr heng),hr,hd⟩
      refine ⟨fun h => ?_,hrun,fun op' ho' hu => ?_,fun ho' => ?_,fun ho' => (hapi.2 ho').elim,
        fun ho' => (hapi.1 ho').elim,fun ho' => hret ho',fun hi => ?_,hcl,fun hd hrt => ?_⟩
      · simp [histEng,ht,Hist.free,hborn] at h
      · rw [hs.refc]; exact ha.ref op' ho' hu
      · rw [hs.refc]; exact ha.delTest ho'
      · obtain ⟨hasc,hr,-⟩ := hidle hi
        exact .inr ⟨hasc,fun h0 => by rw [hs.refc] at h0; exact (hr h0).elim⟩
      · left
        intro hi
        have := (hidle hi).2.2
        rw [hs.isDetach,this] at hd
        cases hd
  · cases h

theorem sound_step {x y : Life ι} {l : Lbl ι} (hx : Sound x) (hok : ordered x l) (h : x.step l=some y) :
    Sound y := by
  cases l with
  | new => exact sound_new hx h
  | ref => exact sound_ref hx h
  | add => exact sound_add hx hok h
  | cancel => exact sound_cancel hx hok h
  | del => exact sound_del hx h
  | endCtc => exact sound_endCtc hx h
  | reto => exact sound_reto hx h
  | pop => exact sound_queue (.inl rfl) hx h
  | popReady => exact sound_queue (.inr (.inl rfl)) hx h
  | deliver => exact sound_queue (.inr (.inr rfl)) hx h
  | api => exact sound_api hx hok h
  | eng => exact sound_eng hx hok h


/-- Nothing is queued, no thread is inside a function and no request is left to end. -/
def Quiet (s : Sys ι κ) : Prop :=
  (∀ loc,s.queue loc=[]) ∧ (∀ t,s.pc t=none) ∧ ∀ k t,(s.hist k).place≠.held t

/-- The CTC has been deleted by its owner, or submitted detached. -/
def Released (s : Sys ι κ) (k : κ) : Prop :=
  (s.hist k).born=true ∧ ((s.ele k).refc=0 ∨ (s.ele k).isDetach=true ∧ (s.hist k).route≠[])

theorem sound_safe {x : Life ι} {l : Lbl ι} (hx : Sound x) (hok : ordered x l) : ¬Relinks x l := by
  intro hrel
  cases l with
  | api =>
    obtain ⟨op,hapi,hpush,hne⟩ := hrel
    obtain ⟨-,ha⟩ := sound_frees hx hne
    cases op with
    | addCommit => exact hne (ha.addCommit hapi)
    | addIsok =>
      have hno : ¬dpretIsok x.e.ret := (dpretIserr_iff _).mp (ha.addIsok hapi)
      simp [runApi,hno] at hpush
    | endTest => simp only [runApi] at hpush; split at hpush <;> simp at hpush
    | endCas => simp only [runApi] at hpush; split at hpush <;> simp at hpush
    | _ => simp [runApi] at hpush
  | _ => exact hrel

theorem sound_run {s : Sys ι κ} (h : Reach step (fun s a => ∀ k,okFor ordered k s a) {} s) (k : κ) :
    Placed s k ∧ Sound (life s k) :=
  life_invariant (h.mono fun _ _ hok => hok k) sound_start (fun _ _ _ hx hok hy => sound_step hx hok hy)
    fun _ _ hx hok => sound_safe hx hok

theorem commitCtcF_ready (t t' : Thread ι) (e : Ele ι) : commitCtcF t e≠.ready t' := by
  cases t with
  | none => simp only [commitCtcF,masterCommitCtc,workerPushAccept]; split <;> simp
  | some w => simp only [commitCtcF,workerCommitCtc,workerPushCommit]; split <;> simp

theorem finishCtcF_ready (t t' : Thread ι) (e : Ele ι) : finishCtcF t e≠.ready t' := by
  cases t with
  | none => simp only [finishCtcF,masterFinishCtc,workerPushAccept]; split <;> simp
  | some w => simp only [finishCtcF,workerFinishCtc,workerPushCommit]; split <;> simp

theorem runEng_ready (t t' : Thread ι) (r : Dpret) (e : Ele ι) (op : EngOp) : (runEng t r e op).push≠some (.ready t') := by
  have hc := commitCtcF_ready t t' e
  have hf := finishCtcF_ready t t' e
  cases op <;> simp only [runEng,workerPushAccept,dpctcDel] <;> (repeat' split) <;> simp [hc,hf]

theorem runApi_ready (t t' : Thread ι) {e : Ele ι} {op : ApiOp} (h : op=.addIsok → dpretIserr e.ret) :
    (runApi t e op).push≠some (.ready t') := by
  have hc := commitCtcF_ready t t' e
  cases op with
  | addIsok =>
    have hno : ¬dpretIsok e.ret := (dpretIserr_iff _).mp (h rfl)
    simp [runApi,hno]
  | _ =>
    simp only [runApi]
    (repeat' split) <;> simp [hc]

/-- Nothing links a CTC into a ready deque. -/
theorem ready_step {x y : Life ι} {l : Lbl ι} (hx : Sound x) (h : x.step l=some y)
    (hr : ∀ t,x.h.place≠.queued (.ready t)) (t : Thread ι) : y.h.place≠.queued (.ready t) := by
  cases l with
  | api =>
    simp only [Life.step] at h
    split at h <;> cases h
    rename_i op hapi
    have hok : op=.addIsok → dpretIserr x.e.ret := by
      rintro rfl
      obtain ⟨-,ha⟩ | hg := hx.frees
      · exact ha.addIsok hapi
      · rw [hg.api] at hapi
        cases hapi
    have hpush := runApi_ready x.h.owner t hok
    rw [histApi_place]
    split
    · rename_i loc hloc
      intro h
      cases h
      exact hpush hloc
    · exact hr t
  | eng r =>
    simp only [Life.step] at h
    split at h <;> cases h
    rename_i t' op _ _
    have hpush := runEng_ready t' t r x.e op
    simp only [histEng,placeEng]
    split <;> simp_all
  | new t' => simp only [Life.step] at h; split at h <;> cases h; simp
  | ref | cancel ret | del =>
    simp only [Life.step] at h
    split at h <;> cases h
    exact hr t
  | add asc toid detach =>
    simp only [Life.step] at h
    (repeat' split at h) <;> cases h
    all_goals exact hr t
  | endCtc err =>
    simp only [Life.step] at h
    (repeat' split at h) <;> cases h
    · simp
    · exact hr t
  | reto toid =>
    simp only [Life.step] at h
    (repeat' split at h) <;> cases h
    all_goals exact hr t
  | pop | popReady | deliver =>
    simp only [Life.step] at h
    (repeat' split at h) <;> cases h
    all_goals simp

theorem ready_run {s : Sys ι κ} (h : Reach step (fun s a => ∀ k,okFor ordered k s a) {} s) (k : κ) (t : Thread ι) :
    k∉s.queue (.ready t) := by
  have hinv := life_invariant (I := fun x => Sound x ∧ ∀ t,x.h.place≠.queued (.ready t)) (h.mono fun _ _ hok => hok k)
    ⟨sound_start,fun t => by simp [Life.start]⟩
    (fun x l y hx hok hy => ⟨sound_step hx.1 hok hy,ready_step hx.1 hy hx.2⟩) fun x l hx hok => sound_safe hx.1 hok
  have hne : (s.hist k).place≠.queued (.ready t) := hinv.2.2 t
  have hc := hinv.1.count (.ready t)
  rw [if_neg hne] at hc
  exact List.count_eq_zero.mp hc

theorem quiet_idle {s : Sys ι κ} {k : κ} (hp : Placed s k) (hq : Quiet s) :
    (s.hist k).place=.idle ∧ (life s k).api=none := by
  obtain ⟨hqueue,hpc,hheld⟩ := hq
  refine ⟨?_,by simp [life,hpc]⟩
  cases hplace : (s.hist k).place with
  | idle => rfl
  | queued loc =>
    have := hp.count loc
    rw [hqueue,hplace] at this
    simp at this
  | run t =>
    have := (hp.eng t).mpr hplace
    simp [hpc] at this
  | held t => exact (hheld k t hplace).elim

/-- No access after the free and no second free, a freed CTC is in no deque and in no thread's hands,
and when everything is quiet each deleted or detached one has been freed. -/
structure FreedOnce (s : Sys ι κ) (k : κ) : Prop where
  uaf : (s.hist k).uaf=false
  frees : (s.hist k).frees≤1
  gone : (s.hist k).frees=1 → (∀ loc,k∉s.queue loc) ∧ ∀ t op,s.pc t≠some (k,op)
  quiet : Quiet s → Released s k → (s.hist k).frees=1 ∧ ∀ loc,k∉s.queue loc

theorem ctc_memory {s : Sys ι κ} (h : Reach step (fun s a => ∀ k,okFor ordered k s a) {} s) (k : κ) :
    FreedOnce s k := by
  obtain ⟨hp,hx⟩ := sound_run h k
  have hnot (hi : (s.hist k).place=.idle) (loc : Loc ι) : k∉s.queue loc := by
    have := hp.count loc
    rw [hi] at this
    exact List.count_eq_zero.mp (by simpa using this)
  obtain ⟨hf,ha⟩ | hg := hx.frees
  · have hf' : (s.hist k).frees=0 := hf
    refine ⟨hx.uaf,by omega,fun h1 => by omega,fun hq hr => ?_⟩
    obtain ⟨hi,hapi⟩ := quiet_idle hp hq
    obtain ⟨-,hdel⟩ := hr
    obtain hdel | ⟨hd,hrt⟩ := hdel
    · obtain h1 | h1 := ha.idle hi
      · rw [hapi] at h1; cases h1
      · obtain h2 | h2 := h1.2 hdel <;> rw [hapi] at h2 <;> cases h2
    · obtain h1 | h1 := ha.detach hd hrt
      · exact (h1 hi).elim
      · rw [hapi] at h1; cases h1
  · have hi : (s.hist k).place=.idle := hg.place
    have hf : (s.hist k).frees=1 := hg.frees
    refine ⟨hx.uaf,by omega,fun _ => ⟨hnot hi,fun t op hpc => ?_⟩,fun _ _ => ⟨hf,hnot hi⟩⟩
    cases op with
    | inl op =>
      obtain rfl := hp.api t (by simp [hpc])
      have hapi : (life s k).api=none := hg.api
      simp [life,hpc] at hapi
    | inr op =>
      have hrun := (hp.eng t).mp (by simp [hpc])
      rw [hi] at hrun
      cases hrun

/-- A detached CTC whose owner deletes it while the target still works on it. -/
def detachedRun : List (Act (Fin 1) Unit) :=
  List.flatten [[.new none (),.add none () dpctcSubmit (some 0) true],conts none 6,[.del none ()],conts none 2,
    [.deliver (.accept 0),.pop (some 0)],conts (some 0) 3,[.endCtc (some 0) () 0],conts (some 0) 4]

theorem ctc_memory_detached : ∃ s : Sys (Fin 1) Unit,
    Reach step (fun s a => ∀ k,okFor ordered k s a) {} s ∧ (s.hist ()).frees=1 ∧ FreedOnce s () := by
  have hrun : (execOk step (fun s a => ∀ k,okFor ordered k s a) {} detachedRun).any
      (fun s => (s.hist ()).frees=1)=true := by decide +kernel
  obtain ⟨s,hs,hf⟩ := (Option.any_eq_true _ _).mp hrun
  exact ⟨s,execOk_reach hs,of_decide_eq_true hf,ctc_memory (execOk_reach hs) ()⟩

/-- The same CTC, deleted after the target has ended it. -/
def detachedEnd : List (Act (Fin 1) Unit) :=
  List.flatten [[.new none (),.add none () dpctcSubmit (some 0) true],conts none 6,
    [.deliver (.accept 0),.pop (some 0)],conts (some 0) 3,[.endCtc (some 0) () 0],conts (some 0) 4,
    [.del none ()],conts none 2]

def leaked (s : Sys (Fin 1) Unit) : Bool :=
  [none,some 0].all (fun t => (s.pc t).isNone && (s.queue (.enter t)).isEmpty && (s.queue (.ready t)).isEmpty) &&
  (s.queue (.commit 0)).isEmpty && (s.queue (.accept 0)).isEmpty && (s.hist ()).place=.idle &&
  (s.hist ()).born && (s.ele ()).refc=0 && (s.hist ()).frees=0

theorem leaked_quiet {s : Sys (Fin 1) Unit} (h : leaked s=true) :
    Quiet s ∧ Released s () ∧ (s.hist ()).frees=0 := by
  simp only [leaked,List.all_cons,List.all_nil,Bool.and_true,Bool.and_eq_true,Option.isNone_iff_eq_none,
    List.isEmpty_iff,decide_eq_true_eq] at h
  obtain ⟨⟨⟨⟨⟨⟨hall,hcm⟩,hac⟩,hpl⟩,hborn⟩,href⟩,hfr⟩ := h
  obtain ⟨⟨⟨hpm,hem⟩,hrm⟩,⟨hpw,hew⟩,hrw⟩ := hall
  refine ⟨⟨fun loc => ?_,fun t => ?_,fun k t => by rw [hpl]; simp⟩,⟨hborn,.inl href⟩,hfr⟩
  · cases loc with
    | enter t => cases t with
      | none => exact hem
      | some w => rw [Subsingleton.elim w 0]; exact hew
    | ready t => cases t with
      | none => exact hrm
      | some w => rw [Subsingleton.elim w 0]; exact hrw
    | commit w => rw [Subsingleton.elim w 0]; exact hcm
    | accept w => rw [Subsingleton.elim w 0]; exact hac
  · cases t with
    | none => exact hpm
    | some w => rw [Subsingleton.elim w 0]; exact hpw

theorem ctc_memory_leaks : ¬∀ s : Sys (Fin 1) Unit,Reach step anyStep {} s → ∀ k,FreedOnce s k := by
  intro h
  have hrun : (exec step {} detachedEnd).any leaked=true := by decide +kernel
  obtain ⟨s,hs,hl⟩ := (Option.any_eq_true _ _).mp hrun
  obtain ⟨hq,hr,hf⟩ := leaked_quiet hl
  have := ((h s (exec_reach hs) ()).quiet hq hr).1
  omega

end Dpapp.CtcMemory
