import Dpapp.CtcMemory

/-! # The result a CTC brings back -/

set_option linter.unusedSectionVars false

namespace Dpapp.CtcResult
open Dpapp.Machine Dpapp.Ret Dpapp.CtcLife Dpapp.CtcEngine Dpapp.CtcMemory
open Dpapp.CtcChannel (Thread)

variable {ι κ : Type*} [DecidableEq ι] [DecidableEq κ]

/-- What dpevp_addv still does with `ret` once it has handed the CTC over. -/
def settling : ApiOp → Bool
  | .addRet | .addIsok | .addIsWait | .addInprog => true
  | _ => false

/- dpevp_addv finds the CTC doing or with no engine, and no engine writes the result while dpevp_addv
is still about to write or test it. -/
def settled (x : Life ι) : Lbl ι → Prop
  | .add _ _ _ => dpeleIsDoing x.e=false → x.h.place=.idle
  | .eng r => writes x r≠none → x.api.all (fun op => !settling op)=true
  | _ => True

instance (x : Life ι) : (l : Lbl ι) → Decidable (settled x l)
  | .add _ _ _ => inferInstanceAs (Decidable (_ → _))
  | .eng _ => inferInstanceAs (Decidable (_ → _))
  | .new _ | .ref | .cancel _ | .del | .endCtc _ | .reto _ | .pop | .popReady | .deliver | .api => .isTrue trivial

/-- A request whose post function is the application of the target. -/
def plain (e : Ele ι) : Prop := dpeleIsDoing e=true ∧ hasPost e=false

/-- The target has taken up dpevp_end_ctc_ and not yet changed the status. -/
def ending : EngOp → Bool
  | .finRet _ | .finReto | .finCommit | .finStat => true
  | _ => false

/-- Who may touch the CTC, and that dpevp_addv is not deceived by `ret`. -/
structure Linked (x : Life ι) : Prop where
  unborn : x.h.born=false → x.api=none ∧ x.h.place=.idle
  run : x.eng≠none ↔ ∃ t,x.h.place=.run t
  addCommit : x.api=some .addCommit → x.h.place=.idle
  isWait : x.api=some .addIsok ∨ x.api=some .addIsWait → x.e.ret=dpeWait
  addClear : x.api≠some .addClear
  ref : ∀ op,x.api=some op → usesRef op → x.e.refc≠0
  del : x.api=some .delTest ∨ x.api=some .delFree → x.e.refc=0
  frees : x.h.frees≠0 → x.e.refc=0

structure Kept (x : Life ι) : Prop where
  held : ∀ t,x.h.place=.held t → plain x.e ∧ x.e.stat=.running
  ending : ∀ op,x.eng=some op → ending op=true → plain x.e ∧ x.e.stat=.running
  endRet : ∀ ret,x.api=some (.endRet ret) → x.h.given=none ∧ x.e.stat≠.commit ∧ x.e.stat≠.running
  given : ∀ g,x.h.given=some g → hasPost x.e=false ∧ x.eng≠some .runPost ∧ x.eng≠some .overPost ∧
    x.api≠some .addCommit ∧ x.api.all (fun op => !settling op)=true ∧ (x.h.place≠.idle → x.e.ret=g)
  done : x.h.place≠.idle ∨ x.api=some .addCommit → x.h.done=[]
  result : ∀ p∈x.h.done,∀ g,x.h.given=some g → p.2=g

theorem linked_still {x : Life ι} (hx : Linked x) (h : ∀ t,x.h.place≠.run t) : x.eng=none := by
  by_contra hne
  obtain ⟨t,ht⟩ := hx.run.mp hne
  exact h t ht

theorem linked_born {x : Life ι} (hx : Linked x) (h : x.api≠none ∨ x.h.place≠.idle) : x.h.born=true := by
  by_contra hb
  obtain ⟨h1,h2⟩ := hx.unborn (by simpa using hb)
  obtain h | h := h
  · exact h h1
  · exact h h2

/-- Only who has the CTC changes. -/
theorem linked_place {x : Life ι} {e : Ele ι} {h : Hist ι} {o : Option EngOp} (hx : Linked x)
    (hp : x.h.place≠.idle) (hb : h.born=x.h.born) (hf : h.frees=x.h.frees) (hr : e.refc=x.e.refc)
    (hd : e.ret=x.e.ret) (heng : o≠none ↔ ∃ t,h.place=.run t) : Linked {x with e := e, h := h, eng := o} := by
  have hborn := linked_born hx (.inr hp)
  refine ⟨fun h => ?_,heng,fun ho => (hp (hx.addCommit ho)).elim,fun ho => ?_,hx.addClear,fun op ho hu => ?_,
    fun ho => ?_,fun ho => ?_⟩
  · rw [hb,hborn] at h; cases h
  · rw [hd]; exact hx.isWait ho
  · rw [hr]; exact hx.ref op ho hu
  · rw [hr]; exact hx.del ho
  · rw [hf] at ho; rw [hr]; exact hx.frees ho

theorem linked_enter {x : Life ι} {op : ApiOp} (hx : Linked x) (hb : x.h.born=true)
    (href : usesRef op → x.e.refc≠0) (hop : op=.delUnref ∨ ∃ ret,op=.endTest ret) :
    Linked {x with api := some op} := by
  refine ⟨fun h => ?_,hx.run,fun ho => ?_,fun ho => ?_,fun ho => ?_,fun op' ho hu => ?_,fun ho => ?_,hx.frees⟩
  · rw [hb] at h; cases h
  · obtain rfl | ⟨ret,rfl⟩ := hop <;> cases ho
  · obtain rfl | ⟨ret,rfl⟩ := hop <;> simp at ho
  · obtain rfl | ⟨ret,rfl⟩ := hop <;> cases ho
  · cases ho; exact href hu
  · obtain rfl | ⟨ret,rfl⟩ := hop <;> simp at ho

theorem linked_api {x : Life ι} {op : ApiOp} (hx : Linked x) (hapi : x.api=some op) :
    Linked {x with
      e := (runApi x.h.owner x.e op).ele, h := histApi x.h op (runApi x.h.owner x.e op)
      api := (runApi x.h.owner x.e op).next} := by
  have hb := linked_born hx (.inl (by simp [hapi]))
  have href := hx.ref op hapi
  cases op with
  | addCommit =>
    have hi := hx.addCommit hapi
    have heng := linked_still hx (fun t => by rw [hi]; simp)
    have hf := hx.frees
    constructor <;> simp_all [histApi,runApi,Hist.free,Hist.touch,usesRef]
  | addIsok =>
    have hno : ¬dpretIsok x.e.ret := by rw [hx.isWait (.inl hapi)]; decide
    have hw := hx.isWait (.inl hapi)
    have hrun := hx.run
    have hf := hx.frees
    simp only [runApi,if_neg hno]
    constructor <;> simp_all [histApi,Hist.free,Hist.touch,usesRef]
  | addIsWait =>
    have hw := hx.isWait (.inr hapi)
    have hrun := hx.run
    have hf := hx.frees
    constructor <;> simp_all [histApi,runApi,Hist.free,Hist.touch,usesRef]
  | addClear => exact (hx.addClear hapi).elim
  | endTest ret =>
    have hrun := hx.run
    have hf := hx.frees
    simp only [runApi]
    split <;> constructor <;> simp_all [histApi,Hist.free,Hist.touch,usesRef]
  | endCas ret =>
    have hrun := hx.run
    have hf := hx.frees
    by_cases hs : x.e.stat=.commit <;> simp only [runApi,dpctcCesStat,hs,if_true,if_false] <;>
      constructor <;> simp_all [histApi,Hist.free,Hist.touch,usesRef]
  | delUnref =>
    have hrun := hx.run
    have hf := hx.frees
    by_cases h1 : x.e.refc=1 <;> constructor <;> simp_all [histApi,runApi,Hist.free,Hist.touch,usesRef]
  | delTest =>
    have hrun := hx.run
    have hf := hx.frees
    have hr := hx.del (.inl hapi)
    cases hd : dpeleIsDoing x.e <;> constructor <;> simp_all [histApi,runApi,Hist.free,Hist.touch,usesRef]
  | delFree =>
    have hrun := hx.run
    have hr := hx.del (.inr hapi)
    constructor <;> simp_all [histApi,runApi,Hist.free,Hist.touch]
  | _ =>
    have hrun := hx.run
    have hf := hx.frees
    constructor <;> simp_all [histApi,runApi,Hist.free,Hist.touch,usesRef]

theorem linked_eng {x : Life ι} {t : Thread ι} {r : Dpret} {op : EngOp} (hx : Linked x) (hp : x.h.place=.run t)
    (heng : x.eng=some op) (hok : settled x (.eng r)) :
    Linked {x with
      e := (runEng t r x.e op).ele, h := histEng x.h t r op (runEng t r x.e op), eng := (runEng t r x.e op).next} := by
  have hs := runEng_spec t r x.e op
  have hp' : x.h.place≠.idle := by rw [hp]; simp
  have hborn := linked_born hx (.inr hp')
  refine ⟨fun h => ?_,placeEng_run hs,fun ho => (hp' (hx.addCommit ho)).elim,fun ho => ?_,hx.addClear,
    fun op' ho hu => ?_,fun ho => ?_,fun ho => ?_⟩
  · have hb : x.h.born=false := h
    rw [hborn] at hb; cases hb
  · have hw : writes x r=none := by
      by_contra hne
      have hset := hok hne
      obtain ho | ho := ho <;> rw [ho] at hset <;> cases hset
    exact (runEng_keeps heng hw).trans (hx.isWait ho)
  · rw [hs.refc]; exact hx.ref op' ho hu
  · rw [hs.refc]; exact hx.del ho
  · rw [hs.refc]
    by_cases hf : (runEng t r x.e op).fate=.freed
    · exact hs.freed hf
    · refine hx.frees fun h0 => ho ?_
      simp [histEng,Hist.free,Hist.touch,hf,h0]

theorem linked_step {x y : Life ι} {l : Lbl ι} (hx : Linked x) (hok : settled x l) (h : x.step l=some y) :
    Linked y := by
  cases l with
  | new t =>
    simp only [Life.step] at h
    split at h <;> cases h
    rename_i hb
    obtain ⟨hapi,hplace⟩ := hx.unborn (by simpa using hb)
    have heng := linked_still hx (fun t => by rw [hplace]; simp)
    constructor <;> simp [hapi,heng]
  | ref =>
    simp only [Life.step] at h
    split at h <;> cases h
    rename_i hc
    have hapi := hc.2.1.1 rfl
    have hrun := hx.run
    have hf := hx.frees
    have hb := hx.unborn
    constructor <;> simp_all [Hist.touch]
  | add asc toid detach =>
    simp only [Life.step] at h
    split at h
    · rename_i hc
      have hapi := hc.2.1.1 rfl
      split at h
      · cases h
        exact ⟨hx.unborn,hx.run,hx.addCommit,hx.isWait,hx.addClear,hx.ref,hx.del,hx.frees⟩
      · rename_i hd
        have hi : x.h.place=.idle := hok (by simpa using hd)
        have heng := linked_still hx (fun t => by rw [hi]; simp)
        have hf := hx.frees
        split at h <;> cases h
        · constructor <;> simp_all [Hist.touch,Hist.submit,submitEle,usesRef]
        · constructor <;> simp_all [Hist.touch]
    · cases h
  | cancel ret =>
    simp only [Life.step] at h
    split at h <;> cases h
    rename_i hc
    exact linked_enter hx hc.1 (fun h => h.elim) (.inr ⟨ret,rfl⟩)
  | del =>
    simp only [Life.step] at h
    split at h <;> cases h
    rename_i hc
    exact linked_enter hx hc.1 (fun _ => hc.2.2) (.inl rfl)
  | endCtc err =>
    simp only [Life.step] at h
    split at h
    · rename_i t hp
      have hp' : x.h.place≠.idle := by rw [hp]; simp
      split at h
      · split at h <;> cases h
        · exact linked_place (e := x.e) (h := {x.h.touch with place := .run t}) (o := some (.finRet err)) hx hp'
            rfl rfl rfl rfl (by simp)
        · exact linked_place (e := x.e) (h := x.h.touch) (o := x.eng) hx hp' rfl rfl rfl rfl hx.run
      · cases h
    · cases h
  | reto toid =>
    simp only [Life.step] at h
    split at h
    · rename_i t hp
      have hp' : x.h.place≠.idle := by rw [hp]; simp
      split at h
      · split at h <;> cases h
        · exact linked_place (e := {x.e with toid := toid, isReto := true}) (h := x.h.touch) (o := x.eng) hx hp'
            rfl rfl rfl rfl hx.run
        · exact linked_place (e := x.e) (h := x.h.touch) (o := x.eng) hx hp' rfl rfl rfl rfl hx.run
      · cases h
    · cases h
  | pop =>
    simp only [Life.step] at h
    split at h
    · rename_i t hp
      split at h <;> cases h
      exact linked_place (e := x.e) (h := {x.h with place := .run t}) (o := some .reap) hx (by rw [hp]; simp)
        rfl rfl rfl rfl (by simp)
    · cases h
  | popReady =>
    simp only [Life.step] at h
    split at h
    · rename_i t hp
      split at h <;> cases h
      exact linked_place (e := x.e) (h := {x.h with place := .run t}) (o := some .ascOver) hx (by rw [hp]; simp)
        rfl rfl rfl rfl (by simp)
    · cases h
  | deliver =>
    have heng (loc : Loc ι) (hp : x.h.place=.queued loc) : x.eng=none :=
      linked_still hx (fun t => by rw [hp]; simp)
    simp only [Life.step] at h
    split at h
    · rename_i w hp
      cases h
      exact linked_place (e := x.e) (h := {x.h with place := .queued (.enter none)}) (o := x.eng) hx
        (by rw [hp]; simp) rfl rfl rfl rfl (by simp [heng _ hp])
    · rename_i w hp
      cases h
      exact linked_place (e := x.e) (h := {x.h with place := .queued (.enter (some w))}) (o := x.eng) hx
        (by rw [hp]; simp) rfl rfl rfl rfl (by simp [heng _ hp])
    · cases h
  | api =>
    simp only [Life.step] at h
    split at h <;> cases h
    exact linked_api hx ‹_›
  | eng r =>
    simp only [Life.step] at h
    split at h <;> cases h
    exact linked_eng hx ‹_› ‹_› hok

/-! ### One access of an engine, one field at a time -/

theorem runEng_request {t : Thread ι} {r : Dpret} {e : Ele ι} {op : EngOp}
    (h : (runEng t r e op).fate=.request) : op=.ascOver ∧ (runEng t r e op).ele=e ∧ plain e ∧ e.stat=.running := by
  cases op with
  | ascOver =>
    simp only [runEng] at h ⊢
    split at h
    · rename_i hc
      rw [if_pos hc]
      exact ⟨trivial,rfl,⟨hc.2.1,hc.2.2⟩,hc.1⟩
    · cases h
  | casRun =>
    simp only [runEng,dpctcCesStat] at h
    by_cases hs : e.stat=.commit <;> simp only [hs,if_true,if_false] at h
    · split at h <;> cases h
    · cases h
  | casFin =>
    simp only [runEng,dpctcCesStat] at h
    by_cases hs : e.stat=.cancel <;> simp only [hs,if_true,if_false] at h <;> cases h
  | cancelDel | overDel =>
    simp only [runEng,dpctcDel] at h
    (repeat' split at h) <;> cases h
  | dflt | finReto => simp only [runEng,dpctcDel] at h; (repeat' split at h) <;> cases h
  | finDetach =>
    simp only [runEng] at h
    split at h
    · simp only at h; split at h <;> cases h
    · cases h
  | _ => simp [runEng] at h

theorem runEng_ending {t : Thread ι} {r : Dpret} {e : Ele ι} {op op' : EngOp} (h : (runEng t r e op).next=some op')
    (he : ending op'=true) : ending op=true ∧ (runEng t r e op).ele.stat=e.stat ∧
      (runEng t r e op).ele.asc=e.asc := by
  cases op with
  | finRet => exact ⟨rfl,rfl,rfl⟩
  | finReto => simp only [runEng]; split <;> exact ⟨rfl,rfl,rfl⟩
  | reap =>
    simp only [runEng,Option.some.injEq] at h
    subst h
    unfold masterReapCtc workerReapCtc at he
    cases hs : e.stat <;> simp only [hs] at he <;> split at he <;> cases he
  | casRun =>
    simp only [runEng,dpctcCesStat] at h
    by_cases hs : e.stat=.commit <;> simp only [hs,if_true,if_false] at h
    · split at h <;> cases h; cases he
    · cases h; cases he
  | casFin =>
    simp only [runEng,dpctcCesStat] at h
    by_cases hs : e.stat=.cancel <;> simp only [hs,if_true,if_false,Option.some.injEq] at h <;> subst h
    · cases he
    · split at he <;> cases he
  | dflt => simp only [runEng,dpctcDel] at h; (repeat' split at h) <;> cases h; cases he
  | cancelDel | overDel => simp only [runEng,dpctcDel] at h; (repeat' split at h) <;> cases h
  | ascOver => simp only [runEng] at h; split at h <;> cases h; cases he
  | finDetach => simp only [runEng] at h; split at h <;> cases h
  | runTest | overClear => simp only [runEng,Option.some.injEq] at h; subst h; split at he <;> cases he
  | _ => cases h <;> cases he

theorem runEng_stat {t : Thread ι} {r : Dpret} {e : Ele ι} {op : EngOp} (hc : e.stat≠.commit) (hr : e.stat≠.running)
    (he : ending op=false) : (runEng t r e op).ele.stat≠.commit ∧ (runEng t r e op).ele.stat≠.running := by
  cases op with
  | finRet | finReto | finCommit | finStat => cases he
  | casRun => simp only [runEng,dpctcCesStat,hc,if_false]; exact ⟨hc,hr⟩
  | casFin =>
    by_cases hs : e.stat=.cancel <;> simp only [runEng,dpctcCesStat,hs,if_true,if_false]
    · exact ⟨by simp,by simp⟩
    · exact ⟨hc,hr⟩
  | cancelDel | overDel | dflt | ascOver | finDetach =>
    simp only [runEng,dpctcDel]; (repeat' split) <;> exact ⟨hc,hr⟩
  | runFin => exact ⟨by simp [runEng],by simp [runEng]⟩
  | _ => exact ⟨hc,hr⟩

/-- Without a post function there is none later, and none is run. -/
theorem runEng_post {t : Thread ι} {r : Dpret} {e : Ele ι} (op : EngOp) (h : hasPost e=false) :
    hasPost (runEng t r e op).ele=false ∧ (runEng t r e op).next≠some .runPost ∧
    (runEng t r e op).next≠some .overPost := by
  cases op with
  | reap =>
    refine ⟨h,?_⟩
    simp only [runEng]
    by_cases ht : t=none <;> cases hs : e.stat <;> simp [ht,hs,masterReapCtc,workerReapCtc]
  | casRun =>
    simp only [runEng,dpctcCesStat]
    by_cases hs : e.stat=.commit <;> simp only [hs,if_true,if_false]
    · split <;> exact ⟨h,by simp⟩
    · exact ⟨h,by simp⟩
  | casFin =>
    simp only [runEng,dpctcCesStat]
    by_cases hs : e.stat=.cancel <;> simp only [hs,if_true,if_false]
    · exact ⟨h,by simp⟩
    · split <;> exact ⟨h,by simp⟩
  | cancelDel | overDel | dflt | ascOver | finReto | finDetach =>
    simp only [runEng,dpctcDel]; (repeat' split) <;> exact ⟨h,by simp⟩
  | runTest => simp only [runEng,h]; exact ⟨trivial,by simp⟩
  | overClear => simp only [runEng,h]; exact ⟨rfl,by simp⟩
  | runClear => exact ⟨rfl,by simp [runEng]⟩
  | _ => exact ⟨h,by simp [runEng]⟩

theorem kept_eng {x : Life ι} {t : Thread ι} {r : Dpret} {op : EngOp} (hl : Linked x) (hx : Kept x)
    (hp : x.h.place=.run t) (heng : x.eng=some op) (hok : settled x (.eng r)) :
    Kept {x with
      e := (runEng t r x.e op).ele, h := histEng x.h t r op (runEng t r x.e op), eng := (runEng t r x.e op).next} := by
  have hp' : x.h.place≠.idle := by rw [hp]; simp
  have hdone := hx.done (.inl hp')
  have hs := runEng_spec t r x.e op
  set o := runEng t r x.e op with ho
  have hapi : x.api≠some .addCommit := fun h => hp' (hl.addCommit h)
  have hcomp (hc : o.fate=.completed) : placeEng t o=.idle := by
    have hn := hs.next (.inr (by rw [hc]; simp))
    cases hpush : o.push with
    | none => simp [placeEng,hpush,hn,hc]
    | some loc => rw [hs.fate (by simp [hpush])] at hc; cases hc
  have hgiven (g : Dpret) (h : (histEng x.h t r op o).given=some g) :
      hasPost x.e=false ∧ op≠.runPost ∧ op≠.overPost ∧ x.api.all (fun op => !settling op)=true ∧ o.ele.ret=g := by
    cases op with
    | finRet err =>
      simp only [histEng,Option.some.injEq] at h
      subst h
      exact ⟨(hx.ending _ heng rfl).1.2,by simp,by simp,hok (by simp [writes,heng]),rfl⟩
    | runPost => exact ((hx.given g h).2.1 heng).elim
    | overPost => exact ((hx.given g h).2.2.1 heng).elim
    | _ =>
      obtain ⟨h1,-,-,-,h2,h3⟩ := hx.given g h
      exact ⟨h1,by simp,by simp,h2,(runEng_keeps heng (by simp [writes,heng])).trans (h3 hp')⟩
  refine ⟨fun t' hh => ?_,fun op' hn he => ?_,fun ret hr => ?_,fun g h => ?_,fun h => ?_,fun p hpd g h => ?_⟩
  · have hreq : o.fate=.request := by
      have hpl : placeEng t o=.held t' := hh
      cases hpush : o.push <;> cases hnext : o.next <;> cases hfate : o.fate <;>
        simp [placeEng,hpush,hnext,hfate] at hpl ⊢
    obtain ⟨-,he,hpl,hst⟩ := runEng_request hreq
    simp only [ho,he]
    exact ⟨hpl,hst⟩
  · obtain ⟨hop,hst,hasc⟩ := runEng_ending hn he
    obtain ⟨⟨hd,hpo⟩,hrun⟩ := hx.ending op heng hop
    refine ⟨⟨?_,?_⟩,hst.trans hrun⟩
    · simp only [dpeleIsDoing,ho,hasc]; exact hd
    · simp only [hasPost,ho,hasc]; exact hpo
  · obtain ⟨hnone,hc,hr'⟩ := hx.endRet ret hr
    have hop : ending op=false := by
      by_contra hop
      exact hr' (hx.ending op heng (by simpa using hop)).2
    refine ⟨?_,runEng_stat hc hr' hop⟩
    cases op with
    | finRet => cases hop
    | _ => exact hnone
  · obtain ⟨hpo,-,-,hset,hret⟩ := hgiven g h
    have hpost := runEng_post (t := t) (r := r) op hpo
    exact ⟨hpost.1,hpost.2.1,hpost.2.2,hapi,hset,fun _ => hret⟩
  · have hni : placeEng t o≠.idle := by
      obtain h | h := h
      · exact h
      · exact (hapi h).elim
    simp only [histEng]
    rw [if_neg (fun hc => hni (hcomp hc))]
    exact hdone
  · simp only [histEng] at hpd
    split at hpd
    · have hd : x.h.touch.done=[] := hdone
      have hd' : (x.h.touch.free o).done=[] := hd
      rw [show x.h.done=[] from hdone] at hpd
      cases List.mem_singleton.mp hpd
      exact (hgiven g h).2.2.2.2
    · have hd : p∈x.h.done := hpd
      rw [hdone] at hd
      cases hd

theorem kept_api {x : Life ι} {op : ApiOp} (hl : Linked x) (hx : Kept x) (hapi : x.api=some op) :
    Kept {x with
      e := (runApi x.h.owner x.e op).ele, h := histApi x.h op (runApi x.h.owner x.e op)
      api := (runApi x.h.owner x.e op).next} := by
  have hset : settling op=true → x.h.given=none := fun hs => by
    cases hg : x.h.given with
    | none => rfl
    | some g =>
      have := (hx.given g hg).2.2.2.2.1
      rw [hapi] at this
      simp [hs] at this
  have hheld := hx.held
  have hend := hx.ending
  have hgiven := hx.given
  have hdone := hx.done
  have hresult := hx.result
  cases op with
  | addCommit =>
    have hi := hl.addCommit hapi
    have heng := linked_still hl (fun t => by rw [hi]; simp)
    have hg : x.h.given=none := by
      cases hg : x.h.given with
      | none => rfl
      | some g => exact ((hx.given g hg).2.2.2.1 hapi).elim
    have hd := hx.done (.inr hapi)
    constructor <;> simp [histApi,runApi,cancels,Hist.free,Hist.touch,heng,hg,hd]
  | addRet =>
    have hg := hset rfl
    constructor <;> simp [histApi,runApi,cancels,Hist.free,Hist.touch,hg]
    · exact hheld
    · exact hend
    · exact fun h => hdone (.inl h)
  | addIsok =>
    have hg := hset rfl
    have hno : ¬dpretIsok x.e.ret := by rw [hl.isWait (.inl hapi)]; decide
    simp only [runApi,if_neg hno]
    constructor <;> simp [histApi,cancels,Hist.free,Hist.touch,hg]
    · exact hheld
    · exact hend
    · exact fun h => hdone (.inl h)
  | addIsWait =>
    have hg := hset rfl
    have hw := hl.isWait (.inr hapi)
    constructor <;> simp [histApi,runApi,cancels,Hist.free,Hist.touch,hg,hw]
    · exact hheld
    · exact hend
    · exact fun h => hdone (.inl h)
  | addInprog =>
    have hg := hset rfl
    constructor <;> simp [histApi,runApi,cancels,Hist.free,Hist.touch,hg]
    · exact hheld
    · exact hend
    · exact fun h => hdone (.inl h)
  | addClear => exact (hl.addClear hapi).elim
  | endCas ret =>
    by_cases hs : x.e.stat=.commit
    · have hnh (t : Thread ι) : x.h.place≠.held t := fun h => by
        have := (hheld t h).2
        rw [hs] at this
        cases this
      have hne (op : EngOp) (h : x.eng=some op) : ending op=false := by
        by_contra he
        have := (hend op h (by simpa using he)).2
        rw [hs] at this
        cases this
      constructor <;> simp [histApi,runApi,dpctcCesStat,hs,cancels,Hist.free,Hist.touch]
      · exact fun t h => (hnh t h).elim
      · exact hne
      · exact fun h => hdone (.inl h)
    · constructor <;> simp [histApi,runApi,dpctcCesStat,hs,cancels,Hist.free,Hist.touch]
      · exact hheld
      · exact hend
      · exact fun g h => ⟨(hgiven g h).1,(hgiven g h).2.1,(hgiven g h).2.2.1,(hgiven g h).2.2.2.2.2⟩
      · exact fun h => hdone (.inl h)
      · exact fun t v hp g hg => hresult (t,v) hp g hg
  | endTest ret =>
    simp only [runApi]
    split <;> constructor <;> simp [histApi,cancels,Hist.free,Hist.touch,settling]
    all_goals first
      | exact hheld
      | exact hend
      | exact fun g h => ⟨(hgiven g h).1,(hgiven g h).2.1,(hgiven g h).2.2.1,(hgiven g h).2.2.2.2.2⟩
      | exact fun h => hdone (.inl h)
      | exact fun t v hp g hg => hresult (t,v) hp g hg
  | endRet ret =>
    have hg := (hx.endRet ret hapi).1
    constructor <;> simp [histApi,runApi,cancels,Hist.free,Hist.touch,hg]
    · exact hheld
    · exact hend
    · exact fun h => hdone (.inl h)
  | delUnref =>
    by_cases h1 : x.e.refc=1 <;> constructor <;> simp [histApi,runApi,cancels,Hist.free,Hist.touch,h1,settling]
    all_goals first
      | exact hheld
      | exact hend
      | exact fun g h => ⟨(hgiven g h).1,(hgiven g h).2.1,(hgiven g h).2.2.1,(hgiven g h).2.2.2.2.2⟩
      | exact fun h => hdone (.inl h)
      | exact fun t v hp g hg => hresult (t,v) hp g hg
  | delTest =>
    cases hd : dpeleIsDoing x.e <;> constructor <;>
      simp [histApi,runApi,cancels,Hist.free,Hist.touch,hd,settling]
    all_goals first
      | exact hheld
      | exact hend
      | exact fun g h => ⟨(hgiven g h).1,(hgiven g h).2.1,(hgiven g h).2.2.1,(hgiven g h).2.2.2.2.2⟩
      | exact fun h => hdone (.inl h)
      | exact fun t v hp g hg => hresult (t,v) hp g hg
  | addDetach | delFree =>
    constructor <;> simp [histApi,runApi,cancels,Hist.free,Hist.touch]
    all_goals first
      | exact hheld
      | exact hend
      | exact fun g h => ⟨(hgiven g h).1,(hgiven g h).2.1,(hgiven g h).2.2.1,(hgiven g h).2.2.2.2.2⟩
      | exact fun h => hdone (.inl h)
      | exact fun t v hp g hg => hresult (t,v) hp g hg

/-- The owner's thread enters dpevp_end or dpele_del. -/
theorem kept_enter {x : Life ι} {op : ApiOp} (hx : Kept x) (hop : op=.delUnref ∨ ∃ ret,op=.endTest ret) :
    Kept {x with api := some op} := by
  refine ⟨hx.held,hx.ending,fun ret h => ?_,fun g h => ?_,fun h => hx.done (.inl ?_),hx.result⟩
  · obtain rfl | ⟨ret',rfl⟩ := hop <;> cases h
  · obtain ⟨h1,h2,h3,-,-,h4⟩ := hx.given g h
    obtain rfl | ⟨ret,rfl⟩ := hop <;> exact ⟨h1,h2,h3,by simp,rfl,h4⟩
  · obtain h | h := h
    · exact h
    · obtain rfl | ⟨ret,rfl⟩ := hop <;> cases h

/-- Only who has the CTC changes, and where a redirect sends it. -/
theorem kept_place {x : Life ι} {e : Ele ι} {h : Hist ι} {o : Option EngOp} (hx : Kept x) (hp : x.h.place≠.idle)
    (hg : h.given=x.h.given) (hd : h.done=x.h.done) (hasc : e.asc=x.e.asc) (hstat : e.stat=x.e.stat)
    (hret : e.ret=x.e.ret) (hheld : ∀ t,h.place=.held t → x.h.place=.held t)
    (heng : ∀ op,o=some op → x.eng=some op ∨ op=.reap ∨ op=.ascOver ∨
      (plain x.e ∧ x.e.stat=.running ∧ op≠.runPost ∧ op≠.overPost)) :
    Kept {x with e := e, h := h, eng := o} := by
  have hpost : hasPost e=hasPost x.e := by simp only [hasPost,hasc]
  have hplain (h : plain x.e) : plain e := by
    obtain ⟨h1,h2⟩ := h
    exact ⟨by simp only [dpeleIsDoing,hasc]; exact h1,hpost.trans h2⟩
  have hdone := hx.done (.inl hp)
  refine ⟨fun t ht => ?_,fun op ho he => ?_,fun ret ho => ?_,fun g ho => ?_,fun _ => hd.trans hdone,
    fun p hpd => ?_⟩
  · obtain ⟨h1,h2⟩ := hx.held t (hheld t ht)
    exact ⟨hplain h1,hstat.trans h2⟩
  · rw [hstat]
    obtain h | rfl | rfl | ⟨h1,h2,-⟩ := heng op ho
    · exact ⟨hplain (hx.ending op h he).1,(hx.ending op h he).2⟩
    · cases he
    · cases he
    · exact ⟨hplain h1,h2⟩
  · rw [hg,hstat]; exact hx.endRet ret ho
  · rw [hg] at ho
    obtain ⟨h1,h2,h3,h4,h5,h6⟩ := hx.given g ho
    refine ⟨hpost.trans h1,fun hn => ?_,fun hn => ?_,h4,h5,fun _ => hret.trans (h6 hp)⟩
    · obtain h | h | h | h := heng _ hn
      · exact h2 h
      · cases h
      · cases h
      · exact h.2.2.1 rfl
    · obtain h | h | h | h := heng _ hn
      · exact h3 h
      · cases h
      · cases h
      · exact h.2.2.2 rfl
  · rw [hd,hdone] at hpd; cases hpd

theorem kept_step {x y : Life ι} {l : Lbl ι} (hl : Linked x) (hx : Kept x) (hok : settled x l)
    (h : x.step l=some y) : Kept y := by
  cases l with
  | new t =>
    simp only [Life.step] at h
    split at h <;> cases h
    rename_i hb
    obtain ⟨hapi,hplace⟩ := hl.unborn (by simpa using hb)
    have heng := linked_still hl (fun t => by rw [hplace]; simp)
    constructor <;> simp [hapi,heng]
  | ref =>
    simp only [Life.step] at h
    split at h <;> cases h
    exact ⟨hx.held,hx.ending,hx.endRet,hx.given,hx.done,hx.result⟩
  | add asc toid detach =>
    simp only [Life.step] at h
    split at h
    · rename_i hc
      have hapi := hc.2.1.1 rfl
      split at h
      · cases h
        exact ⟨hx.held,hx.ending,hx.endRet,hx.given,hx.done,hx.result⟩
      · rename_i hd
        have hi : x.h.place=.idle := hok (by simpa using hd)
        have heng := linked_still hl (fun t => by rw [hi]; simp)
        split at h <;> cases h
        · constructor <;> simp [Hist.touch,Hist.submit,hi,heng]
        · have hgiven := hx.given
          have hresult := hx.result
          refine ⟨fun t ht => ?_,fun op ho => ?_,fun ret ho => ?_,fun g hg => ?_,fun ho => ?_,hresult⟩
          · have hh : x.h.place=.held t := ht
            rw [hi] at hh; cases hh
          · simp [heng] at ho
          · simp [hapi] at ho
          · obtain ⟨h1,h2,h3,h4,h5,-⟩ := hgiven g hg
            exact ⟨h1,h2,h3,h4,h5,fun hne => (hne hi).elim⟩
          · obtain ho | ho := ho
            · exact (ho hi).elim
            · simp [hapi] at ho
    · cases h
  | cancel ret =>
    simp only [Life.step] at h
    split at h <;> cases h
    exact kept_enter hx (.inr ⟨ret,rfl⟩)
  | del =>
    simp only [Life.step] at h
    split at h <;> cases h
    exact kept_enter hx (.inl rfl)
  | endCtc err =>
    simp only [Life.step] at h
    split at h
    · rename_i t hp
      obtain ⟨hpl,hst⟩ := hx.held t hp
      split at h
      · split at h <;> cases h
        · exact kept_place (e := x.e) (h := {x.h.touch with place := .run t}) hx (by rw [hp]; simp) rfl rfl rfl rfl
            rfl (fun t' h => by simp at h) (fun op ho => by cases ho; exact .inr (.inr (.inr ⟨hpl,hst,by simp,by simp⟩)))
        · exact ⟨hx.held,hx.ending,hx.endRet,hx.given,hx.done,hx.result⟩
      · cases h
    · cases h
  | reto toid =>
    simp only [Life.step] at h
    split at h
    · rename_i t hp
      split at h
      · split at h <;> cases h
        · exact kept_place (e := {x.e with toid := toid, isReto := true}) (h := x.h.touch) hx (by rw [hp]; simp)
            rfl rfl rfl rfl rfl (fun t' h => h) (fun op ho => .inl ho)
        · exact ⟨hx.held,hx.ending,hx.endRet,hx.given,hx.done,hx.result⟩
      · cases h
    · cases h
  | pop =>
    simp only [Life.step] at h
    split at h
    · rename_i t hp
      split at h <;> cases h
      exact kept_place (e := x.e) (h := {x.h with place := .run t}) hx (by rw [hp]; simp) rfl rfl rfl rfl rfl
        (fun t' h => by simp at h) (fun op ho => by cases ho; exact .inr (.inl rfl))
    · cases h
  | popReady =>
    simp only [Life.step] at h
    split at h
    · rename_i t hp
      split at h <;> cases h
      exact kept_place (e := x.e) (h := {x.h with place := .run t}) hx (by rw [hp]; simp) rfl rfl rfl rfl rfl
        (fun t' h => by simp at h) (fun op ho => by cases ho; exact .inr (.inr (.inl rfl)))
    · cases h
  | deliver =>
    simp only [Life.step] at h
    split at h
    · rename_i w hp
      cases h
      exact kept_place (e := x.e) (h := {x.h with place := .queued (.enter none)}) hx (by rw [hp]; simp) rfl rfl rfl
        rfl rfl (fun t' h => by simp at h) (fun op ho => .inl ho)
    · rename_i w hp
      cases h
      exact kept_place (e := x.e) (h := {x.h with place := .queued (.enter (some w))}) hx (by rw [hp]; simp) rfl rfl
        rfl rfl rfl (fun t' h => by simp at h) (fun op ho => .inl ho)
    · cases h
  | api =>
    simp only [Life.step] at h
    split at h <;> cases h
    exact kept_api hl hx ‹_›
  | eng r =>
    simp only [Life.step] at h
    split at h <;> cases h
    exact kept_eng hl hx ‹_› ‹_› hok

theorem linked_start : Linked (Life.start : Life ι) := by
  constructor <;> simp [Life.start]

theorem kept_start : Kept (Life.start : Life ι) := by
  constructor <;> simp [Life.start]

theorem linked_safe {x : Life ι} {l : Lbl ι} (hl : Linked x) : ¬Relinks x l := by
  intro hrel
  cases l with
  | api =>
    obtain ⟨op,hapi,hpush,hne⟩ := hrel
    cases op with
    | addCommit => exact hne (hl.addCommit hapi)
    | addIsok =>
      have hno : ¬dpretIsok x.e.ret := by rw [hl.isWait (.inl hapi)]; decide
      simp [runApi,hno] at hpush
    | endTest => simp only [runApi] at hpush; split at hpush <;> simp at hpush
    | endCas => simp only [runApi] at hpush; split at hpush <;> simp at hpush
    | _ => simp [runApi] at hpush
  | _ => exact hrel

theorem settled_run {s : Sys ι κ} {k : κ} (h : Reach step (okFor settled k) {} s) :
    Placed s k ∧ Linked (life s k) ∧ Kept (life s k) :=
  life_invariant (I := fun x => Linked x ∧ Kept x) h ⟨linked_start,kept_start⟩
    (fun _ _ _ hx hok hy => ⟨linked_step hx.1 hok hy,kept_step hx.1 hx.2 hok hy⟩)
    (fun _ _ hx _ => linked_safe hx.1)

/-- The pop that hands the CTC out as completed finds the value last given to dpevp_end_ctc_, and
what dpevp_addv and dpele_del still do with the CTC they do before it is freed. -/
structure Returns (s : Sys ι κ) (k : κ) : Prop where
  result : ∀ p∈(s.hist k).done,∀ g,(s.hist k).given=some g → p.2=g
  alive : ∀ t op,s.pc t=some (k,.inl op) → usesRef op → (s.hist k).frees=0

theorem ctc_result {s : Sys ι κ} {k : κ} (h : Reach step (okFor settled k) {} s) : Returns s k := by
  obtain ⟨hp,hl,hx⟩ := settled_run h
  refine ⟨hx.result,fun t op hpc hu => ?_⟩
  obtain rfl := hp.api t (by simp [hpc])
  have hapi : (life s k).api=some op := by simp [life,hpc]
  by_contra hf
  exact hl.ref op hapi hu (hl.frees hf)

/-- An awaited CTC from the master to a worker that ends it with 7; the worker may come in between
dpevp_addv's hand-off and its other accesses. -/
def awaitedRun (early : Bool) : List (Act (Fin 1) Unit) :=
  List.flatten [[.new none (),.add none () dpctcSubmit (some 0) false],conts none (if early then 1 else 6),
    [.deliver (.accept 0),.pop (some 0)],conts (some 0) 3,[.endCtc (some 0) () 7],conts (some 0) 4,
    conts none (if early then 5 else 0),[.deliver (.commit 0),.pop none],conts none 5]

theorem ctc_result_awaited : ∃ s : Sys (Fin 1) Unit,Reach step (okFor settled ()) {} s ∧
    (s.hist ()).given=some 7 ∧ (s.hist ()).done=[(none,7)] ∧ Returns s () := by
  have hrun : (execOk step (okFor settled ()) {} (awaitedRun false)).any
      (fun s => (s.hist ()).given=some 7 ∧ (s.hist ()).done=[(none,7)])=true := by decide +kernel
  obtain ⟨s,hs,hf⟩ := (Option.any_eq_true _ _).mp hrun
  obtain ⟨hg,hd⟩ := of_decide_eq_true hf
  exact ⟨s,execOk_reach hs,hg,hd,ctc_result (execOk_reach hs)⟩

theorem ctc_result_lost : ¬∀ s : Sys (Fin 1) Unit,Reach step anyStep {} s → Returns s () := by
  intro h
  have hrun : (exec step {} (awaitedRun true)).any
      (fun s => (s.hist ()).given=some 7 ∧ (s.hist ()).done=[(none,dpeInprogress)])=true := by decide +kernel
  obtain ⟨s,hs,hf⟩ := (Option.any_eq_true _ _).mp hrun
  obtain ⟨hg,hd⟩ := of_decide_eq_true hf
  have := (h s (exec_reach hs)).result (none,dpeInprogress) (by rw [hd]; exact List.mem_singleton.mpr rfl) 7 hg
  cases this

end Dpapp.CtcResult
