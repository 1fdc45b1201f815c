import Dpapp.CtcLife
import Mathlib

/-! # The engines and all CTCs

Threads run dpevp_addv, dpevp_end, dpele_del, dpevp_pop, dpctc_reto and
dpevp_end_ctc_ on any CTCs, one access at a time and in any order between
threads. Each CTC, seen on its own, follows `Life.step`. -/

set_option linter.unusedSectionVars false

namespace Dpapp.CtcEngine
open Dpapp.Machine Dpapp.CtcChannel Dpapp.Ret Dpapp.CtcLife

variable {ι κ : Type*} [DecidableEq ι] [DecidableEq κ]

abbrev Op := ApiOp ⊕ EngOp

/-- `pc` is the access a thread makes next, and the CTC it is about. -/
structure Sys (ι κ : Type*) where
  ele : κ → Ele ι := fun _ => {}
  queue : Loc ι → List κ := fun _ => []
  pc : Thread ι → Option (κ × Op) := fun _ => none
  hist : κ → Hist ι := fun _ => {}

/-! ### State updates -/

def Sys.setEle (s : Sys ι κ) (k : κ) (e : Ele ι) : Sys ι κ := {s with ele := Function.update s.ele k e}
def Sys.setHist (s : Sys ι κ) (k : κ) (h : Hist ι) : Sys ι κ := {s with hist := Function.update s.hist k h}
def Sys.setPc (s : Sys ι κ) (t : Thread ι) (op : Option (κ × Op)) : Sys ι κ :=
  {s with pc := Function.update s.pc t op}
def Sys.setQueue (s : Sys ι κ) (loc : Loc ι) (q : List κ) : Sys ι κ :=
  {s with queue := Function.update s.queue loc q}

/-- Push to the back of the deque, if there is one to push to. -/
def Sys.push (s : Sys ι κ) (k : κ) : Option (Loc ι) → Sys ι κ
  | some loc => s.setQueue loc (deqPushBack (s.queue loc) k)
  | none => s

/-- The thread whose side of a channel takes over what the other side has pushed. -/
def taker : Loc ι → Option (Thread ι)
  | .commit _ => some none
  | .accept w => some (some w)
  | _ => none

/- `pop` and `popReady` are the beginning of dpevp_pop, `deliver` is the arrival of a pushed CTC in
the other side's enter_ctcs, `cont` the next access of the thread. -/
inductive Act (ι κ : Type*)
  | new (t : Thread ι) (k : κ)
  | ref (t : Thread ι) (k : κ)
  | add (t : Thread ι) (k : κ) (asc : Asc) (toid : Thread ι) (detach : Bool)
  | cancel (t : Thread ι) (k : κ) (ret : Dpret)
  | del (t : Thread ι) (k : κ)
  | endCtc (t : Thread ι) (k : κ) (err : Dpret)
  | reto (t : Thread ι) (k : κ) (toid : Thread ι)
  | pop (t : Thread ι)
  | popReady (t : Thread ι)
  | deliver (loc : Loc ι)
  | cont (t : Thread ι) (r : Dpret)

/-- The caller of dpele_ref, dpevp_addv, dpevp_end or dpele_del is the thread that made the CTC. -/
def owns (s : Sys ι κ) (t : Thread ι) (k : κ) : Prop :=
  s.pc t=none ∧ (s.hist k).born=true ∧ (s.hist k).owner=t

/-- The caller of dpctc_reto or dpevp_end_ctc_ has popped the CTC as a request. -/
def holds (s : Sys ι κ) (t : Thread ι) (k : κ) : Prop := s.pc t=none ∧ (s.hist k).place=.held t

instance (s : Sys ι κ) (t : Thread ι) (k : κ) : Decidable (owns s t k) := inferInstanceAs (Decidable (_ ∧ _))
instance (s : Sys ι κ) (t : Thread ι) (k : κ) : Decidable (holds s t k) := inferInstanceAs (Decidable (_ ∧ _))

def step (s : Sys ι κ) : Act ι κ → Option (Sys ι κ)
  | .new t k =>
      if s.pc t=none ∧ (s.hist k).born=false then
        some ((s.setEle k {}).setHist k {owner := t, born := true})
      else none
  | .ref t k =>
      if owns s t k ∧ (s.ele k).refc≠0 then
        some ((s.setEle k {s.ele k with refc := (s.ele k).refc+1}).setHist k (s.hist k).touch)
      else none
  | .add t k asc toid detach =>
      if owns s t k ∧ (s.ele k).refc≠0 then
        let e := s.ele k
        let s := s.setHist k (s.hist k).touch
        if dpeleIsDoing e then some s
        else if asc.prep e.stat=dpeContinue then
          some (((s.setEle k (submitEle e t asc toid detach)).setHist k ((s.hist k).submit toid)).setPc t
            (some (k,.inl .addCommit)))
        else some (s.setEle k {e with ret := asc.prep e.stat})
      else none
  | .cancel t k ret =>
      if owns s t k then some (s.setPc t (some (k,.inl (.endTest ret)))) else none
  | .del t k =>
      if owns s t k ∧ (s.ele k).refc≠0 then some (s.setPc t (some (k,.inl .delUnref))) else none
  | .endCtc t k err =>
      if holds s t k then
        let s := s.setHist k (s.hist k).touch
        if dpeleIsDoing (s.ele k) then
          some ((s.setHist k {s.hist k with place := .run t}).setPc t (some (k,.inr (.finRet err))))
        else some s
      else none
  | .reto t k toid =>
      if holds s t k then
        let e := s.ele k
        let s := s.setHist k (s.hist k).touch
        if e.stat=.running then some (s.setEle k {e with toid := toid, isReto := true}) else some s
      else none
  | .pop t =>
      match s.pc t,s.queue (.enter t) with
      | none,k::q => some (((s.setQueue (.enter t) q).setHist k {s.hist k with place := .run t}).setPc t
          (some (k,.inr .reap)))
      | _,_ => none
  | .popReady t =>
      match s.pc t,s.queue (.ready t) with
      | none,k::q => some (((s.setQueue (.ready t) q).setHist k {s.hist k with place := .run t}).setPc t
          (some (k,.inr .ascOver)))
      | _,_ => none
  | .deliver loc =>
      match taker loc,s.queue loc with
      | some t,k::q =>
          let s := (s.setQueue loc q).setHist k {s.hist k with place := .queued (.enter t)}
          some (s.setQueue (.enter t) (s.queue (.enter t)++[k]))
      | _,_ => none
  | .cont t r =>
      match s.pc t with
      | some (k,.inl op) =>
          let o := runApi t (s.ele k) op
          some ((((s.setEle k o.ele).push k o.push).setHist k (histApi (s.hist k) op o)).setPc t
            (o.next.map fun op => (k,.inl op)))
      | some (k,.inr op) =>
          let o := runEng t r (s.ele k) op
          some ((((s.setEle k o.ele).push k o.push).setHist k (histEng (s.hist k) t r op o)).setPc t
            (o.next.map fun op => (k,.inr op)))
      | none => none

/-! ### One CTC of the system -/

def apiOf (k : κ) : Option (κ × Op) → Option ApiOp
  | some (k',.inl op) => if k'=k then some op else none
  | _ => none
def engOf (k : κ) : Option (κ × Op) → Option EngOp
  | some (k',.inr op) => if k'=k then some op else none
  | _ => none

def life (s : Sys ι κ) (k : κ) : Life ι where
  e := s.ele k
  h := s.hist k
  api := apiOf k (s.pc (s.hist k).owner)
  eng := match (s.hist k).place with
    | .run t => engOf k (s.pc t)
    | _ => none

/-- What an act is for one CTC, none when it is about another. -/
def lbl (s : Sys ι κ) (k : κ) : Act ι κ → Option (Lbl ι)
  | .new t k' => if k'=k then some (.new t) else none
  | .ref _ k' => if k'=k then some .ref else none
  | .add _ k' asc toid detach => if k'=k then some (.add asc toid detach) else none
  | .cancel _ k' ret => if k'=k then some (.cancel ret) else none
  | .del _ k' => if k'=k then some .del else none
  | .endCtc _ k' err => if k'=k then some (.endCtc err) else none
  | .reto _ k' toid => if k'=k then some (.reto toid) else none
  | .pop t => if (s.queue (.enter t)).head?=some k then some .pop else none
  | .popReady t => if (s.queue (.ready t)).head?=some k then some .popReady else none
  | .deliver loc => if (s.queue loc).head?=some k then some .deliver else none
  | .cont t r =>
      match s.pc t with
      | some (k',.inl _) => if k'=k then some .api else none
      | some (k',.inr _) => if k'=k then some (.eng r) else none
      | none => none

/-- The deques and the program counters agree with the CTC's place. -/
structure Placed (s : Sys ι κ) (k : κ) : Prop where
  count : ∀ loc,(s.queue loc).count k=if (s.hist k).place=.queued loc then 1 else 0
  api : ∀ t,apiOf k (s.pc t)≠none → t=(s.hist k).owner
  eng : ∀ t,engOf k (s.pc t)≠none ↔ (s.hist k).place=.run t
  born : (s.hist k).born=false → (s.hist k).place=.idle ∧ ∀ t,apiOf k (s.pc t)=none

section Updates
variable (s : Sys ι κ) (k : κ) (e : Ele ι) (h : Hist ι) (t : Thread ι) (op : Option (κ × Op)) (loc : Loc ι) (q : List κ)
  (p : Option (Loc ι))

@[simp] theorem setEle_ele : (s.setEle k e).ele=Function.update s.ele k e := rfl
@[simp] theorem setEle_queue : (s.setEle k e).queue=s.queue := rfl
@[simp] theorem setEle_pc : (s.setEle k e).pc=s.pc := rfl
@[simp] theorem setEle_hist : (s.setEle k e).hist=s.hist := rfl
@[simp] theorem setHist_ele : (s.setHist k h).ele=s.ele := rfl
@[simp] theorem setHist_queue : (s.setHist k h).queue=s.queue := rfl
@[simp] theorem setHist_pc : (s.setHist k h).pc=s.pc := rfl
@[simp] theorem setHist_hist : (s.setHist k h).hist=Function.update s.hist k h := rfl
@[simp] theorem setPc_ele : (s.setPc t op).ele=s.ele := rfl
@[simp] theorem setPc_queue : (s.setPc t op).queue=s.queue := rfl
@[simp] theorem setPc_pc : (s.setPc t op).pc=Function.update s.pc t op := rfl
@[simp] theorem setPc_hist : (s.setPc t op).hist=s.hist := rfl
@[simp] theorem setQueue_ele : (s.setQueue loc q).ele=s.ele := rfl
@[simp] theorem setQueue_queue : (s.setQueue loc q).queue=Function.update s.queue loc q := rfl
@[simp] theorem setQueue_pc : (s.setQueue loc q).pc=s.pc := rfl
@[simp] theorem setQueue_hist : (s.setQueue loc q).hist=s.hist := rfl
@[simp] theorem push_ele : (s.push k p).ele=s.ele := by cases p <;> rfl
@[simp] theorem push_pc : (s.push k p).pc=s.pc := by cases p <;> rfl
@[simp] theorem push_hist : (s.push k p).hist=s.hist := by cases p <;> rfl
end Updates

@[simp] theorem apiOf_none (k : κ) : apiOf k none=none := rfl
@[simp] theorem engOf_none (k : κ) : engOf k none=none := rfl
@[simp] theorem apiOf_inr (k k' : κ) (op : EngOp) : apiOf k (some (k',.inr op))=none := rfl
@[simp] theorem engOf_inl (k k' : κ) (op : ApiOp) : engOf k (some (k',.inl op))=none := rfl
@[simp] theorem apiOf_inl (k : κ) (op : ApiOp) : apiOf k (some (k,.inl op))=some op := if_pos rfl
@[simp] theorem engOf_inr (k : κ) (op : EngOp) : engOf k (some (k,.inr op))=some op := if_pos rfl
theorem apiOf_ne {k k' : κ} (op : Op) (h : k'≠k) : apiOf k (some (k',op))=none := by
  cases op with
  | inl op => exact if_neg h
  | inr op => rfl
theorem engOf_ne {k k' : κ} (op : Op) (h : k'≠k) : engOf k (some (k',op))=none := by
  cases op with
  | inl op => rfl
  | inr op => exact if_neg h
@[simp] theorem apiOf_map_inl (k : κ) (op : Option ApiOp) : apiOf k (op.map fun op => (k,.inl op))=op := by
  cases op <;> simp
@[simp] theorem engOf_map_inl (k k' : κ) (op : Option ApiOp) :
    engOf k (op.map fun op => (k',.inl op))=none := by cases op <;> rfl
@[simp] theorem engOf_map_inr (k : κ) (op : Option EngOp) : engOf k (op.map fun op => (k,.inr op))=op := by
  cases op <;> simp
@[simp] theorem apiOf_map_inr (k k' : κ) (op : Option EngOp) :
    apiOf k (op.map fun op => (k',.inr op))=none := by cases op <;> rfl

theorem count_deqPushBack_ne {k k' : κ} (q : List κ) (h : k'≠k) : (deqPushBack q k').count k=q.count k := by
  unfold deqPushBack
  split
  · rfl
  · simp [List.count_append,h]

theorem push_count_ne (s : Sys ι κ) {k k' : κ} (p : Option (Loc ι)) (h : k'≠k) (loc : Loc ι) :
    ((s.push k' p).queue loc).count k=(s.queue loc).count k := by
  cases p with
  | none => rfl
  | some loc' =>
    simp only [Sys.push,setQueue_queue]
    by_cases hl : loc=loc'
    · subst hl; rw [Function.update_self,count_deqPushBack_ne _ h]
    · rw [Function.update_of_ne hl]

/-- Steps that leave the queues, the threads and the place as they were. -/
theorem keeps {s u : Sys ι κ} {k : κ} (hp : Placed s k) (ho : (u.hist k).owner=(s.hist k).owner)
    (hb : (u.hist k).born=(s.hist k).born) (hl : (u.hist k).place=(s.hist k).place)
    (hq : ∀ loc,(u.queue loc).count k=(s.queue loc).count k)
    (hpc : ∀ t,apiOf k (u.pc t)=apiOf k (s.pc t) ∧ engOf k (u.pc t)=engOf k (s.pc t)) :
    Placed u k ∧ life u k={life s k with e := u.ele k, h := u.hist k} := by
  refine ⟨⟨fun loc => ?_,fun t => ?_,fun t => ?_,fun hb' => ?_⟩,?_⟩
  · rw [hq,hl,hp.count]
  · rw [(hpc t).1,ho]; exact hp.api t
  · rw [(hpc t).2,hl]; exact hp.eng t
  · rw [hb] at hb'
    rw [hl]
    exact ⟨(hp.born hb').1,fun t => by rw [(hpc t).1]; exact (hp.born hb').2 t⟩
  · simp only [life,ho,hl,(hpc _).1]
    congr 1
    cases (s.hist k).place <;> simp only [(hpc _).2]

theorem frame {s u : Sys ι κ} {k : κ} (hp : Placed s k) (he : u.ele k=s.ele k) (hh : u.hist k=s.hist k)
    (hq : ∀ loc,(u.queue loc).count k=(s.queue loc).count k)
    (hpc : ∀ t,apiOf k (u.pc t)=apiOf k (s.pc t) ∧ engOf k (u.pc t)=engOf k (s.pc t)) :
    Placed u k ∧ life u k=life s k := by
  have hk := keeps hp (by rw [hh]) (by rw [hh]) (by rw [hh]) hq hpc
  exact ⟨hk.1,by rw [hk.2,he,hh]; rfl⟩

/-- Steps in which thread `t` goes on to `o` about the CTC. -/
theorem moves {s u : Sys ι κ} {k : κ} {t : Thread ι} {o : Option (κ × Op)} (hp : Placed s k)
    (ho : (u.hist k).owner=(s.hist k).owner) (hb : (u.hist k).born=true) (hpc : u.pc=Function.update s.pc t o)
    (hq : ∀ loc,(u.queue loc).count k=if (u.hist k).place=.queued loc then 1 else 0)
    (hapi : apiOf k o≠none → t=(s.hist k).owner)
    (heng : ∀ t',engOf k (Function.update s.pc t o t')≠none ↔ (u.hist k).place=.run t') :
    Placed u k ∧ life u k={
      e := u.ele k
      h := u.hist k
      api := if t=(s.hist k).owner then apiOf k o else (life s k).api
      eng := match (u.hist k).place with
        | .run t' => engOf k (Function.update s.pc t o t')
        | _ => none} := by
  refine ⟨⟨hq,fun t' => ?_,fun t' => by rw [hpc]; exact heng t',fun hb' => by rw [hb] at hb'; cases hb'⟩,?_⟩
  · rw [hpc,ho]
    by_cases ht : t'=t
    · subst ht; rw [Function.update_self]; exact hapi
    · rw [Function.update_of_ne ht]; exact hp.api t'
  · simp only [life,hpc,ho]
    congr 1
    by_cases ht : t=(s.hist k).owner
    · subst ht; rw [Function.update_self,if_pos rfl]
    · rw [Function.update_of_ne (fun h => ht h.symm),if_neg ht]

/-- Only thread `t` moves, and neither before nor after is it about `k`. -/
theorem pc_frame {s : Sys ι κ} {k : κ} {t : Thread ι} {op : Option (κ × Op)}
    (hb : apiOf k (s.pc t)=none ∧ engOf k (s.pc t)=none) (ha : apiOf k op=none ∧ engOf k op=none) (t' : Thread ι) :
    apiOf k (Function.update s.pc t op t')=apiOf k (s.pc t') ∧
    engOf k (Function.update s.pc t op t')=engOf k (s.pc t') := by
  by_cases ht : t'=t
  · subst ht
    rw [Function.update_self,ha.1,ha.2,hb.1,hb.2]
    exact ⟨rfl,rfl⟩
  · rw [Function.update_of_ne ht]; exact ⟨rfl,rfl⟩

/-! ### Every step follows the life of every CTC -/

def Follows (x y : Life ι) : Option (Lbl ι) → Prop
  | none => y=x
  | some l => x.step l=some y

/-- The owner's thread is about to push a CTC that somebody else has. -/
def Relinks (x : Life ι) : Lbl ι → Prop
  | .api => ∃ op,x.api=some op ∧ (runApi x.h.owner x.e op).push≠none ∧ x.h.place≠.idle
  | _ => False

theorem histApi_place (h : Hist ι) (op : ApiOp) (o : Out ι ApiOp) :
    (histApi h op o).place=match o.push with | some loc => .queued loc | none => h.place := by
  cases hp : o.push <;> simp only [histApi,hp] <;> rfl

theorem owns_free {s : Sys ι κ} {k : κ} {t : Thread ι} (hp : Placed s k) (h : owns s t k) :
    (s.hist k).born=true ∧ (life s k).free (s.hist k).owner := by
  obtain ⟨hpc,hb,rfl⟩ := h
  refine ⟨hb,fun _ => by simp [life,hpc],fun hrun => ?_⟩
  have hne := (hp.eng (s.hist k).owner).mpr hrun
  simp [hpc] at hne

theorem idle_pc {s : Sys ι κ} {k : κ} {t : Thread ι} (hp : Placed s k) (hpc : s.pc t=none) :
    (life s k).free t := by
  refine ⟨fun ht => ?_,fun hrun => ?_⟩
  · simp only [life] at ht
    simp [life,←ht,hpc]
  · have hne := (hp.eng t).mpr hrun
    simp [hpc] at hne

theorem count_other {s : Sys ι κ} {k k' : κ} {loc : Loc ι} {q : List κ} (hq : s.queue loc=k'::q) (hk : k'≠k)
    (loc' : Loc ι) : (Function.update s.queue loc q loc').count k=(s.queue loc').count k := by
  by_cases hl : loc'=loc
  · subst hl; simp [hq,hk]
  · rw [Function.update_of_ne hl]

theorem step_other {s u : Sys ι κ} {a : Act ι κ} {k : κ} (hp : Placed s k) (h : step s a=some u)
    (hl : lbl s k a=none) : Placed u k ∧ life u k=life s k := by
  have hop {t : Thread ι} (hpc : s.pc t=none) : apiOf k (s.pc t)=none ∧ engOf k (s.pc t)=none := by
    rw [hpc]; exact ⟨rfl,rfl⟩
  have hat {k' : κ} (hk : k'≠k) (op : Op) : apiOf k (some (k',op))=none ∧ engOf k (some (k',op))=none :=
    ⟨apiOf_ne op hk,engOf_ne op hk⟩
  cases a with
  | new t k' | ref t k' =>
    have hk : k'≠k := by intro hk; simp [lbl,hk] at hl
    simp only [step] at h
    split at h <;> cases h
    exact frame hp (by simp [Function.update_of_ne (Ne.symm hk)]) (by simp [Function.update_of_ne (Ne.symm hk)])
      (fun _ => rfl) (fun _ => ⟨rfl,rfl⟩)
  | add t k' asc toid detach =>
    have hk : k'≠k := by intro hk; simp [lbl,hk] at hl
    simp only [step] at h
    split at h
    · rename_i hg
      split at h
      · cases h
        exact frame hp rfl (by simp [Function.update_of_ne (Ne.symm hk)]) (fun _ => rfl) (fun _ => ⟨rfl,rfl⟩)
      · split at h <;> cases h
        · exact frame hp (by simp [Function.update_of_ne (Ne.symm hk)])
            (by simp [Function.update_of_ne (Ne.symm hk)]) (fun _ => rfl) (pc_frame (hop hg.1.1) (hat hk _))
        · exact frame hp (by simp [Function.update_of_ne (Ne.symm hk)])
            (by simp [Function.update_of_ne (Ne.symm hk)]) (fun _ => rfl) (fun _ => ⟨rfl,rfl⟩)
    · cases h
  | cancel t k' ret =>
    have hk : k'≠k := by intro hk; simp [lbl,hk] at hl
    simp only [step] at h
    split at h <;> cases h
    rename_i hg
    exact frame hp rfl rfl (fun _ => rfl) (pc_frame (hop hg.1) (hat hk _))
  | del t k' =>
    have hk : k'≠k := by intro hk; simp [lbl,hk] at hl
    simp only [step] at h
    split at h <;> cases h
    rename_i hg
    exact frame hp rfl rfl (fun _ => rfl) (pc_frame (hop hg.1.1) (hat hk _))
  | endCtc t k' err =>
    have hk : k'≠k := by intro hk; simp [lbl,hk] at hl
    simp only [step] at h
    split at h
    · rename_i hg
      split at h <;> cases h
      · exact frame hp rfl (by simp [Function.update_of_ne (Ne.symm hk)]) (fun _ => rfl)
          (pc_frame (hop hg.1) (hat hk _))
      · exact frame hp rfl (by simp [Function.update_of_ne (Ne.symm hk)]) (fun _ => rfl) (fun _ => ⟨rfl,rfl⟩)
    · cases h
  | reto t k' toid =>
    have hk : k'≠k := by intro hk; simp [lbl,hk] at hl
    simp only [step] at h
    split at h
    · split at h <;> cases h
      · exact frame hp (by simp [Function.update_of_ne (Ne.symm hk)])
          (by simp [Function.update_of_ne (Ne.symm hk)]) (fun _ => rfl) (fun _ => ⟨rfl,rfl⟩)
      · exact frame hp rfl (by simp [Function.update_of_ne (Ne.symm hk)]) (fun _ => rfl) (fun _ => ⟨rfl,rfl⟩)
    · cases h
  | pop t | popReady t =>
    simp only [step] at h
    split at h
    · rename_i k' q hpc hq
      have hk : k'≠k := by rintro rfl; simp [lbl,hq] at hl
      cases h
      exact frame hp rfl (by simp [Function.update_of_ne (Ne.symm hk)]) (count_other hq hk)
        (pc_frame (hop hpc) (hat hk _))
    · cases h
  | deliver loc =>
    simp only [step] at h
    split at h
    · rename_i t k' q hpc hq
      have hk : k'≠k := by rintro rfl; simp [lbl,hq] at hl
      cases h
      refine frame hp rfl (by simp [Function.update_of_ne (Ne.symm hk)]) (fun loc' => ?_) (fun _ => ⟨rfl,rfl⟩)
      simp only [setQueue_queue,setHist_queue]
      by_cases hl' : loc'=.enter t
      · subst hl'
        rw [Function.update_self,List.count_append,count_other hq hk]
        simp [hk]
      · rw [Function.update_of_ne hl',count_other hq hk]
    · cases h
  | cont t r =>
    simp only [step] at h
    split at h
    · rename_i k' op hpc
      have hk : k'≠k := by rintro rfl; simp [lbl,hpc] at hl
      cases h
      refine frame hp (by simp [Function.update_of_ne (Ne.symm hk)]) (by simp [Function.update_of_ne (Ne.symm hk)])
        (fun loc => push_count_ne _ _ hk loc) ?_
      simp only [setPc_pc,setHist_pc,push_pc,setEle_pc]
      refine pc_frame (by rw [hpc]; exact hat hk _) ?_
      cases (runApi t (s.ele k') op).next <;> first | exact ⟨rfl,rfl⟩ | exact hat hk _
    · rename_i k' op hpc
      have hk : k'≠k := by rintro rfl; simp [lbl,hpc] at hl
      cases h
      refine frame hp (by simp [Function.update_of_ne (Ne.symm hk)]) (by simp [Function.update_of_ne (Ne.symm hk)])
        (fun loc => push_count_ne _ _ hk loc) ?_
      simp only [setPc_pc,setHist_pc,push_pc,setEle_pc]
      refine pc_frame (by rw [hpc]; exact hat hk _) ?_
      cases (runEng t r (s.ele k') op).next <;> first | exact ⟨rfl,rfl⟩ | exact hat hk _
    · cases h

theorem lbl_key {k k' : κ} {l l' : Lbl ι} (h : (if k'=k then some l else none)=some l') : k'=k ∧ l=l' := by
  split at h
  · exact ⟨‹_›,Option.some.inj h⟩
  · cases h

theorem own_new {s u : Sys ι κ} {t : Thread ι} {k : κ} (hp : Placed s k) (h : step s (.new t k)=some u) :
    Placed u k ∧ (life s k).step (.new t)=some (life u k) := by
  simp only [step] at h
  split at h <;> cases h
  rename_i hg
  obtain ⟨hplace,hapi⟩ := hp.born hg.2
  have heng (t : Thread ι) : engOf k (s.pc t)=none := by
    by_contra hne
    have hrun := (hp.eng t).mp hne
    rw [hplace] at hrun
    cases hrun
  refine ⟨⟨fun loc => ?_,fun t' h => ?_,fun t' => ?_,fun hb => ?_⟩,?_⟩
  · simpa [hplace] using hp.count loc
  · exact (h (hapi t')).elim
  · simp [heng]
  · simp at hb
  · simp [Life.step,life,hg.2,hapi,hplace]

theorem own_ref {s u : Sys ι κ} {t : Thread ι} {k : κ} (hp : Placed s k) (h : step s (.ref t k)=some u) :
    Placed u k ∧ (life s k).step .ref=some (life u k) := by
  simp only [step] at h
  split at h <;> cases h
  rename_i hg
  have hf := owns_free hp hg.1
  have hk := keeps (u := (s.setEle k {s.ele k with refc := (s.ele k).refc+1}).setHist k (s.hist k).touch)
    hp (by simp [Hist.touch]) (by simp [Hist.touch]) (by simp [Hist.touch]) (fun _ => rfl) (fun _ => ⟨rfl,rfl⟩)
  refine ⟨hk.1,?_⟩
  rw [hk.2]
  simp only [Life.step]
  rw [if_pos ⟨hf.1,hf.2,hg.2⟩]
  simp [life]

/-- The owner's thread enters a function about the CTC. -/
theorem own_enter {s u : Sys ι κ} {t : Thread ι} {k : κ} (op : ApiOp) (hp : Placed s k) (hg : owns s t k)
    (ho : (u.hist k).owner=(s.hist k).owner) (hb : (u.hist k).born=(s.hist k).born)
    (hl : (u.hist k).place=(s.hist k).place) (hq : u.queue=s.queue)
    (hpc : u.pc=Function.update s.pc t (some (k,.inl op))) :
    Placed u k ∧ life u k={life s k with e := u.ele k, h := u.hist k, api := some op} := by
  obtain ⟨hidle,hborn,howner⟩ := hg
  have heng (t' : Thread ι) : engOf k (Function.update s.pc t (some (k,.inl op)) t')=engOf k (s.pc t') := by
    by_cases ht : t'=t
    · subst ht; simp [hidle]
    · rw [Function.update_of_ne ht]
  have hm := moves hp ho (hb.trans hborn) hpc (fun loc => by rw [hq,hl]; exact hp.count loc)
    (fun _ => howner.symm) (fun t' => by rw [heng,hp.eng t',hl])
  refine ⟨hm.1,?_⟩
  rw [hm.2]
  simp only [life,howner,if_true,apiOf_inl,hl]
  congr 1
  cases (s.hist k).place <;> simp only [heng]

theorem own_add {s u : Sys ι κ} {t : Thread ι} {k : κ} {asc : Asc} {toid : Thread ι} {detach : Bool}
    (hp : Placed s k) (h : step s (.add t k asc toid detach)=some u) :
    Placed u k ∧ (life s k).step (.add asc toid detach)=some (life u k) := by
  simp only [step] at h
  split at h
  · rename_i hg
    have hf := owns_free hp hg.1
    have ho : (s.hist k).owner=t := hg.1.2.2
    have hg' : (life s k).h.born=true ∧ (life s k).free (life s k).h.owner ∧ (life s k).e.refc≠0 :=
      ⟨hf.1,hf.2,hg.2⟩
    simp only [Life.step,if_pos hg']
    split at h
    · rename_i hd
      cases h
      have hk := keeps (u := s.setHist k (s.hist k).touch) hp (by simp [Hist.touch]) (by simp [Hist.touch])
        (by simp [Hist.touch]) (fun _ => rfl) (fun _ => ⟨rfl,rfl⟩)
      refine ⟨hk.1,?_⟩
      rw [hk.2]
      simp [life,hd]
    · rename_i hd
      split at h
      · rename_i hc
        have hs := (Option.some.inj h).symm
        have hk := own_enter (u := u) .addCommit hp hg.1 (by simp [hs,Hist.touch,Hist.submit])
          (by simp [hs,Hist.touch,Hist.submit]) (by simp [hs,Hist.touch,Hist.submit]) (by simp [hs]) (by simp [hs])
        refine ⟨hk.1,?_⟩
        rw [hk.2,hs]
        simp [life,hd,hc,ho]
      · rename_i hc
        cases h
        have hk := keeps (u := (s.setHist k (s.hist k).touch).setEle k {s.ele k with ret := asc.prep (s.ele k).stat})
          hp (by simp [Hist.touch]) (by simp [Hist.touch]) (by simp [Hist.touch]) (fun _ => rfl) (fun _ => ⟨rfl,rfl⟩)
        refine ⟨hk.1,?_⟩
        rw [hk.2]
        simp [life,hd,hc]
  · cases h

theorem own_cancel {s u : Sys ι κ} {t : Thread ι} {k : κ} {ret : Dpret} (hp : Placed s k)
    (h : step s (.cancel t k ret)=some u) : Placed u k ∧ (life s k).step (.cancel ret)=some (life u k) := by
  simp only [step] at h
  split at h <;> cases h
  rename_i hg
  have hf := owns_free hp hg
  have hk := own_enter (u := s.setPc t (some (k,.inl (.endTest ret)))) (.endTest ret) hp hg rfl rfl rfl rfl rfl
  refine ⟨hk.1,?_⟩
  rw [hk.2]
  simp only [Life.step]
  exact if_pos hf

theorem own_del {s u : Sys ι κ} {t : Thread ι} {k : κ} (hp : Placed s k) (h : step s (.del t k)=some u) :
    Placed u k ∧ (life s k).step .del=some (life u k) := by
  simp only [step] at h
  split at h <;> cases h
  rename_i hg
  have hf := owns_free hp hg.1
  have hk := own_enter (u := s.setPc t (some (k,.inl .delUnref))) .delUnref hp hg.1 rfl rfl rfl rfl rfl
  refine ⟨hk.1,?_⟩
  rw [hk.2]
  simp only [Life.step]
  exact if_pos ⟨hf.1,hf.2,hg.2⟩

/-- A thread takes up a CTC that no thread is working on. -/
theorem own_take {s u : Sys ι κ} {t : Thread ι} {k : κ} (op : EngOp) (hp : Placed s k) (hidle : s.pc t=none)
    (hrun : ∀ t',(s.hist k).place≠.run t') (hborn : (s.hist k).born=true)
    (ho : (u.hist k).owner=(s.hist k).owner) (hb : (u.hist k).born=(s.hist k).born)
    (hl : (u.hist k).place=.run t) (hq : ∀ loc,(u.queue loc).count k=0)
    (hpc : u.pc=Function.update s.pc t (some (k,.inr op))) :
    Placed u k ∧ life u k={life s k with e := u.ele k, h := u.hist k, eng := some op} := by
  have hm := moves hp ho (hb.trans hborn) hpc (fun loc => by rw [hq,hl]; simp) (fun h => (h rfl).elim)
    (fun t' => by
      rw [hl]
      by_cases ht : t'=t
      · subst ht; simp
      · rw [Function.update_of_ne ht,hp.eng t']
        exact ⟨fun h => (hrun t' h).elim,fun h => (ht (Place.run.inj h).symm).elim⟩)
  refine ⟨hm.1,?_⟩
  rw [hm.2]
  simp only [hl,Function.update_self,engOf_inr,apiOf_inr]
  congr 1
  by_cases ht : t=(s.hist k).owner
  · simp [life,←ht,hidle]
  · rw [if_neg ht]

theorem placed_born {s : Sys ι κ} {k : κ} (hp : Placed s k) (h : (s.hist k).place≠.idle) :
    (s.hist k).born=true := by
  by_contra hb
  exact h (hp.born (by simpa using hb)).1

theorem own_endCtc {s u : Sys ι κ} {t : Thread ι} {k : κ} {err : Dpret} (hp : Placed s k)
    (h : step s (.endCtc t k err)=some u) : Placed u k ∧ (life s k).step (.endCtc err)=some (life u k) := by
  simp only [step] at h
  split at h
  · rename_i hg
    have hheld : (life s k).h.place=.held t := hg.2
    have hfree := idle_pc hp hg.1
    simp only [Life.step,hheld,if_pos hfree]
    split at h
    · rename_i hd
      have hs := (Option.some.inj h).symm
      have hk := own_take (u := u) (.finRet err) hp hg.1 (fun t' => by rw [hg.2]; simp)
        (placed_born hp (by rw [hg.2]; simp)) (by simp [hs,Hist.touch]) (by simp [hs,Hist.touch]) (by simp [hs])
        (fun loc => by have := hp.count loc; simpa [hs,hg.2] using this) (by simp [hs])
      refine ⟨hk.1,?_⟩
      rw [hk.2,hs]
      rw [setHist_ele] at hd
      simp [life,hd]
    · rename_i hd
      cases h
      have hk := keeps (u := s.setHist k (s.hist k).touch) hp (by simp [Hist.touch]) (by simp [Hist.touch])
        (by simp [Hist.touch]) (fun _ => rfl) (fun _ => ⟨rfl,rfl⟩)
      refine ⟨hk.1,?_⟩
      rw [hk.2]
      rw [setHist_ele] at hd
      simp [life,hd]
  · cases h

theorem own_reto {s u : Sys ι κ} {t : Thread ι} {k : κ} {toid : Thread ι} (hp : Placed s k)
    (h : step s (.reto t k toid)=some u) : Placed u k ∧ (life s k).step (.reto toid)=some (life u k) := by
  simp only [step] at h
  split at h
  · rename_i hg
    have hheld : (life s k).h.place=.held t := hg.2
    have hfree := idle_pc hp hg.1
    simp only [Life.step,hheld,if_pos hfree]
    split at h
    · rename_i hr
      cases h
      have hk := keeps (u := (s.setHist k (s.hist k).touch).setEle k {s.ele k with toid := toid, isReto := true}) hp
        (by simp [Hist.touch]) (by simp [Hist.touch]) (by simp [Hist.touch]) (fun _ => rfl) (fun _ => ⟨rfl,rfl⟩)
      refine ⟨hk.1,?_⟩
      rw [hk.2]
      simp [life,hr]
    · rename_i hr
      cases h
      have hk := keeps (u := s.setHist k (s.hist k).touch) hp (by simp [Hist.touch]) (by simp [Hist.touch])
        (by simp [Hist.touch]) (fun _ => rfl) (fun _ => ⟨rfl,rfl⟩)
      refine ⟨hk.1,?_⟩
      rw [hk.2]
      simp [life,hr]
  · cases h

/-- The head of a deque has its place there, and nowhere else. -/
theorem head_place {s : Sys ι κ} {k : κ} {loc : Loc ι} {q : List κ} (hp : Placed s k) (hq : s.queue loc=k::q) :
    (s.hist k).place=.queued loc ∧ ∀ loc',(Function.update s.queue loc q loc').count k=0 := by
  have hc := hp.count loc
  rw [hq,List.count_cons_self] at hc
  have hl : (s.hist k).place=.queued loc := by
    by_contra hne
    rw [if_neg hne] at hc
    omega
  refine ⟨hl,fun loc' => ?_⟩
  rw [if_pos hl] at hc
  by_cases hloc : loc'=loc
  · subst hloc
    rw [Function.update_self]
    omega
  · rw [Function.update_of_ne hloc,hp.count loc',hl]
    exact if_neg (fun h => hloc (Place.queued.inj h).symm)

theorem own_pop {s u : Sys ι κ} {t : Thread ι} {k : κ} {q : List κ} (hp : Placed s k)
    (hq : s.queue (.enter t)=k::q) (h : step s (.pop t)=some u) :
    Placed u k ∧ (life s k).step .pop=some (life u k) := by
  obtain ⟨hl,hcount⟩ := head_place hp hq
  simp only [step,hq] at h
  split at h
  · rename_i hpc hq'
    cases hq'
    have hs := (Option.some.inj h).symm
    have hk := own_take (u := u) .reap hp hpc (fun t' => by rw [hl]; simp) (placed_born hp (by rw [hl]; simp))
      (by simp [hs]) (by simp [hs]) (by simp [hs]) (fun loc => by rw [hs]; exact hcount loc) (by simp [hs])
    refine ⟨hk.1,?_⟩
    rw [hk.2,hs]
    have hplace : (life s k).h.place=.queued (.enter t) := hl
    simp only [Life.step,hplace,if_pos (idle_pc hp hpc)]
    simp [life]
  · cases h

theorem own_popReady {s u : Sys ι κ} {t : Thread ι} {k : κ} {q : List κ} (hp : Placed s k)
    (hq : s.queue (.ready t)=k::q) (h : step s (.popReady t)=some u) :
    Placed u k ∧ (life s k).step .popReady=some (life u k) := by
  obtain ⟨hl,hcount⟩ := head_place hp hq
  simp only [step,hq] at h
  split at h
  · rename_i hpc hq'
    cases hq'
    have hs := (Option.some.inj h).symm
    have hk := own_take (u := u) .ascOver hp hpc (fun t' => by rw [hl]; simp) (placed_born hp (by rw [hl]; simp))
      (by simp [hs]) (by simp [hs]) (by simp [hs]) (fun loc => by rw [hs]; exact hcount loc) (by simp [hs])
    refine ⟨hk.1,?_⟩
    rw [hk.2,hs]
    have hplace : (life s k).h.place=.queued (.ready t) := hl
    simp only [Life.step,hplace,if_pos (idle_pc hp hpc)]
    simp [life]
  · cases h

theorem own_deliver {s u : Sys ι κ} {loc : Loc ι} {k : κ} {q : List κ} (hp : Placed s k)
    (hq : s.queue loc=k::q) (h : step s (.deliver loc)=some u) :
    Placed u k ∧ (life s k).step .deliver=some (life u k) := by
  obtain ⟨hl,hcount⟩ := head_place hp hq
  have hplace : (life s k).h.place=.queued loc := hl
  simp only [step,hq] at h
  split at h
  · rename_i t _ _ htk hq'
    cases hq'
    have hs := (Option.some.inj h).symm
    have hrun (t' : Thread ι) : engOf k (s.pc t')=none := by
      by_contra hne
      have := (hp.eng t').mp hne
      rw [hl] at this
      cases this
    refine ⟨⟨fun loc' => ?_,fun t' => ?_,fun t' => ?_,fun hb => ?_⟩,?_⟩
    · simp only [hs,setQueue_queue,setHist_queue,setQueue_hist,setHist_hist,Function.update_self]
      by_cases hloc : loc'=.enter t
      · subst hloc
        rw [Function.update_self,List.count_append,hcount]
        simp
      · rw [Function.update_of_ne hloc,hcount,if_neg (fun h => hloc (Place.queued.inj h).symm)]
    · simpa [hs] using hp.api t'
    · simp [hs,hrun]
    · have := placed_born hp (by rw [hl]; simp)
      simp [hs,this] at hb
    · have hlife : life u k={life s k with h := {s.hist k with place := .queued (.enter t)}} := by
        simp [life,hs,hl]
      rw [hlife]
      cases loc with
      | commit w => cases htk; simp only [Life.step,hplace]; rfl
      | accept w => cases htk; simp only [Life.step,hplace]; rfl
      | enter | ready => cases htk
  · cases h

/-- Where a CTC that was in no deque is after a push. -/
theorem push_count {s : Sys ι κ} {k : κ} (p : Option (Loc ι)) (h0 : ∀ loc,(s.queue loc).count k=0) (loc : Loc ι) :
    ((s.push k p).queue loc).count k=if p=some loc then 1 else 0 := by
  cases p with
  | none => simpa [Sys.push] using h0 loc
  | some loc' =>
    have hmem : k∉s.queue loc' := List.count_eq_zero.mp (h0 loc')
    simp only [Sys.push,setQueue_queue,deqPushBack,if_neg hmem]
    by_cases hl : loc=loc'
    · subst hl; simp [h0]
    · rw [Function.update_of_ne hl,h0,if_neg (fun h => hl (Option.some.inj h).symm)]

theorem own_api {s u : Sys ι κ} {t : Thread ι} {r : Dpret} {k : κ} {op : ApiOp} (hp : Placed s k)
    (hpc : s.pc t=some (k,.inl op)) (hsafe : ¬Relinks (life s k) .api) (h : step s (.cont t r)=some u) :
    Placed u k ∧ (life s k).step .api=some (life u k) := by
  obtain rfl : t=(s.hist k).owner := hp.api t (by simp [hpc])
  have hborn : (s.hist k).born=true := by
    by_contra hb
    have := (hp.born (by simpa using hb)).2 (s.hist k).owner
    simp [hpc] at this
  have hapi : (life s k).api=some op := by simp [life,hpc]
  simp only [step,hpc] at h
  have hs := (Option.some.inj h).symm
  set o := runApi (s.hist k).owner (s.ele k) op with ho
  have hidle : o.push≠none → (s.hist k).place=.idle := fun hpush => by
    by_contra hne
    exact hsafe ⟨op,hapi,hpush,hne⟩
  have hplace : (u.hist k).place=match o.push with | some loc => .queued loc | none => (s.hist k).place := by
    simp only [hs,setPc_hist,setHist_hist,Function.update_self,histApi_place]
  have hrun (t' : Thread ι) : engOf k (Function.update s.pc (s.hist k).owner (o.next.map fun op => (k,.inl op)) t')=
      engOf k (s.pc t') := by
    by_cases ht : t'=(s.hist k).owner
    · subst ht; simp [hpc]
    · rw [Function.update_of_ne ht]
  have hnone (hi : (s.hist k).place=.idle) (t' : Thread ι) : engOf k (s.pc t')=none := by
    by_contra hne
    have := (hp.eng t').mp hne
    rw [hi] at this
    cases this
  have hm := moves (u := u) (t := (s.hist k).owner) (o := o.next.map fun op => (k,.inl op)) hp
    (by simp [hs,histApi,Hist.free,Hist.touch]) (by simp [hs,histApi,Hist.free,Hist.touch,hborn]) (by simp [hs])
    (fun loc => by
      have hq : u.queue=(s.push k o.push).queue := by cases hpush : o.push <;> simp [hs,Sys.push,hpush]
      rw [hq,hplace]
      cases hpush : o.push with
      | none => exact hp.count loc
      | some loc' =>
        have hi := hidle (by simp [hpush])
        rw [push_count _ (fun loc => by simpa [hi] using hp.count loc)]
        simp)
    (fun _ => rfl)
    (fun t' => by
      rw [hrun,hplace]
      cases hpush : o.push with
      | none => exact hp.eng t'
      | some loc' => simp [hnone (hidle (by simp [hpush]))])
  refine ⟨hm.1,?_⟩
  rw [hm.2]
  simp only [Life.step,hapi,if_true,apiOf_map_inl]
  congr 2
  · simp [hs,ho,life]
  · simp [hs,ho,life]
  · simp only [life,hplace]
    cases hpush : o.push with
    | none => cases (s.hist k).place <;> simp only [hrun]
    | some loc' => rw [hidle (by simp [hpush])]

theorem own_eng {s u : Sys ι κ} {t : Thread ι} {r : Dpret} {k : κ} {op : EngOp} (hp : Placed s k)
    (hpc : s.pc t=some (k,.inr op)) (h : step s (.cont t r)=some u) :
    Placed u k ∧ (life s k).step (.eng r)=some (life u k) := by
  have hrun : (s.hist k).place=.run t := (hp.eng t).mp (by simp [hpc])
  have hborn := placed_born hp (by rw [hrun]; simp)
  have heng : (life s k).eng=some op := by simp [life,hrun,hpc]
  have hplace : (life s k).h.place=.run t := hrun
  simp only [step,hpc] at h
  have hs := (Option.some.inj h).symm
  set o := runEng t r (s.ele k) op with ho
  have hplace' : (u.hist k).place=placeEng t o := by
    simp only [hs,setPc_hist,setHist_hist,Function.update_self,histEng]
  have hcount (loc : Loc ι) : (s.queue loc).count k=0 := by simpa [hrun] using hp.count loc
  have hother (t' : Thread ι) (ht : t'≠t) : engOf k (s.pc t')=none := by
    by_contra hne
    have := (hp.eng t').mp hne
    rw [hrun] at this
    exact ht (Place.run.inj this).symm
  have hgo : o.push≠none → o.next=none := by
    intro hpush
    rw [ho] at hpush ⊢
    cases op <;> simp only [runEng,dpctcDel] at hpush ⊢ <;> (repeat' split at hpush) <;> simp_all
  have hm := moves (u := u) (t := t) (o := o.next.map fun op => (k,.inr op)) hp
    (by simp [hs,histEng,Hist.free,Hist.touch]) (by simp [hs,histEng,Hist.free,Hist.touch,hborn]) (by simp [hs])
    (fun loc => by
      have hq : u.queue=(s.push k o.push).queue := by cases hpush : o.push <;> simp [hs,Sys.push,hpush]
      rw [hq,hplace',push_count _ hcount]
      cases hpush : o.push <;> cases hnext : o.next <;> cases hfate : o.fate <;>
        simp [placeEng,hpush,hnext,hfate])
    (fun h => by simp at h)
    (fun t' => by
      rw [hplace']
      by_cases ht : t'=t
      · subst ht
        rw [Function.update_self,engOf_map_inr]
        cases hpush : o.push with
        | none => cases hnext : o.next <;> cases hfate : o.fate <;> simp [placeEng,hpush,hnext,hfate]
        | some loc => simp [hgo (by simp [hpush]),placeEng,hpush]
      · rw [Function.update_of_ne ht,hother t' ht]
        cases hpush : o.push <;> cases hnext : o.next <;> cases hfate : o.fate <;>
          simp [placeEng,hpush,hnext,hfate,Ne.symm ht])
  refine ⟨hm.1,?_⟩
  rw [hm.2]
  simp only [Life.step,hplace,heng,apiOf_map_inr]
  congr 2
  · simp [hs,ho,life]
  · simp [hs,ho,life]
  · by_cases ht : t=(s.hist k).owner
    · simp [life,←ht,hpc]
    · rw [if_neg ht]
  · rw [hplace']
    cases hpush : o.push with
    | none =>
      cases hnext : o.next with
      | none => cases hfate : o.fate <;> simp [placeEng,hpush,hnext,hfate,←ho,life]
      | some op' => simp [placeEng,hpush,hnext,←ho,life]
    | some loc =>
      have hn := hgo (by simp [hpush])
      simp only [placeEng,hpush]
      exact hn

/-- The system refines the life of each CTC, as long as nobody pushes it while it is elsewhere. -/
theorem step_life {s u : Sys ι κ} {a : Act ι κ} {k : κ} (hp : Placed s k) (h : step s a=some u)
    (hsafe : ∀ l,lbl s k a=some l → ¬Relinks (life s k) l) :
    Placed u k ∧ Follows (life s k) (life u k) (lbl s k a) := by
  cases hl : lbl s k a with
  | none => exact step_other hp h hl
  | some l =>
    cases a with
    | new => obtain ⟨rfl,rfl⟩ := lbl_key hl; exact own_new hp h
    | ref => obtain ⟨rfl,rfl⟩ := lbl_key hl; exact own_ref hp h
    | add => obtain ⟨rfl,rfl⟩ := lbl_key hl; exact own_add hp h
    | cancel => obtain ⟨rfl,rfl⟩ := lbl_key hl; exact own_cancel hp h
    | del => obtain ⟨rfl,rfl⟩ := lbl_key hl; exact own_del hp h
    | endCtc => obtain ⟨rfl,rfl⟩ := lbl_key hl; exact own_endCtc hp h
    | reto => obtain ⟨rfl,rfl⟩ := lbl_key hl; exact own_reto hp h
    | pop t =>
      simp only [lbl] at hl
      split at hl <;> cases hl
      obtain ⟨q,hq⟩ := List.head?_eq_some_iff.mp ‹_›
      exact own_pop hp hq h
    | popReady t =>
      simp only [lbl] at hl
      split at hl <;> cases hl
      obtain ⟨q,hq⟩ := List.head?_eq_some_iff.mp ‹_›
      exact own_popReady hp hq h
    | deliver loc =>
      simp only [lbl] at hl
      split at hl <;> cases hl
      obtain ⟨q,hq⟩ := List.head?_eq_some_iff.mp ‹_›
      exact own_deliver hp hq h
    | cont t r =>
      have hsafe' := hsafe l hl
      simp only [lbl] at hl
      split at hl
      · rename_i k' op hpc
        obtain ⟨rfl,rfl⟩ := lbl_key hl
        exact own_api hp hpc hsafe' h
      · rename_i k' op hpc
        obtain ⟨rfl,rfl⟩ := lbl_key hl
        exact own_eng hp hpc h
      · cases hl

/-! ### Runs -/

/-- A guard on the life of a CTC, as a guard on the system's acts. -/
def okFor (ok : Life ι → Lbl ι → Prop) (k : κ) (s : Sys ι κ) (a : Act ι κ) : Prop :=
  ∀ l∈lbl s k a,ok (life s k) l

instance {ok : Life ι → Lbl ι → Prop} [∀ x l,Decidable (ok x l)] (k : κ) (s : Sys ι κ) (a : Act ι κ) :
    Decidable (okFor ok k s a) := inferInstanceAs (Decidable (∀ l∈_,_))

/-- A thread's next `n` accesses, with no post function among them. -/
def conts (t : Thread ι) (n : ℕ) : List (Act ι κ) := List.replicate n (.cont t 0)

theorem placed_start (k : κ) : Placed ({} : Sys ι κ) k := by
  refine ⟨fun loc => ?_,fun t h => (h rfl).elim,fun t => ?_,fun _ => ⟨rfl,fun t => rfl⟩⟩
  · simp
  · simp

/-- An invariant of the life of a CTC holds of the CTC in every run of the system. -/
theorem life_invariant {ok : Life ι → Lbl ι → Prop} {I : Life ι → Prop} {k : κ} {s : Sys ι κ}
    (h : Reach step (okFor ok k) {} s) (hI : I Life.start)
    (hstep : ∀ x l y,I x → ok x l → x.step l=some y → I y) (hsafe : ∀ x l,I x → ok x l → ¬Relinks x l) :
    Placed s k ∧ I (life s k) := by
  refine h.invariant (I := fun t => Placed t k ∧ I (life t k)) ⟨placed_start k,hI⟩ fun t a u ht hok hu => ?_
  have hf := step_life ht.1 hu (fun l hl => hsafe _ l ht.2 (hok l hl))
  refine ⟨hf.1,?_⟩
  cases hl : lbl t k a with
  | none =>
    rw [hl] at hf
    have he : life u k=life t k := hf.2
    rw [he]; exact ht.2
  | some l =>
    rw [hl] at hf
    exact hstep _ l _ ht.2 (hok l hl) hf.2

end Dpapp.CtcEngine
