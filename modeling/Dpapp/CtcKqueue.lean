import Dpapp.CtcTransport

/-! # The kqueue back end (os/bsd/dpevp_kqueue.c)

The channel functions are those of the epoll back end, but a wake is an EVFILT_USER event, which keeps the data of the
last trigger until kevent() reports it, and what kevent() reports sits in an array that dpevp_pop walks. -/

set_option linter.unusedSectionVars false

namespace Dpapp.CtcKqueue
open Dpapp.Machine Dpapp.CtcChannel Dpapp.CtcTransport

/-! ### Wakes -/

def ctcIncrFlag : ℕ := 0x0000000000000001
def ctcTakeFlag : ℕ := 0x0000001000000000
def ctcTakeMask : ℕ := 0xfffffff000000000
def ctcPushMask : ℕ := 0x00000000ffffffff

def flagVal : Flag → ℕ
  | .incr => ctcIncrFlag
  | .take => ctcTakeFlag

/-- What kevent() reports: a wake with the data of its last trigger, an element's event, or an element's timer. -/
inductive Event (ι ε : Type*)
  | user (i : ι) (w : Dir) (data : ℕ)
  | io (e : ε)
  | timer (e : ε)
  deriving DecidableEq

def Event.isTimer {ι ε : Type*} : Event ι ε → Bool
  | .timer _ => true
  | _ => false

/-- Where a thread is in dpevp_pop: outside, in the reap function of a type, or about to call kevent(). -/
inductive Pc | out | efd | usd | ctc | tmr | poll
  deriving DecidableEq

def dpevpReapLimit : ℕ := 32
def evCapacity : ℕ := 256

/- `user` is the data that a wake's EVFILT_USER keeps, 0 if it is not triggered; `evs` is the part of the array that has
not been walked. History: `tr.chan.wake` is what has been triggered and not been reaped, and `lost` are the events that
kevent() has written over. -/
structure Kq (ι α ε : Type*) where
  tr : Transport ι α := {}
  reg : ι → Dir → Bool := fun _ _ => false
  user : ι → Dir → ℕ := fun _ _ => 0
  evs : Thread ι → List (Event ι ε) := fun _ => []
  pc : Thread ι → Pc := fun _ => .out
  popLimit : Thread ι → ℕ := fun _ => 0
  lost : Thread ι → List (Event ι ε) := fun _ => []

variable {ι α ε : Type*} [DecidableEq ι] [DecidableEq α] [DecidableEq ε]

/-- `_dpele_wake_trigger`: an event that has not been registered yet is not there to be triggered. -/
def dpeleWakeTrigger (s : Kq ι α ε) (i : ι) (w : Dir) (data : ℕ) : Kq ι α ε :=
  if s.reg i w=true then {s with user := set2 s.user i w data} else s

/-- What `_worker_reap_efd` and `_master_reap_efd` do with the data of wake `w` of worker `i`. -/
def reapUser (i : ι) (w : Dir) (data : ℕ) : List (Op ι α) :=
  (if data &&& ctcTakeMask≠0 then moveCtc i w.back else [])++
    (if data &&& ctcPushMask≠0 then takeCtc i w else [])

/-- The history of a wake after it has been reaped: what the data says is not owed any more. -/
def settle (wake data : ℕ) : ℕ :=
  wake-(if data &&& ctcTakeMask≠0 then takes wake*2^32 else 0)-(if data &&& ctcPushMask≠0 then incrs wake else 0)

/-- One access of the channel functions. -/
def exec (s : Kq ι α ε) (t : Thread ι) : Option (Kq ι α ε) :=
  match s.tr.code t with
  | .notify i w f::rest =>
      some {dpeleWakeTrigger s i w (flagVal f) with tr := execCode s.tr t (.notify i w f) rest}
  | op::rest => some {s with tr := execCode s.tr t op rest}
  | [] => none

def Kq.goto (s : Kq ι α ε) (t : Thread ι) (pc : Pc) : Kq ι α ε := {s with pc := Function.update s.pc t pc}

/-- dpevp_pop returns an element that is not an EFD. -/
def Kq.return (s : Kq ι α ε) (t : Thread ι) : Kq ι α ε :=
  {s.goto t .out with popLimit := Function.update s.popLimit t (s.popLimit t+1)}

/-- What a call of kevent() may report: any events of elements, and of the wakes those that this thread has registered
and that have been triggered, once each. -/
def reported (s : Kq ι α ε) (t : Thread ι) (evs : List (Event ι ε)) : Prop :=
  evs.length≤evCapacity ∧ (evs.filterMap fun ev => match ev with | .user i w _ => some (i,w) | _ => none).Nodup ∧
    ∀ ev∈evs,match ev with
      | .user i w data => receiver i w=t ∧ s.reg i w=true ∧ data≠0 ∧ s.user i w=data
      | _ => True

instance (s : Kq ι α ε) (t : Thread ι) (evs : List (Event ι ε)) : Decidable (reported s t evs) :=
  letI : ∀ ev : Event ι ε,Decidable (match ev with
      | .user i w data => receiver i w=t ∧ s.reg i w=true ∧ data≠0 ∧ s.user i w=data
      | _ => True) := fun ev => match ev with
    | .user .. => inferInstanceAs (Decidable (_ ∧ _))
    | .io _ | .timer _ => .isTrue trivial
  inferInstanceAs (Decidable (_ ∧ _ ∧ _))

/-- EV_CLEAR: a wake that is reported is not triggered any more. -/
def cleared (user : ι → Dir → ℕ) (evs : List (Event ι ε)) (i : ι) (w : Dir) : ℕ :=
  if evs.any (fun ev => match ev with | .user j v _ => decide (j=i ∧ v=w) | _ => false)=true then 0 else user i w

/- `ret` tells whether dpevp_pop returns the element, which it does not if the operation has not been asked for, is not
over, or is detached. The steps of a thread outside the channel functions come when it has nothing left to do there. -/
inductive Act (ι α ε : Type*)
  | register (t : Thread ι) (i : ι)
  | push (i : ι) (d : Dir) (ctc : α)
  | enter (t : Thread ι) (ctc : α)
  | exec (t : Thread ι)
  | pop (t : Thread ι)
  | reapEfd (t : Thread ι) (ret : Bool)
  | reapUsd (t : Thread ι)
  | reapCtc (t : Thread ι) (ret : Bool)
  | reapTmr (t : Thread ι) (ret : Bool)
  | next (t : Thread ι)
  | kevent (t : Thread ι) (evs : List (Event ι ε))

def step (s : Kq ι α ε) : Act ι α ε → Option (Kq ι α ε)
  -- master_start registers the commit_wake of each worker, worker_start its own accept_wake
  | .register t i =>
      match t with
      | none => some {s with reg := set2 s.reg i .commit true}
      | some j => if j=i then some {s with reg := set2 s.reg i .accept true} else none
  | .push i d ctc => (CtcChannel.step s.tr (.push i d ctc)).map fun tr => {s with tr := tr}
  | .enter t ctc => (CtcChannel.step s.tr (.enter t ctc)).map fun tr => {s with tr := tr}
  | .exec t => exec s t
  | .pop t => if s.tr.code t=[] ∧ s.pc t=.out then some (s.goto t .efd) else none
  | .reapEfd t ret =>
      match s.evs t with
      | ev::evs =>
          if s.tr.code t=[] ∧ s.pc t=.efd then
            let s := {s with evs := Function.update s.evs t evs}
            match ev with
            | .user i w data => some {s with tr := {s.tr with
                chan := set2 s.tr.chan i w {s.tr.chan i w with wake := settle (s.tr.chan i w).wake data}
                code := Function.update s.tr.code t (reapUser i w data)}}
            | .io _ => some (if ret=true then s.goto t .out else s)
            | .timer _ => none
          else none
      | [] => none
  | .reapUsd t => if s.tr.code t=[] ∧ s.pc t=.usd then some (s.return t) else none
  | .reapCtc t ret =>
      if s.pc t=.ctc then
        (CtcChannel.step s.tr (.pop t)).map fun tr =>
          let s := {s with tr := tr}
          if ret=true then s.return t else s
      else none
  | .reapTmr t ret =>
      match s.evs t with
      | .timer _::evs =>
          if s.tr.code t=[] ∧ s.pc t=.tmr then
            let s := {s with evs := Function.update s.evs t evs}
            some (if ret=true then s.return t else s)
          else none
      | _ => none
  -- a reap function has returned NULL
  | .next t =>
      if s.tr.code t=[] then
        match s.pc t with
        | .efd =>
            if (s.evs t).head?.all (·.isTimer)=true then
              some (s.goto t (if s.popLimit t<dpevpReapLimit then .usd else .poll))
            else none
        | .usd => some (s.goto t .ctc)
        | .ctc => if s.tr.enterCtcs t=[] then some (s.goto t .tmr) else none
        | .tmr => if (s.evs t).head?.any (·.isTimer)=true then none else some (s.goto t .poll)
        | .out | .poll => none
      else none
  | .kevent t evs =>
      if s.tr.code t=[] ∧ s.pc t=.poll ∧ reported s t evs then
        some {s.goto t .out with
          user := cleared s.user evs
          evs := Function.update s.evs t evs
          popLimit := Function.update s.popLimit t 0
          lost := Function.update s.lost t (s.lost t++s.evs t)}
      else none

/-! ### The transport law -/

/-- How often the wake carries the meaning: once if its last trigger does, and once for each event of it that has not
been walked yet. -/
def carried (s : Kq ι α ε) (i : ι) (w : Dir) (f : Flag) : ℕ :=
  (if s.user i w=flagVal f then 1 else 0)+(s.evs (receiver i w)).count (.user i w (flagVal f))

/-- Nothing is left to do: no thread is in a channel function, all arrays are walked, and no wake is triggered. -/
def atRest (s : Kq ι α ε) : Prop := (∀ t,s.tr.code t=[] ∧ s.evs t=[]) ∧ ∀ i w,s.user i w=0

/-- The law of the epoll back end; and what has entered is popped in order, all that has been pushed has entered once
there is nothing left to do, each meaning that is owed is carried, and kevent() writes over nothing. -/
structure Sound (s : Kq ι α ε) : Prop where
  delivers : ∀ i d,Delivers s.tr i d
  entry : ∀ t,(s.tr.entered t).map Prod.snd=s.tr.popped t++s.tr.enterCtcs t
  rest : atRest s → ∀ i d,s.tr.pushed i d=enteredFrom i d (s.tr.entered (receiver i d))
  kept : ∀ i w,incrs (s.tr.chan i w).wake=carried s i w .incr ∧ takes (s.tr.chan i w).wake=carried s i w .take
  applied : ∀ t,s.lost t=[]

def timersLast (evs : List (Event ι ε)) : Prop := evs.Pairwise fun a b => a.isTimer=true → b.isTimer=true

/-- The next access triggers no wake that is not registered or in which the other meaning waits. -/
def triggers (s : Kq ι α ε) : List (Op ι α) → Prop
  | .notify i w f::_ => s.reg i w=true ∧ (s.user i w=0 ∨ s.user i w=flagVal f)
  | _ => True

/-- A wake is triggered once it is registered and while the other meaning does not wait in it; in what kevent() reports
no event comes after a timer; and no timer is left once dpevp_pop has returned the limit of elements since. -/
def calm (s : Kq ι α ε) : Act ι α ε → Prop
  | .exec t => triggers s (s.tr.code t)
  | .next t => s.pc t=.efd → s.popLimit t<dpevpReapLimit ∨ s.evs t=[]
  | .kevent _ evs => timersLast evs
  | _ => True

/-! ### Reaping a wake -/

theorem settle_incr {c : ℕ} (h : incrs c≤1 ∧ takes c≤1) :
    incrs (settle c ctcIncrFlag)=0 ∧ takes (settle c ctcIncrFlag)=takes c := by
  rcases wake_values h with rfl | rfl | rfl | rfl <;> decide

theorem settle_take {c : ℕ} (h : incrs c≤1 ∧ takes c≤1) :
    incrs (settle c ctcTakeFlag)=incrs c ∧ takes (settle c ctcTakeFlag)=0 := by
  rcases wake_values h with rfl | rfl | rfl | rfl <;> decide

theorem reapUser_incr (i : ι) (w : Dir) : (reapUser i w ctcIncrFlag : List (Op ι α))=takeCtc i w := by
  rw [reapUser,if_neg (by decide),if_pos (by decide)]
  rfl

theorem reapUser_take (i : ι) (w : Dir) : (reapUser i w ctcTakeFlag : List (Op ι α))=moveCtc i w.back := by
  rw [reapUser,if_pos (by decide),if_neg (by decide),List.append_nil]

/-- The channels after a wake's event has been walked. -/
def reaped (s : Transport ι α) (t : Thread ι) (i : ι) (w : Dir) (data : ℕ) : Transport ι α :=
  {s with
    chan := set2 s.chan i w {s.chan i w with wake := settle (s.chan i w).wake data}
    code := Function.update s.code t (reapUser i w data)}

/-- The channel whose notification has been reaped. -/
def noted (w : Dir) : Flag → Dir
  | .incr => w
  | .take => w.back

theorem settle_flag {c : ℕ} (h : incrs c≤1 ∧ takes c≤1) (f : Flag) :
    incrs (settle c (flagVal f))=(if f=.incr then 0 else incrs c) ∧
      takes (settle c (flagVal f))=if f=.take then 0 else takes c := by
  cases f with
  | incr => exact settle_incr h
  | take => exact settle_take h

theorem reapUser_key (i : ι) (w : Dir) (f : Flag) :
    ∀ o∈(reapUser i w (flagVal f) : List (Op ι α)),thread o=receiver i w ∧ key o=(i,noted w f) := by
  intro o ho
  cases f with
  | incr =>
    rw [show flagVal .incr=ctcIncrFlag from rfl,reapUser_incr] at ho
    rcases List.mem_pair.mp ho with rfl | rfl
    · exact ⟨rfl,rfl⟩
    · exact ⟨rfl,by simp [key,noted]⟩
  | take =>
    rw [show flagVal .take=ctcTakeFlag from rfl,reapUser_take] at ho
    rcases List.mem_pair.mp ho with rfl | rfl <;> exact ⟨rfl,rfl⟩

section Reap
variable {s : Transport ι α} {i j : ι} {w e : Dir} {f : Flag}

theorem reaped_other (hp : Phases s) (hc : s.code (receiver i w)=[]) (hne : (i,noted w f)≠(j,e)) :
    view (reaped s (receiver i w) i w (flagVal f)) j e=view s j e := by
  have hset := settle_flag (wake_bounds hp i w) f
  have hcode : ∀ t,codeOf ((reaped s (receiver i w) i w (flagVal f)).code t) j e=codeOf (s.code t) j e := by
    intro t
    by_cases ht : t=receiver i w
    · subst ht
      simp only [reaped,Function.update_self,hc,codeOf_nil]
      exact codeOf_eq_nil fun o ho hk => hne (by rw [← (reapUser_key i w f o ho).2,hk])
    · simp only [reaped,Function.update_of_ne ht]
  refine view_congr ?_ ?_ ?_ hcode rfl rfl rfl
  · by_cases hk : j=i ∧ e=w
    · obtain ⟨rfl,rfl⟩ := hk
      simp only [reaped,set2_self]
    · simp only [reaped,set2_ne _ _ hk]
  · by_cases hk : j=i ∧ e=w
    · obtain ⟨rfl,rfl⟩ := hk
      simp only [reaped,set2_self,hset.1]
      exact if_neg fun hf => hne (by rw [hf]; rfl)
    · simp only [reaped,set2_ne _ _ hk]
  · by_cases hk : j=i ∧ e.back=w
    · obtain ⟨rfl,rfl⟩ := hk
      simp only [reaped,set2_self,hset.2]
      exact if_neg fun hf => hne (by rw [hf]; simp [noted])
    · simp only [reaped,set2_ne _ _ hk]

theorem reaped_incr (hp : Phases s) (hi : incrs (s.chan i w).wake≠0) :
    view (reaped s (receiver i w) i w (flagVal .incr)) i w=(view s i w).readIncr i w := by
  have hset := settle_incr (wake_bounds hp i w)
  have hcode : codeOf (reapUser i w ctcIncrFlag : List (Op ι α)) i w=takeCtc i w := by
    rw [reapUser_incr]
    refine codeOf_eq_self fun o ho => (reapUser_key i w .incr o ?_).2
    rw [show flagVal .incr=ctcIncrFlag from rfl,reapUser_incr]
    exact ho
  rw [View.readIncr,if_pos (show (view s i w).incr≠0 from hi)]
  simp only [view,reaped,flagVal,set2_self,set2_back,Function.update_self,Function.update_of_ne (sender_ne_receiver i w),
    hset.1,hcode]

theorem reaped_take (hp : Phases s) (ht : takes (s.chan i w).wake≠0) :
    view (reaped s (receiver i w) i w (flagVal .take)) i w.back=(view s i w.back).readTake i w.back := by
  have hset := settle_take (wake_bounds hp i w)
  have hcode : codeOf (reapUser i w ctcTakeFlag : List (Op ι α)) i w.back=moveCtc i w.back := by
    rw [reapUser_take]
    refine codeOf_eq_self fun o ho => (reapUser_key i w .take o ?_).2
    rw [show flagVal .take=ctcTakeFlag from rfl,reapUser_take]
    exact ho
  have ht' : (view s i w.back).take≠0 := by
    simp only [view,Dir.back_back]
    exact ht
  rw [View.readTake,if_pos ht']
  simp only [view,reaped,flagVal,set2_self,set2_back,Function.update_self,sender_back,receiver_back,Dir.back_back,
    Function.update_of_ne (sender_ne_receiver i w),hset.2,hcode]

/-- The phases of the channels go on from the wake's event as they do from a read of the eventfd. -/
theorem reaped_phases (hp : Phases s) (hc : s.code (receiver i w)=[])
    (hf : (match f with | .incr => incrs (s.chan i w).wake | .take => takes (s.chan i w).wake)≠0) :
    Phases (reaped s (receiver i w) i w (flagVal f)) := by
  intro j e
  by_cases hk : (i,noted w f)=(j,e)
  · cases f with
    | incr =>
      obtain ⟨rfl,rfl⟩ := Prod.mk.inj hk
      rw [show noted w .incr=w from rfl,reaped_incr hp hf]
      exact phase_step (hp i w) (.readIncr (by simp only [view,hc,codeOf_nil]))
    | take =>
      obtain ⟨rfl,rfl⟩ := Prod.mk.inj hk
      rw [show noted w .take=w.back from rfl,reaped_take hp hf]
      exact phase_step (hp i w.back) (.readTake (by simp only [view,sender_back,hc,codeOf_nil]))
  · rw [reaped_other hp hc hk]
    exact hp j e

theorem reaped_inv (hs : CtcTransport.Inv s) (hb : ∀ t,s.batch t=[]) (hc : s.code (receiver i w)=[])
    (hf : (match f with | .incr => incrs (s.chan i w).wake | .take => takes (s.chan i w).wake)≠0) :
    CtcTransport.Inv (reaped s (receiver i w) i w (flagVal f)) := by
  refine ⟨⟨fun t o ho => ?_,fun t => ?_⟩,reaped_phases hs.phases hc hf,hs.entry⟩
  · by_cases ht : t=receiver i w
    · subst ht
      simp only [reaped,Function.update_self] at ho
      exact (reapUser_key i w f o ho).1
    · simp only [reaped,Function.update_of_ne ht] at ho
      exact hs.threads.code t o ho
  · rw [show (reaped s (receiver i w) i w (flagVal f)).batch t=[] from hb t]
    exact ⟨List.nodup_nil,fun p hp => (by cases hp)⟩

end Reap

/-! ### The invariant -/

def notes : Flag → ℕ → ℕ
  | .incr => incrs
  | .take => takes

structure Inv (s : Kq ι α ε) : Prop where
  tr : CtcTransport.Inv s.tr
  batch : ∀ t,s.tr.batch t=[]
  kept : ∀ i w f,notes f (s.tr.chan i w).wake=carried s i w f
  user : ∀ i w,s.user i w=0 ∨ ∃ f,s.user i w=flagVal f
  evs : ∀ t i w data,.user i w data∈s.evs t → receiver i w=t ∧ ∃ f,data=flagVal f
  sorted : ∀ t,timersLast (s.evs t)
  walked : ∀ t,s.pc t=.usd ∨ s.pc t=.ctc ∨ s.pc t=.tmr → ∀ ev∈s.evs t,ev.isTimer=true
  done : ∀ t,s.pc t=.poll → s.evs t=[]
  applied : ∀ t,s.lost t=[]

section Steps
variable {s s' : Kq ι α ε} {t : Thread ι} {i j : ι} {d w v : Dir} {f g : Flag} {pc : Pc} {ret : Bool}
  {ev : Event ι ε} {evs : List (Event ι ε)}

theorem flagVal_inj (h : flagVal f=flagVal g) : f=g := by
  cases f <;> cases g <;> first | rfl | exact absurd h (by decide)

theorem flagVal_ne (f : Flag) : flagVal f≠0 := by cases f <;> decide

theorem notes_le (h : CtcTransport.Inv s.tr) (i : ι) (w : Dir) (f : Flag) : notes f (s.tr.chan i w).wake≤1 := by
  have := wake_bounds h.phases i w
  cases f with
  | incr => exact this.1
  | take => exact this.2

theorem inv_start : Inv ({} : Kq ι α ε) where
  tr := CtcTransport.inv_start
  batch _ := rfl
  kept i w f := by
    have : (0 : ℕ)≠flagVal f := (flagVal_ne f).symm
    cases f <;> simp [carried,notes,incrs,takes,this]
  user _ _ := .inl rfl
  evs _ _ _ _ h := by cases h
  sorted _ := List.Pairwise.nil
  walked _ _ _ h := by cases h
  done _ h := by cases h
  applied _ := rfl

/-- The channels go on, and no wake is touched. -/
theorem inv_tr {tr : Transport ι α} (h : Inv s) (htr : CtcTransport.Inv tr) (hb : tr.batch=s.tr.batch)
    (hw : ∀ i w,(tr.chan i w).wake=(s.tr.chan i w).wake) : Inv {s with tr := tr} where
  tr := htr
  batch t := (congrFun hb t).trans (h.batch t)
  kept i w f := (congrArg (notes f) (hw i w)).trans (h.kept i w f)
  user := h.user
  evs := h.evs
  sorted := h.sorted
  walked := h.walked
  done := h.done
  applied := h.applied

theorem inv_goto (h : Inv s) (hwalk : pc=.usd ∨ pc=.ctc ∨ pc=.tmr → ∀ ev∈s.evs t,ev.isTimer=true)
    (hdone : pc=.poll → s.evs t=[]) : Inv (s.goto t pc) := by
  refine ⟨h.tr,h.batch,h.kept,h.user,h.evs,h.sorted,fun u hu => ?_,fun u hu => ?_,h.applied⟩
  · by_cases hut : u=t
    · subst hut
      simp only [Kq.goto,Function.update_self] at hu
      exact hwalk hu
    · simp only [Kq.goto,Function.update_of_ne hut] at hu
      exact h.walked u hu
  · by_cases hut : u=t
    · subst hut
      simp only [Kq.goto,Function.update_self] at hu
      exact hdone hu
    · simp only [Kq.goto,Function.update_of_ne hut] at hu
      exact h.done u hu

theorem inv_out (h : Inv s) : Inv (s.goto t .out) :=
  inv_goto h (by rintro (h | h | h) <;> cases h) (fun h => by cases h)

theorem inv_return (h : Inv s) : Inv (s.return t) := by
  have hout := inv_out (t := t) h
  exact ⟨hout.tr,hout.batch,hout.kept,hout.user,hout.evs,hout.sorted,hout.walked,hout.done,hout.applied⟩

/-! ### Walking the array -/

theorem mem_walked {u : Thread ι} {x : Event ι ε} (he : s.evs t=ev::evs) (hx : x∈Function.update s.evs t evs u) :
    x∈s.evs u := by
  by_cases hut : u=t
  · subst hut
    rw [Function.update_self] at hx
    rw [he]
    exact List.mem_cons_of_mem _ hx
  · rwa [Function.update_of_ne hut] at hx

theorem sorted_walked {u : Thread ι} (h : Inv s) (he : s.evs t=ev::evs) : timersLast (Function.update s.evs t evs u) := by
  have ht := h.sorted t
  rw [he] at ht
  by_cases hut : u=t
  · subst hut
    rw [Function.update_self]
    exact (List.pairwise_cons.mp ht).2
  · rw [Function.update_of_ne hut]
    exact h.sorted u

theorem done_walked {u : Thread ι} (h : Inv s) (he : s.evs t=ev::evs) (hu : s.pc u=.poll) :
    Function.update s.evs t evs u=[] := by
  by_cases hut : u=t
  · subst hut
    have := h.done u hu
    rw [he] at this
    cases this
  · rw [Function.update_of_ne hut]
    exact h.done u hu

/-- An event of an element has been walked. -/
theorem inv_event (h : Inv s) (he : s.evs t=ev::evs) (hev : ∀ i w data,ev≠.user i w data) :
    Inv {s with evs := Function.update s.evs t evs} := by
  refine ⟨h.tr,h.batch,fun i w f => ?_,h.user,fun u i w data hx => h.evs u i w data (mem_walked he hx),
    fun u => sorted_walked h he,fun u hu x hx => h.walked u hu x (mem_walked he hx),fun u hu => done_walked h he hu,h.applied⟩
  rw [h.kept i w f]
  simp only [carried]
  by_cases hut : receiver i w=t
  · rw [hut,Function.update_self,he,List.count_cons_of_ne (hev i w (flagVal f))]
  · rw [Function.update_of_ne hut]

theorem carried_eq {x : ℕ} {l : List (Event ι ε)} (hx : s.user i w=x) (hl : s.evs (receiver i w)=l) :
    carried s i w f=(if x=flagVal f then 1 else 0)+l.count (.user i w (flagVal f)) := by
  rw [carried,hl]
  subst hx
  rfl

theorem carried_walked (he : s.evs t=.user i w (flagVal f)::evs) (ht : receiver i w=t) :
    (if s.user i w=flagVal f then 1 else 0)+(evs.count (.user i w (flagVal f))+1)=carried s i w f := by
  rw [carried,ht,he,List.count_cons_self]

/-- A wake's event has been walked. -/
theorem inv_user (h : Inv s) (hc : s.tr.code t=[]) (he : s.evs t=.user i w (flagVal f)::evs) :
    Inv {s with evs := Function.update s.evs t evs, tr := reaped s.tr t i w (flagVal f)} := by
  obtain ⟨ht,-⟩ := h.evs t i w (flagVal f) (by rw [he]; exact List.mem_cons_self ..)
  have hone := carried_walked he ht
  have hle := notes_le h.tr i w f
  have hkept := h.kept i w f
  have hset := settle_flag (wake_bounds h.tr.phases i w) f
  have htr : CtcTransport.Inv (reaped s.tr t i w (flagVal f)) := by
    subst ht
    refine reaped_inv h.tr h.batch hc ?_
    have hpos : notes f (s.tr.chan i w).wake≠0 := by omega
    cases f <;> exact hpos
  refine ⟨htr,h.batch,fun j v g => ?_,h.user,fun u i w data hx => h.evs u i w data (mem_walked he hx),
    fun u => sorted_walked h he,fun u hu x hx => h.walked u hu x (mem_walked he hx),fun u hu => done_walked h he hu,h.applied⟩
  have hkept' := h.kept j v g
  simp only [carried,reaped] at hkept' ⊢
  by_cases hjv : j=i ∧ v=w
  · obtain ⟨rfl,rfl⟩ := hjv
    rw [set2_self,ht,Function.update_self]
    by_cases hg : g=f
    · subst hg
      have hzero : notes g (settle (s.tr.chan j v).wake (flagVal g))=0 := by
        cases g with
        | incr => exact hset.1
        | take => exact hset.2
      simp only
      omega
    · have hsame : notes g (settle (s.tr.chan j v).wake (flagVal f))=notes g (s.tr.chan j v).wake := by
        cases g with
        | incr => exact hset.1.trans (if_neg (Ne.symm hg))
        | take => exact hset.2.trans (if_neg (Ne.symm hg))
      rw [hsame,hkept',ht,he,List.count_cons_of_ne]
      intro heq
      injection heq with _ _ hval
      exact hg (flagVal_inj hval).symm
  · rw [set2_ne _ _ hjv,hkept']
    by_cases hut : receiver j v=t
    · rw [hut,Function.update_self,he,List.count_cons_of_ne]
      intro heq
      injection heq with hi hw _
      exact hjv ⟨hi.symm,hw.symm⟩
    · rw [Function.update_of_ne hut]

/-! ### The channel functions -/

theorem inv_execCode {op : Op ι α} {rest : List (Op ι α)} (h : Inv s) (hc : s.tr.code t=op::rest) :
    CtcTransport.Inv (execCode s.tr t op rest) :=
  CtcTransport.inv_step (a := .exec t) h.tr (by simp only [CtcChannel.step,hc,execCode,execOp_code])

theorem execCode_batch (s : Transport ι α) (t : Thread ι) (op : Op ι α) (rest : List (Op ι α)) :
    (execCode s t op rest).batch=s.batch := by
  cases op <;> simp only [execCode,execOp] <;> split <;> rfl

/-- Only a notification touches a wake. -/
theorem execCode_wake {s : Transport ι α} {op : Op ι α} (rest : List (Op ι α)) (hop : ∀ i w f,op≠.notify i w f)
    (j : ι) (v : Dir) : ((execCode s t op rest).chan j v).wake=(s.chan j v).wake := by
  cases op with
  | notify i w f => exact absurd rfl (hop i w f)
  | push | moved => simp only [execCode,execOp]; split <;> simp [wake_set2]
  | _ => simp [execCode,execOp,wake_set2]

theorem execCode_notify (s : Transport ι α) (rest : List (Op ι α)) (j : ι) (v : Dir) :
    ((execCode s t (.notify i w f) rest).chan j v).wake=
      if j=i ∧ v=w then eventfdWrite (s.chan i w).wake f.val else (s.chan j v).wake := by
  simp only [execCode,execOp]
  split
  · rename_i hk
    obtain ⟨rfl,rfl⟩ := hk
    rw [set2_self]
  · rename_i hk
    rw [set2_ne _ _ hk]

theorem notes_write {c : ℕ} (h : incrs c≤1 ∧ takes c≤1) :
    notes g (eventfdWrite c f.val)=notes g c+if g=f then 1 else 0 := by
  have hi := write_incr h
  have ht := write_take h
  cases f with
  | incr =>
    cases g with
    | incr => exact hi.2.1
    | take => exact hi.2.2
  | take =>
    cases g with
    | incr => exact ht.2.1
    | take => exact ht.2.2

theorem inv_notify {rest : List (Op ι α)} (h : Inv s) (hc : s.tr.code t=.notify i w f::rest) (hreg : s.reg i w=true)
    (huser : s.user i w=0 ∨ s.user i w=flagVal f) :
    Inv {dpeleWakeTrigger s i w (flagVal f) with tr := execCode s.tr t (.notify i w f) rest} := by
  have htr := inv_execCode h hc
  have hwrite : ∀ g,notes g (eventfdWrite (s.tr.chan i w).wake f.val)=notes g (s.tr.chan i w).wake+if g=f then 1 else 0 :=
    fun g => notes_write (wake_bounds h.tr.phases i w)
  -- the same meaning does not wait: its channel has one notification at most
  have hzero : s.user i w=0 := by
    refine huser.resolve_right fun heq => ?_
    have hle := notes_le (s := {s with tr := execCode s.tr t (.notify i w f) rest}) htr i w f
    simp only [execCode_notify,and_self,ite_true,hwrite f] at hle
    have hkept := h.kept i w f
    simp only [carried,if_pos heq] at hkept
    omega
  have hdone : dpeleWakeTrigger s i w (flagVal f)={s with user := set2 s.user i w (flagVal f)} := if_pos hreg
  rw [hdone]
  refine ⟨htr,fun u => (congrFun (execCode_batch _ _ _ _) u).trans (h.batch u),fun j v g => ?_,fun j v => ?_,h.evs,h.sorted,
    h.walked,h.done,h.applied⟩
  · have hkept := h.kept j v g
    simp only [carried] at hkept
    simp only [execCode_notify]
    refine Eq.trans ?_ (Eq.symm (carried_eq (x := set2 s.user i w (flagVal f) j v) (l := s.evs (receiver j v))
      (by rfl) (by rfl)))
    by_cases hk : j=i ∧ v=w
    · obtain ⟨rfl,rfl⟩ := hk
      rw [if_pos ⟨rfl,rfl⟩,hwrite g,set2_self,hkept,hzero,if_neg (flagVal_ne g).symm]
      by_cases hg : g=f
      · rw [if_pos hg,if_pos (by rw [hg])]
        omega
      · rw [if_neg hg,if_neg fun heq => hg (flagVal_inj heq).symm,Nat.add_zero]
    · rw [if_neg hk,set2_ne _ _ hk,hkept]
  · by_cases hk : j=i ∧ v=w
    · obtain ⟨rfl,rfl⟩ := hk
      exact .inr ⟨f,set2_self _ _ _ _⟩
    · simp only [set2_ne _ _ hk]
      exact h.user j v

theorem inv_exec (h : Inv s) (hok : calm s (.exec t)) (hu : step s (.exec t)=some s') : Inv s' := by
  simp only [step,exec] at hu
  simp only [calm] at hok
  split at hu
  · rename_i i w f rest hc
    cases hu
    rw [hc] at hok
    exact inv_notify h hc hok.1 hok.2
  · rename_i op rest hop hc
    cases hu
    exact inv_tr h (inv_execCode h hc) (execCode_batch _ _ _ _)
      (execCode_wake rest fun i w f heq => hop i w f heq)
  · cases hu

/-! ### dpevp_pop -/

theorem timers_rest (h : timersLast (ev::evs)) (hev : ev.isTimer=true) : ∀ x∈ev::evs,x.isTimer=true := by
  intro x hx
  rcases List.mem_cons.mp hx with rfl | hx
  · exact hev
  · exact (List.pairwise_cons.mp h).1 x hx hev

theorem inv_next (h : Inv s) (hok : calm s (.next t)) (hu : step s (.next t)=some s') : Inv s' := by
  simp only [step] at hu
  split at hu
  · split at hu
    · rename_i hpc
      split at hu
      · rename_i hhead
        cases hu
        have hall : ∀ ev∈s.evs t,ev.isTimer=true := by
          have hsort := h.sorted t
          cases he : s.evs t with
          | nil => exact fun ev hev => by cases hev
          | cons ev evs =>
            rw [he] at hhead hsort
            exact timers_rest hsort (by simpa using hhead)
        refine inv_goto h (fun _ => hall) fun hpoll => ?_
        rcases hok hpc with hlim | hnil
        · rw [if_pos hlim] at hpoll
          cases hpoll
        · exact hnil
      · cases hu
    · rename_i hpc
      cases hu
      exact inv_goto h (fun _ => h.walked t (.inl hpc)) fun heq => by cases heq
    · rename_i hpc
      split at hu <;> cases hu
      exact inv_goto h (fun _ => h.walked t (.inr (.inl hpc))) fun heq => by cases heq
    · rename_i hpc
      split at hu
      · cases hu
      · rename_i hhead
        cases hu
        refine inv_goto h (by rintro (h | h | h) <;> cases h) fun _ => ?_
        -- what is left would be timers, and there is none at the head
        cases he : s.evs t with
        | nil => rfl
        | cons ev evs =>
          refine absurd ?_ hhead
          rw [he,List.head?_cons,Option.any_some]
          exact h.walked t (.inr (.inr hpc)) ev (by rw [he]; exact List.mem_cons_self ..)
    · cases hu
    · cases hu
  · cases hu

theorem inv_reapEfd (h : Inv s) (hu : step s (.reapEfd t ret)=some s') : Inv s' := by
  simp only [step] at hu
  split at hu
  · rename_i ev evs he
    split at hu
    · rename_i hc
      cases ev with
      | user i w data =>
        obtain ⟨-,f,rfl⟩ := h.evs t i w data (by rw [he]; exact List.mem_cons_self ..)
        cases hu
        exact inv_user h hc.1 he
      | io e =>
        have hev := inv_event h he fun _ _ _ heq => by cases heq
        simp only at hu
        split at hu <;> cases hu
        · exact inv_out hev
        · exact hev
      | timer e => cases hu
    · cases hu
  · cases hu

theorem inv_reapTmr (h : Inv s) (hu : step s (.reapTmr t ret)=some s') : Inv s' := by
  simp only [step] at hu
  split at hu
  · rename_i e evs he
    split at hu
    · have hev := inv_event h he fun _ _ _ heq => by cases heq
      cases hu
      split
      · exact inv_return hev
      · exact hev
    · cases hu
  · cases hu

theorem pop_same {tr : Transport ι α} (h : CtcChannel.step s.tr (.pop t)=some tr) :
    tr.batch=s.tr.batch ∧ tr.chan=s.tr.chan := by
  simp only [CtcChannel.step] at h
  split at h <;> cases h
  exact ⟨rfl,rfl⟩

theorem inv_reapCtc (h : Inv s) (hu : step s (.reapCtc t ret)=some s') : Inv s' := by
  simp only [step] at hu
  split at hu
  · obtain ⟨tr,htr,rfl⟩ := Option.map_eq_some_iff.mp hu
    obtain ⟨hb,hchan⟩ := pop_same htr
    have hgo := inv_tr h (CtcTransport.inv_step h.tr htr) hb fun i w => by rw [hchan]
    split
    · exact inv_return hgo
    · exact hgo
  · cases hu

theorem inv_push {ctc : α} (h : Inv s) (hu : step s (.push i d ctc)=some s') : Inv s' := by
  simp only [step] at hu
  obtain ⟨tr,htr,rfl⟩ := Option.map_eq_some_iff.mp hu
  have hinv := CtcTransport.inv_step h.tr htr
  simp only [CtcChannel.step] at htr
  split at htr <;> cases htr
  exact inv_tr h hinv rfl fun _ _ => rfl

theorem inv_enter {ctc : α} (h : Inv s) (hu : step s (.enter t ctc)=some s') : Inv s' := by
  simp only [step] at hu
  obtain ⟨tr,htr,rfl⟩ := Option.map_eq_some_iff.mp hu
  have hinv := CtcTransport.inv_step h.tr htr
  simp only [CtcChannel.step] at htr
  split at htr
  · split at htr <;> cases htr <;> exact inv_tr h hinv rfl fun _ _ => rfl
  · cases htr

theorem cleared_eq (user : ι → Dir → ℕ) (evs : List (Event ι ε)) (i : ι) (w : Dir) :
    ((∃ data,.user i w data∈evs) → cleared user evs i w=0) ∧
      ((∀ data,.user i w data∉evs) → cleared user evs i w=user i w) := by
  refine ⟨fun ⟨data,hmem⟩ => if_pos (List.any_eq_true.mpr ⟨_,hmem,by simp⟩),fun hno => if_neg fun hany => ?_⟩
  obtain ⟨ev,hmem,hev⟩ := List.any_eq_true.mp hany
  cases ev with
  | user j v data =>
    obtain ⟨rfl,rfl⟩ := of_decide_eq_true hev
    exact hno data hmem
  | io e => cases hev
  | timer e => cases hev

/-- A wake is reported at most once. -/
theorem reported_count (hr : reported s t evs) (i : ι) (w : Dir) (data : ℕ) : evs.count (.user i w data)≤1 := by
  have hnodup := hr.2.1
  clear hr
  induction evs with
  | nil => simp
  | cons ev evs ih =>
    cases ev with
    | user j v x =>
      simp only [List.filterMap_cons] at hnodup
      obtain ⟨hnot,htail⟩ := List.nodup_cons.mp hnodup
      by_cases heq : Event.user j v x=(.user i w data : Event ι ε)
      · cases heq
        have hzero : evs.count (.user i w data)=0 := by
          refine List.count_eq_zero.mpr fun hmem => hnot ?_
          exact List.mem_filterMap.mpr ⟨_,hmem,rfl⟩
        rw [List.count_cons_self,hzero]
      · rw [List.count_cons_of_ne heq]
        exact ih htail
    | io e =>
      rw [List.count_cons_of_ne (by simp)]
      exact ih (by simpa using hnodup)
    | timer e =>
      rw [List.count_cons_of_ne (by simp)]
      exact ih (by simpa using hnodup)

/-- What a wake carries goes into the array. -/
theorem carried_reported (hr : reported s t evs) (hnil : s.evs t=[]) (i : ι) (w : Dir) (f : Flag) :
    (if cleared s.user evs i w=flagVal f then 1 else 0)+
      (Function.update s.evs t evs (receiver i w)).count (.user i w (flagVal f))=carried s i w f := by
  obtain ⟨hyes,hno⟩ := cleared_eq s.user evs i w
  by_cases hmem : ∃ data,.user i w data∈evs
  · obtain ⟨data,hdata⟩ := hmem
    obtain ⟨ht,-,-,huser⟩ := hr.2.2 _ hdata
    rw [hyes ⟨data,hdata⟩,if_neg (flagVal_ne f).symm,carried,ht,Function.update_self,hnil,List.count_nil,huser]
    by_cases hf : data=flagVal f
    · subst hf
      have hpos := List.count_pos_iff.mpr hdata
      have hle := reported_count hr i w (flagVal f)
      rw [if_pos rfl]
      omega
    · rw [if_neg hf]
      refine (Nat.zero_add _).trans (List.count_eq_zero.mpr fun hmem => hf ?_)
      exact huser.symm.trans (hr.2.2 _ hmem).2.2.2
  · have hnone : ∀ data,.user i w data∉evs := fun data hdata => hmem ⟨data,hdata⟩
    rw [hno hnone,carried]
    by_cases ht : receiver i w=t
    · rw [ht,Function.update_self,hnil,List.count_nil,List.count_eq_zero.mpr (hnone _)]
    · rw [Function.update_of_ne ht]

theorem inv_kevent (h : Inv s) (hok : calm s (.kevent t evs)) (hu : step s (.kevent t evs)=some s') : Inv s' := by
  simp only [step] at hu
  split at hu
  · rename_i hc
    cases hu
    obtain ⟨-,hpc,hr⟩ := hc
    have hnil := h.done t hpc
    have hout := inv_out (t := t) h
    refine ⟨h.tr,h.batch,fun i w f => (h.kept i w f).trans (carried_reported hr hnil i w f).symm,fun i w => ?_,
      fun u i w data hx => ?_,fun u => ?_,fun u hu x hx => ?_,fun u hu => ?_,fun u => ?_⟩
    · obtain ⟨hyes,hno⟩ := cleared_eq s.user evs i w
      by_cases hmem : ∃ data,.user i w data∈evs
      · exact .inl (hyes hmem)
      · simp only [hno fun data hdata => hmem ⟨data,hdata⟩]
        exact h.user i w
    · by_cases hut : u=t
      · subst hut
        simp only [Function.update_self] at hx
        obtain ⟨hrec,-,hne,huser⟩ := hr.2.2 _ hx
        refine ⟨hrec,?_⟩
        rcases h.user i w with hz | ⟨f,hf⟩
        · exact absurd (huser.symm.trans hz) hne
        · exact ⟨f,huser.symm.trans hf⟩
      · simp only [Function.update_of_ne hut] at hx
        exact h.evs u i w data hx
    · by_cases hut : u=t
      · subst hut
        simp only [Function.update_self]
        exact hok
      · simp only [Function.update_of_ne hut]
        exact h.sorted u
    · by_cases hut : u=t
      · subst hut
        simp [Kq.goto] at hu
      · simp only [Function.update_of_ne hut] at hx
        exact hout.walked u hu x hx
    · by_cases hut : u=t
      · subst hut
        simp [Kq.goto] at hu
      · simp only [Function.update_of_ne hut]
        exact hout.done u hu
    · by_cases hut : u=t
      · subst hut
        simp only [Function.update_self,hnil,List.append_nil]
        exact h.applied u
      · simp only [Function.update_of_ne hut]
        exact h.applied u
  · cases hu

theorem step_inv {a : Act ι α ε} (h : Inv s) (hok : calm s a) (hu : step s a=some s') : Inv s' := by
  cases a with
  | register t i =>
    have hreg : ∀ reg,Inv {s with reg := reg} := fun reg =>
      ⟨h.tr,h.batch,h.kept,h.user,h.evs,h.sorted,h.walked,h.done,h.applied⟩
    simp only [step] at hu
    split at hu
    · cases hu
      exact hreg _
    · split at hu <;> cases hu
      exact hreg _
  | push i d ctc => exact inv_push h hu
  | enter t ctc => exact inv_enter h hu
  | exec t => exact inv_exec h hok hu
  | pop t =>
    simp only [step] at hu
    split at hu <;> cases hu
    exact inv_goto h (by rintro (h | h | h) <;> cases h) fun h => by cases h
  | reapEfd t ret => exact inv_reapEfd h hu
  | reapUsd t =>
    simp only [step] at hu
    split at hu <;> cases hu
    exact inv_return h
  | reapCtc t ret => exact inv_reapCtc h hu
  | reapTmr t ret => exact inv_reapTmr h hu
  | next t => exact inv_next h hok hu
  | kevent t evs => exact inv_kevent h hok hu

theorem Inv.sound (h : Inv s) : Sound s where
  delivers := delivers h.tr
  entry := h.tr.entry
  rest hr i d := by
    have hzero : ∀ j v f,notes f (s.tr.chan j v).wake=0 := by
      intro j v f
      rw [h.kept j v f,carried,hr.2 j v,(hr.1 _).2,if_neg (flagVal_ne f).symm]
      rfl
    exact phase_rest (h.tr.phases i d) (by simp only [view,(hr.1 _).1,codeOf_nil]) (by simp only [view,(hr.1 _).1,codeOf_nil])
      (hzero i d .incr) (hzero i d.back .take)
  kept i w := ⟨h.kept i w .incr,h.kept i w .take⟩
  applied := h.applied

theorem ctc_kqueue (h : Reach step calm ({} : Kq ι α ε) s) : Sound s :=
  (h.invariant inv_start fun _ _ _ hi hok hu => step_inv hi hok hu : Inv s).sound

end Steps

instance (evs : List (Event ι ε)) : Decidable (timersLast evs) := inferInstanceAs (Decidable (List.Pairwise _ _))

instance (s : Kq ι α ε) : (code : List (Op ι α)) → Decidable (triggers s code)
  | .notify ..::_ => inferInstanceAs (Decidable (_ ∧ (_ ∨ _)))
  | [] | .push ..::_ | .pushShared ..::_ | .pushSending ..::_ | .move ..::_ | .moved ..::_ | .take ..::_ => .isTrue trivial

instance (s : Kq ι α ε) : (a : Act ι α ε) → Decidable (calm s a)
  | .exec t => inferInstanceAs (Decidable (triggers s (s.tr.code t)))
  | .next _ => inferInstanceAs (Decidable (_=Pc.efd → _))
  | .kevent _ evs => inferInstanceAs (Decidable (timersLast evs))
  | .register .. | .push .. | .enter .. | .pop _ | .reapEfd .. | .reapUsd _ | .reapCtc .. | .reapTmr .. => .isTrue trivial

/-- From dpevp_pop to kevent(), with nothing to reap. -/
def idlePop (t : Thread (Fin 1)) (evs : List (Event (Fin 1) ℕ)) : List (Act (Fin 1) ℕ ℕ) :=
  [.pop t,.next t,.next t,.next t,.next t,.kevent t evs]

/-- Worker 0 pushes 7, which the master takes in the same batch as an event and a timer. -/
def taken : List (Act (Fin 1) ℕ ℕ) :=
  [.register none 0,.register (some 0) 0,.push 0 .commit 7,.exec (some 0),.exec (some 0),.exec (some 0)]++
    idlePop none [.io 0,.user 0 .commit ctcIncrFlag,.timer 1]++
    [.pop none,.reapEfd none false,.reapEfd none false,.exec none,.exec none,.next none,.next none]

def takenAndPopped : List (Act (Fin 1) ℕ ℕ) :=
  taken++[.reapCtc none true,.pop none,.next none,.next none,.next none,.reapTmr none false,.next none,.kevent none []]

theorem ctc_kqueue_taken : ∃ s : Kq (Fin 1) ℕ ℕ,s.tr.popped none=[7] ∧ Sound s := by
  have hrun : ((execOk step calm {} takenAndPopped).any fun s => decide (s.tr.popped none=[7]))=true := by decide +kernel
  obtain ⟨s,hs,hpop⟩ := (Option.any_eq_true _ _).mp hrun
  exact ⟨s,of_decide_eq_true hpop,ctc_kqueue (execOk_reach hs)⟩

/-- The master pushes 9 to the worker before that has seen that the master has taken 7. -/
def coalesced : List (Act (Fin 1) ℕ ℕ) := taken++[.push 0 .accept 9,.exec none,.exec none,.exec none]

theorem ctc_kqueue_coalesced : ¬∀ s : Kq (Fin 1) ℕ ℕ,Reach step anyStep {} s → Sound s := by
  intro hall
  have hrun : ((Machine.exec step {} coalesced).any fun s =>
      decide (takes (s.tr.chan 0 .accept).wake=1) && decide (carried s 0 .accept .take=0))=true := by decide +kernel
  obtain ⟨s,hs,hend⟩ := (Option.any_eq_true _ _).mp hrun
  obtain ⟨htake,hcar⟩ := Bool.and_eq_true_iff.mp hend
  have hkept := ((hall s (exec_reach hs)).kept 0 .accept).2
  rw [of_decide_eq_true htake,of_decide_eq_true hcar] at hkept
  cases hkept

end Dpapp.CtcKqueue
