import Dpapp.EngineFrame

/-! # Ceased timers and the main loops (dpcwc.c, dpcpp.cc, dplua.lua)

The engine's TMR elements with the callbacks of dptmr_timeout and dptmr_callback, and what the main loop of
dpcwc, dpcpp or dplua does with an element that dpevp_pop returns. -/

set_option linter.unusedSectionVars false

namespace Dpapp.TmrCease
open Dpapp.Machine Dpapp.Ret Dpapp.EfdWake Dpapp.Engine Dpapp.EngineFrame
open Dpapp.EngineQueues (dptmrTimeout tmr_kind)

variable {κ : Type*} [LinearOrder κ]

inductive Loop | cwc | cpp | lua
  deriving DecidableEq

/- `data` tells whether data[0] of the scratch data is set, `cached` whether dplua's cache still has the function
it stands for, and `popped` is what dpevp_pop has returned to the loop. History: `stopped` are the timers that
have been ceased or deleted and not added since, `started` the callbacks that have been started, and whether
their timer was stopped. -/
structure App (κ : Type*) where
  evp : Dpevp κ := {}
  data : κ → Bool := fun _ => false
  cached : κ → Bool := fun _ => false
  popped : Option κ := none
  stopped : κ → Bool := fun _ => false
  started : List (κ × Bool) := []

/-- dptmr_callback -/
def dptmrCallback : Asc := ⟨fun kind _ => decide (kind=.tmr),true,true,fun _ _ _ => tmr_kind⟩

/-- dpevp_add of a timer: its prep functions set the timeout and return `ret`. -/
def addTmr (s : Dpevp κ) (k : κ) (asc : Asc) (sec : ℤ) (ret : Dpret) (now : ℤ) : Option (Dpevp κ) :=
  (Engine.step s (.add k asc)).bind fun s =>
    let s := if ret=dpeContinue then s.setEle k {s.ele k with spec := setAfter (s.ele k).spec sec} else s
    Engine.step s (.prepRet ret {} now)

/-- The main loop runs the callback, and resumes nobody. -/
def runs (loop : Loop) (l : App κ) (k : κ) : Bool := l.data k && (loop≠.lua || l.cached k)

/-- dpevp_pop returns it. -/
def handed (s t : Dpevp κ) (a : Engine.Act κ) : Option κ :=
  (overDone s t a).filter fun k => (t.ele k).refc≠0 ∧ (t.ele k).isDetach=false

/-- The C callback of a dptmr_callback timer is about to run. -/
def called (s t : Dpevp κ) : Engine.Act κ → Option κ
  | .reapUsd | .reapTmr _ =>
      match t.stack with
      | .over k::_ => if (s.ele k).kind=.tmr then some k else none
      | _ => none
  | _ => none

def App.start (l : App κ) (k : κ) : App κ := {l with started := l.started++[(k,l.stopped k)]}

/-- What a call leaves behind besides the engine's state. -/
def note (l : App κ) : Engine.Act κ → App κ
  | .new k .. | .dup _ k _ => {l with data := Function.update l.data k false, stopped := Function.update l.stopped k false}
  | .end_ k _ => if (l.evp.ele k).kind=.tmr then {l with stopped := Function.update l.stopped k true} else l
  | .del k =>
      if (l.evp.ele k).kind=.tmr ∧ (l.evp.ele k).refc=1 then {l with stopped := Function.update l.stopped k true} else l
  | _ => l

inductive Act (κ : Type*)
  | timeout (k : κ) (sec : ℤ) (func : Bool) (now : ℤ)
  | callback (k : κ) (sec : ℤ) (cb : Bool) (now : ℤ)
  | engine (a : Engine.Act κ)
  | dispatch

/-- After a step of the engine. -/
def settle (l : App κ) (a : Engine.Act κ) (t : Dpevp κ) : App κ :=
  {note ((called l.evp t a).elim l l.start) a with evp := t, popped := handed l.evp t a}

def step (loop : Loop) (l : App κ) : Act κ → Option (App κ)
  | .timeout k sec func now =>
      if l.popped=none ∧ (l.evp.ele k).kind=.tmr then
        (addTmr l.evp k dptmrTimeout sec dpeContinue now).map fun s =>
          {l with evp := s, data := Function.update l.data k func, cached := Function.update l.cached k func
                  stopped := Function.update l.stopped k false}
      else none
  -- the scratch data has been zeroed, so without a callback there is no old one either
  | .callback k sec cb now =>
      if l.popped=none ∧ (l.evp.ele k).kind=.tmr then
        (addTmr l.evp k dptmrCallback sec (if cb then dpeContinue else dpeInval) now).map fun s =>
          {l with evp := s, data := Function.update l.data k cb, cached := Function.update l.cached k false
                  stopped := if cb then Function.update l.stopped k false else l.stopped}
      else none
  | .engine a =>
      match a with
      | .add k asc =>
          if l.popped=none ∧ (l.evp.ele k).kind≠.tmr then (Engine.step l.evp (.add k asc)).map fun s => {l with evp := s}
          else none
      | a =>
          if l.popped=none ∧ hasRef l.evp a=true then
            (Engine.step l.evp a).map (settle l a)
          else none
  -- `_dpcwc_thread_main_step`, `_thread_main_step`
  | .dispatch =>
      match l.popped with
      | some k =>
          let l' := {l with popped := none}
          if (l.evp.ele k).kind=.tmr ∧ runs loop l k=true then
            some {l'.start k with cached := if loop=.lua then Function.update l.cached k false else l.cached}
          else some l'
      | none => none

/-! ### Callbacks -/

section Calls
variable {s t : Dpevp κ} {j k : κ}

theorem stack_ascOver : (dpeleAscOver s j).stack=s.stack ∨
    (dpeleAscOver s j).stack=.over j::s.stack ∧ ∃ asc,(s.ele j).asc=some asc ∧ asc.post=true := by
  have hend : ∀ u : Dpevp κ,(ascEnd u j).stack=u.stack := by
    intro u
    unfold ascEnd
    split <;> rfl
  unfold dpeleAscOver
  simp only
  split
  · exact .inl (hend _)
  · split
    · rename_i hpost
      exact .inr ⟨rfl,by simpa [Option.any_eq_true] using hpost⟩
    · exact .inl (hend _)

/-- A post function is only run for an operation that has one. -/
theorem called_post {a : Engine.Act κ} (h : Engine.step s a=some t) (hk : called s t a=some k) :
    ∃ asc,(s.ele k).asc=some asc ∧ asc.post=true := by
  have hcall : ∀ {u : Dpevp κ} {j : κ} {frames : List (Frame κ)},(dpeleAscOver u j).stack=.over k::frames →
      u.stack=[] → (u.ele j).asc=(s.ele j).asc → ∃ asc,(s.ele k).asc=some asc ∧ asc.post=true := by
    intro u j frames hstack hu hasc
    rcases stack_ascOver (s := u) (j := j) with hsame | ⟨hover,hpost⟩
    · rw [hsame,hu] at hstack
      cases hstack
    · rw [hover] at hstack
      cases hstack
      rw [hasc] at hpost
      exact hpost
  unfold called at hk
  split at hk
  · split at hk
    · rename_i hstack
      split at hk <;> cases hk
      simp only [Engine.step] at h
      split at h
      · split at h
        · rename_i hpop
          cases h
          exact hcall hstack hpop.1.2 rfl
        · cases h
      · cases h
    · cases hk
  · split at hk
    · rename_i hstack
      split at hk <;> cases hk
      simp only [Engine.step] at h
      split at h
      · rename_i j timer _
        split at h
        · rename_i hpop
          cases h
          exact hcall hstack hpop.1.2 (by simp [Dpevp.setEle])
        · cases h
      · cases h
    · cases hk
  · cases hk

end Calls

/-! ### Adding a timer -/

section Add
variable {s t : Dpevp κ} {j k : κ} {asc : Asc} {sec now : ℤ} {ret : Dpret}

theorem addTmr_other (h : addTmr s j asc sec ret now=some t) (hjk : k≠j) : Tame s t k := by
  obtain ⟨u,hadd,hret⟩ := Option.bind_eq_some_iff.mp h
  have hbegin : Tame s u k := tame_step hadd rfl fun hb => hjk (by cases hb; rfl)
  have hprep := tame_step (k := k) hret rfl id
  have hset : Tame u (if ret=dpeContinue then u.setEle j {u.ele j with spec := setAfter (u.ele j).spec sec} else u) k := by
    split
    · exact (apart_setEle _ hjk).tame
    · exact ⟨.refl u k,id⟩
  exact (hbegin.trans hset).trans hprep

/-- A prep function that reports an error leaves the timer without an operation. -/
theorem addTmr_refused (h : addTmr s k dptmrCallback sec dpeInval now=some t) (hk : (s.ele k).kind=.tmr) :
    (t.ele k).kind=.tmr ∧ (t.ele k).asc=none := by
  obtain ⟨u,hadd,hret⟩ := Option.bind_eq_some_iff.mp h
  simp only [Engine.step] at hadd
  split at hadd
  · have htypes : dptmrCallback.types (s.ele k).kind (s.ele k).aio≠false := by simp [dptmrCallback,hk]
    rw [if_neg htypes,if_neg (by rintro ⟨-,h⟩; cases h)] at hadd
    cases hadd
    rw [if_neg (show dpeInval≠dpeContinue by decide)] at hret
    dsimp only [Engine.step] at hret
    split at hret
    · rw [if_pos (by decide),addFinish,if_neg (by decide),if_neg (by decide)] at hret
      cases hret
      simp [Dpevp.setEle,Dpevp.setPending,hk]
    · cases hret
  · cases hadd

end Add

/-! ### The invariant -/

section Runs
variable {loop : Loop} {l l' : App κ} {j k : κ}

/-- Nothing the engine still does with the timer starts its callback. -/
structure Silent (loop : Loop) (l : App κ) (k : κ) : Prop where
  kind : (l.evp.ele k).kind=.tmr
  asc : ∀ asc,(l.evp.ele k).asc=some asc → asc.post=false
  off : runs loop l k=false ∨ (l.evp.ele k).isDetach=true ∨ (l.evp.ele k).refc=0 ∨ Settled l.evp k

structure Inv (loop : Loop) (l : App κ) : Prop where
  silent : ∀ k,l.stopped k=true → Silent loop l k
  popped : ∀ k,l.popped=some k → l.stopped k=true → runs loop l k=false
  started : ∀ x∈l.started,x.2=false

theorem Silent.tame (h : Silent loop l k) (ht : Tame l.evp l'.evp k) (hr : runs loop l k=false → runs loop l' k=false) :
    Silent loop l' k where
  kind := ht.kind.trans h.kind
  asc asc ha := by
    rcases ht.asc with hsame | hnone
    · exact h.asc asc (hsame ▸ ha)
    · rw [hnone] at ha
      cases ha
  off := by
    rcases h.off with hoff | hdetach | hrefc | hsettled
    · exact .inl (hr hoff)
    · exact .inr (.inl (ht.detach.trans hdetach))
    · exact .inr (.inr (.inl (ht.refc hrefc)))
    · exact .inr (.inr (.inr (ht.settled hsettled)))

/-- A cease or a delete of a timer comes only when its callback cannot be due any more: it has none, it is a
detached dptmr_timeout, or the engine has nothing to do with it. A detached timer is attached again only when
the engine has nothing to do with it. -/
def timely (loop : Loop) (l : App κ) : Act κ → Prop
  | .engine (.end_ k _) => (l.evp.ele k).kind=.tmr → Silent loop l k
  | .engine (.del k) => (l.evp.ele k).kind=.tmr → (l.evp.ele k).refc=1 → ∀ asc,(l.evp.ele k).asc=some asc → asc.post=false
  | .engine (.setDetach k b) => (l.evp.ele k).kind=.tmr → b=false →
      dpeleIsDoing (l.evp.ele k)=true ∨ runs loop l k=false ∨ Settled l.evp k
  | _ => True

theorem inv_start : Inv loop ({} : App κ) :=
  ⟨fun _ h => (by cases h),fun _ h => (by cases h),fun _ h => (by cases h)⟩

theorem inv_dispatch (h : Inv loop l) (hu : step loop l .dispatch=some l') : Inv loop l' := by
  simp only [step] at hu
  split at hu
  · rename_i k hpop
    split at hu
    · rename_i hrun
      cases hu
      refine ⟨fun i hi => (h.silent i hi).tame ⟨.refl _ i,id⟩ fun hr => ?_,fun _ hi => (by cases hi),fun x hx => ?_⟩
      · simp only [runs,App.start] at hr ⊢
        split
        · by_cases hik : i=k
          · subst hik
            simp_all
          · simpa [hik] using hr
        · exact hr
      · rcases List.mem_append.mp hx with hx | hx
        · exact h.started x hx
        · rcases List.mem_singleton.mp hx with rfl
          refine Bool.eq_false_iff.mpr fun hstop => ?_
          rw [h.popped k hpop hstop] at hrun
          cases hrun.2
    · cases hu
      refine ⟨fun i hi => (h.silent i hi).tame ⟨.refl _ i,id⟩ id,fun _ hi => (by cases hi),h.started⟩
  · cases hu

theorem inv_timeout {sec now : ℤ} {func : Bool} (h : Inv loop l) (hu : step loop l (.timeout k sec func now)=some l') :
    Inv loop l' := by
  simp only [step] at hu
  split at hu
  · rename_i hc
    obtain ⟨t,ht,rfl⟩ := Option.map_eq_some_iff.mp hu
    refine ⟨fun i hi => ?_,fun i hi => ?_,h.started⟩
    · by_cases hik : i=k
      · subst hik
        simp at hi
      · refine (h.silent i (by simpa [hik] using hi)).tame (addTmr_other ht hik) fun hr => ?_
        simpa [runs,hik] using hr
    · rw [show l.popped=some i from hi] at hc
      cases hc.1
  · cases hu

theorem inv_callback {sec now : ℤ} {cb : Bool} (h : Inv loop l) (hu : step loop l (.callback k sec cb now)=some l') :
    Inv loop l' := by
  simp only [step] at hu
  split at hu
  · rename_i hc
    obtain ⟨t,ht,rfl⟩ := Option.map_eq_some_iff.mp hu
    refine ⟨fun i hi => ?_,fun i hi => ?_,h.started⟩
    · by_cases hik : i=k
      · subst hik
        cases cb with
        | true => simp at hi
        | false =>
          -- the scratch data is zeroed, and the old operation is gone
          obtain ⟨hkind,hasc⟩ := addTmr_refused ht hc.2
          refine ⟨hkind,fun asc ha => ?_,.inl (by simp [runs])⟩
          rw [show (t.ele i).asc=some asc from ha] at hasc
          cases hasc
      · refine (h.silent i ?_).tame (addTmr_other ht hik) fun hr => ?_
        · cases cb <;> simpa [hik] using hi
        · simpa [runs,hik] using hr
    · rw [show l.popped=some i from hi] at hc
      cases hc.1
  · cases hu

theorem pre_same (o : Option κ) : (o.elim l l.start).evp=l.evp ∧ (o.elim l l.start).data=l.data ∧
    (o.elim l l.start).cached=l.cached ∧ (o.elim l l.start).stopped=l.stopped := by
  cases o <;> exact ⟨rfl,rfl,rfl,rfl⟩

theorem stopped_pre (a : Engine.Act κ) (t : Dpevp κ) :
    (settle l a t).stopped=(note l a).stopped ∧ (settle l a t).data=(note l a).data ∧
      (settle l a t).cached=(note l a).cached := by
  obtain ⟨hevp,hdata,hcached,hstopped⟩ := pre_same (l := l) (called l.evp t a)
  cases a <;> simp [settle,note,hevp,hdata,hcached,hstopped] <;> split <;> simp [hdata,hcached,hstopped]

theorem runs_note {a : Engine.Act κ} {t : Dpevp κ} (hr : runs loop l k=false) : runs loop (settle l a t) k=false := by
  obtain ⟨-,hdata,hcached⟩ := stopped_pre (l := l) a t
  have hle : ∀ i,(note l a).data i=true → l.data i=true := by
    intro i hi
    cases a with
    | new j | dup _ j =>
      by_cases hij : i=j
      · subst hij
        simp [note] at hi
      · simpa [note,hij] using hi
    | end_ j ret | del j =>
      simp only [note] at hi
      split at hi <;> exact hi
    | ref | setDetach | setTimeout | add | prepRet | postRet | cont | harvest | reapEfd | reapUsd | reapTmr => exact hi
  have hsame : (note l a).cached=l.cached := by
    cases a with
    | end_ j ret | del j =>
      simp only [note]
      split <;> rfl
    | new | dup | ref | setDetach | setTimeout | add | prepRet | postRet | cont | harvest | reapEfd | reapUsd | reapTmr => rfl
  simp only [runs,hdata,hcached,hsame] at hr ⊢
  cases hd : (note l a).data k with
  | false => rfl
  | true => rwa [hle k hd] at hr

/-- A timer that is stopped after the call was stopped before, unless the call has stopped it. -/
theorem stopped_note {a : Engine.Act κ} {t : Dpevp κ} (hi : (settle l a t).stopped k=true) :
    l.stopped k=true ∧ (begins k a → ∃ b,a=.setDetach k b ∨ ∃ asc,a=.add k asc) ∨
      (∃ ret,a=.end_ k ret) ∧ (l.evp.ele k).kind=.tmr ∨
      a=.del k ∧ (l.evp.ele k).kind=.tmr ∧ (l.evp.ele k).refc=1 := by
  rw [(stopped_pre a t).1] at hi
  cases a with
  | new j | dup _ j =>
    by_cases hkj : k=j
    · subst hkj
      simp [note] at hi
    · exact .inl ⟨by simpa [note,hkj] using hi,fun hb => (hkj hb.symm).elim⟩
  | setDetach j b => exact .inl ⟨hi,fun hb => ⟨b,.inl (by cases hb; rfl)⟩⟩
  | add j asc => exact .inl ⟨hi,fun hb => ⟨true,.inr ⟨asc,by cases hb; rfl⟩⟩⟩
  | end_ j ret =>
    simp only [note] at hi
    split at hi
    · by_cases hkj : k=j
      · subst hkj
        exact .inr (.inl ⟨⟨ret,rfl⟩,by assumption⟩)
      · exact .inl ⟨by simpa [hkj] using hi,fun hb => hb.elim⟩
    · exact .inl ⟨hi,fun hb => hb.elim⟩
  | del j =>
    simp only [note] at hi
    split at hi
    · by_cases hkj : k=j
      · subst hkj
        exact .inr (.inr ⟨rfl,by assumption⟩)
      · exact .inl ⟨by simpa [hkj] using hi,fun hb => hb.elim⟩
    · exact .inl ⟨hi,fun hb => hb.elim⟩
  | ref | setTimeout | prepRet | postRet | cont | harvest | reapEfd | reapUsd | reapTmr => exact .inl ⟨hi,fun hb => hb.elim⟩

theorem silent_setDetach {b : Bool} {t : Dpevp κ} (h : Silent loop l k) (hok : timely loop l (.engine (.setDetach k b)))
    (ht : Engine.step l.evp (.setDetach k b)=some t) : Silent loop (settle l (.setDetach k b) t) k := by
  simp only [Engine.step] at ht
  split at ht
  · split at ht <;> cases ht
    · exact h.tame ⟨.refl _ k,id⟩ runs_note
    · rename_i hidle
      have hset : (settle l (.setDetach k b) (l.evp.setEle k {l.evp.ele k with isDetach := b})).evp.ele k=
          {l.evp.ele k with isDetach := b} := by simp [settle,note,called,Dpevp.setEle]
      refine ⟨by rw [hset]; exact h.kind,fun asc ha => h.asc asc (by rw [hset] at ha; exact ha),?_⟩
      cases b with
      | true => exact .inr (.inl (by rw [hset]))
      | false =>
        rcases hok h.kind rfl with hdoing | hoff | hs
        · exact (hidle hdoing).elim
        · exact .inl (runs_note hoff)
        · exact .inr (.inr (.inr ⟨by rw [hset]; exact hs.asc,hs.timer,hs.ready,hs.frames⟩))
  · cases ht

theorem silent_settle {a : Engine.Act κ} {t : Dpevp κ} (h : Inv loop l) (hok : timely loop l (.engine a))
    (hadd : ∀ j asc,a≠.add j asc) (hr : hasRef l.evp a=true) (ht : Engine.step l.evp a=some t)
    (hi : (settle l a t).stopped k=true) : Silent loop (settle l a t) k := by
  rcases stopped_note hi with ⟨hold,hb⟩ | ⟨⟨ret,rfl⟩,hkind⟩ | ⟨rfl,hkind,hrefc⟩
  · by_cases hbegin : begins k a
    · rcases hb hbegin with ⟨b,rfl | ⟨asc,rfl⟩⟩
      · exact silent_setDetach (h.silent k hold) hok ht
      · exact (hadd k asc rfl).elim
    · exact (h.silent k hold).tame (tame_step ht hr hbegin) runs_note
  · exact (hok hkind).tame (tame_step ht hr id) runs_note
  · have htame : Tame l.evp t k := tame_step ht hr id
    refine ⟨htame.kind.trans hkind,fun asc ha => ?_,.inr (.inr (.inl ?_))⟩
    · rcases htame.asc with hsame | hnone
      · exact hok hkind hrefc asc (hsame ▸ ha)
      · rw [show (t.ele k).asc=some asc from ha] at hnone
        cases hnone
    · -- the last reference is gone
      simp only [Engine.step] at ht
      split at ht
      · cases ht
        change ((unref l.evp k).ele k).refc=0
        unfold unref
        simp only
        split <;> simp [dpeleDel,Dpevp.setEle,hrefc]
      · cases ht

theorem started_settle {a : Engine.Act κ} {t : Dpevp κ} {x : κ × Bool} (hx : x∈(settle l a t).started) :
    x∈l.started ∨ ∃ k,called l.evp t a=some k ∧ x=(k,l.stopped k) := by
  have hnote : ∀ m : App κ,(note m a).started=m.started := by
    intro m
    cases a with
    | end_ | del =>
      simp only [note]
      split <;> rfl
    | new | dup | ref | setDetach | setTimeout | add | prepRet | postRet | cont | harvest | reapEfd | reapUsd | reapTmr => rfl
  rw [show (settle l a t).started=(note ((called l.evp t a).elim l l.start) a).started from rfl,hnote] at hx
  cases hcall : called l.evp t a with
  | none =>
    rw [hcall] at hx
    exact .inl hx
  | some k =>
    rw [hcall] at hx
    rcases List.mem_append.mp hx with hx | hx
    · exact .inl hx
    · exact .inr ⟨k,rfl,List.mem_singleton.mp hx⟩

theorem inv_settle {a : Engine.Act κ} {t : Dpevp κ} (h : Inv loop l) (hok : timely loop l (.engine a))
    (hadd : ∀ j asc,a≠.add j asc) (hr : hasRef l.evp a=true) (ht : Engine.step l.evp a=some t) :
    Inv loop (settle l a t) := by
  have hcalm : ∀ k,¬begins k a → (settle l a t).stopped k=true → l.stopped k=true ∨ (∀ u,called l.evp u a=none) ∧
      ∀ u,overDone l.evp u a=none := by
    intro k _ hi
    rcases stopped_note hi with ⟨hold,-⟩ | ⟨⟨ret,rfl⟩,-⟩ | ⟨rfl,-⟩
    · exact .inl hold
    · exact .inr ⟨fun _ => rfl,fun _ => rfl⟩
    · exact .inr ⟨fun _ => rfl,fun _ => rfl⟩
  refine ⟨fun k hi => silent_settle h hok hadd hr ht hi,fun k hpop hi => ?_,fun x hx => ?_⟩
  · -- what dpevp_pop returns was not settled, and is neither detached nor deleted
    obtain ⟨hdone,hkept⟩ := Option.mem_filter_iff.mp (show k∈handed l.evp t a from hpop)
    have hb := overDone_begins hdone
    have hkept := of_decide_eq_true hkept
    rcases hcalm k hb hi with hold | hnone
    · rcases (h.silent k hold).off with hoff | hdetach | hrefc | hsettled
      · exact runs_note hoff
      · rw [← (tame_step ht hr hb).detach,hkept.2] at hdetach
        cases hdetach
      · exact (hkept.1 ((tame_step ht hr hb).refc hrefc)).elim
      · exact (overDone_unsettled hdone hsettled).elim
    · rw [hnone.2 t] at hdone
      cases hdone
  · rcases started_settle hx with hx | ⟨k,hcall,rfl⟩
    · exact h.started x hx
    · refine Bool.eq_false_iff.mpr fun hstop => ?_
      obtain ⟨asc,hasc,hpost⟩ := called_post ht hcall
      rw [(h.silent k hstop).asc asc hasc] at hpost
      cases hpost

theorem step_inv (a : Act κ) (h : Inv loop l) (hok : timely loop l a) (hu : step loop l a=some l') : Inv loop l' := by
  cases a with
  | timeout k sec func now => exact inv_timeout h hu
  | callback k sec cb now => exact inv_callback h hu
  | dispatch => exact inv_dispatch h hu
  | engine a =>
    by_cases hadd : ∃ k asc,a=.add k asc
    · obtain ⟨k,asc,rfl⟩ := hadd
      simp only [step] at hu
      split at hu
      · rename_i hc
        obtain ⟨t,ht,rfl⟩ := Option.map_eq_some_iff.mp hu
        refine ⟨fun i hi => ?_,fun i hi => ?_,h.started⟩
        · have hs := h.silent i hi
          refine hs.tame (tame_step ht rfl fun hb => hc.2 ?_) id
          rw [show k=i from hb]
          exact hs.kind
        · rw [show l.popped=some i from hi] at hc
          cases hc.1
      · cases hu
    · have hadd : ∀ j asc,a≠.add j asc := fun j asc ha => hadd ⟨j,asc,ha⟩
      have hstep : l.popped=none ∧ hasRef l.evp a=true ∧ ∃ t,Engine.step l.evp a=some t ∧ settle l a t=l' := by
        cases a with
        | add j asc => exact (hadd j asc rfl).elim
        | new | ref | setDetach | setTimeout | prepRet | end_ | del | dup | postRet | cont | harvest | reapEfd | reapUsd
        | reapTmr =>
          simp only [step] at hu
          split at hu
          · rename_i hc
            exact ⟨hc.1,hc.2,Option.map_eq_some_iff.mp hu⟩
          · cases hu
      obtain ⟨-,hr,t,ht,rfl⟩ := hstep
      exact inv_settle h hok hadd hr ht

/-- A stopped timer stays silent. -/
theorem tmr_cease_silent (h : Reach (step loop) (timely loop) {} l) : ∀ x∈l.started,x.2=false := by
  have hinv : Inv loop l := h.invariant inv_start fun _ a _ hi hok hu => step_inv a hi hok hu
  exact hinv.started

end Runs

instance (s : Dpevp κ) (k : κ) : Decidable (Settled s k) :=
  decidable_of_iff ((s.ele k).asc.isNone=true ∧ k∉s.timer ∧ k∉s.ready ∧ (frames s k).isEmpty=true)
    ⟨fun ⟨ha,ht,hr,hf⟩ => ⟨Option.isNone_iff_eq_none.mp ha,ht,hr,List.isEmpty_iff.mp hf⟩,
      fun h => ⟨Option.isNone_iff_eq_none.mpr h.asc,h.timer,h.ready,List.isEmpty_iff.mpr h.frames⟩⟩

instance (e : Ele κ) : Decidable (∀ asc,e.asc=some asc → asc.post=false) :=
  decidable_of_iff (∀ asc∈e.asc,asc.post=false) Iff.rfl

instance (loop : Loop) (l : App κ) (k : κ) : Decidable (Silent loop l k) :=
  decidable_of_iff ((l.evp.ele k).kind=.tmr ∧ (∀ asc,(l.evp.ele k).asc=some asc → asc.post=false) ∧
      (runs loop l k=false ∨ (l.evp.ele k).isDetach=true ∨ (l.evp.ele k).refc=0 ∨ Settled l.evp k))
    ⟨fun ⟨hk,ha,ho⟩ => ⟨hk,ha,ho⟩,fun h => ⟨h.kind,h.asc,h.off⟩⟩

instance (loop : Loop) (l : App κ) : (a : Act κ) → Decidable (timely loop l a)
  | .engine (.end_ k _) => inferInstanceAs (Decidable ((l.evp.ele k).kind=.tmr → Silent loop l k))
  | .engine (.del k) => inferInstanceAs (Decidable ((l.evp.ele k).kind=.tmr → (l.evp.ele k).refc=1 → ∀ _,_))
  | .engine (.setDetach k _) => inferInstanceAs (Decidable ((l.evp.ele k).kind=.tmr → _=false → _ ∨ _ ∨ _))
  | .timeout .. | .callback .. | .dispatch | .engine (.new ..) | .engine (.ref _) | .engine (.setTimeout ..)
  | .engine (.add ..) | .engine (.prepRet ..) | .engine (.dup ..) | .engine (.postRet ..) | .engine .cont
  | .engine (.harvest _) | .engine .reapEfd | .engine .reapUsd | .engine (.reapTmr _) => .isTrue trivial

/-- A timer fires, is ceased from its own callback, waits again without a callback and is ceased. -/
def firedOnce : List (Act (Fin 1)) :=
  [.engine (.new 0 .tmr false false [] true),.timeout 0 1000 true 0,.engine (.reapTmr 1000),.dispatch,
    .engine (.end_ 0 dpeIntr),.timeout 0 1000 false 1000,.engine (.end_ 0 dpeIntr),.engine .reapUsd,.dispatch]

theorem tmr_cease_silent_fired : ∃ l : App (Fin 1),l.stopped 0=true ∧ l.started=[(0,false)] ∧ ∀ x∈l.started,x.2=false := by
  have hrun : ((execOk (step .cwc) (timely .cwc) {} firedOnce).any fun l => l.stopped 0 && l.started=[(0,false)])=true := by
    decide +kernel
  obtain ⟨l,hl,hf⟩ := (Option.any_eq_true _ _).mp hrun
  rcases Bool.and_eq_true_iff.mp hf with ⟨hstop,hstart⟩
  exact ⟨l,hstop,of_decide_eq_true hstart,tmr_cease_silent (execOk_reach hl)⟩

/-- dpcwc_timer, then dpcwc_cease while it waits. -/
def ceasedWaiting : List (Act (Fin 1)) :=
  [.engine (.new 0 .tmr false false [] true),.timeout 0 1000 true 0,.engine (.end_ 0 dpeIntr),.engine .reapUsd,.dispatch]

/-- The main loop takes the cancellation for the expiry. -/
theorem tmr_cease_fires : ¬∀ (loop : Loop) (l : App (Fin 1)),Reach (step loop) anyStep {} l →
    ∀ x∈l.started,x.2=false := by
  intro hall
  have hrun : ((exec (step .cwc) {} ceasedWaiting).any fun l => l.started=[(0,true)])=true := by decide +kernel
  obtain ⟨l,hl,hf⟩ := (Option.any_eq_true _ _).mp hrun
  have := hall .cwc l (exec_reach hl) (0,true) (by rw [of_decide_eq_true hf]; exact List.mem_singleton_self _)
  cases this

end Dpapp.TmrCease
