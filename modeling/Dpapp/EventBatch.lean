import Dpapp.EngineQueues

/-! # The batch of events and deletion -/

set_option linter.unusedSectionVars false

namespace Dpapp.EventBatch
open Dpapp.Machine Dpapp.Ret Dpapp.EfdWake Dpapp.Engine Dpapp.EngineQueues

variable {κ : Type*} [LinearOrder κ]

/-- dpele_del of the element frees it at once. -/
def lastRef (s : Dpevp κ) (k : κ) : Prop := (s.ele k).refc=1 ∧ (s.ele k).asc.isNone=true

/-- The batch still has an event of the element. -/
def awaited (s : Dpevp κ) (k : κ) : Prop := k∈s.evs.map (·.key)

instance (s : Dpevp κ) (k : κ) : Decidable (lastRef s k) := inferInstanceAs (Decidable (_ ∧ _))
instance (s : Dpevp κ) (k : κ) : Decidable (awaited s k) := inferInstanceAs (Decidable (_∈_))

/- An element with no operation loses its last reference (dpele_del, also from a fini) only when the batch
has no event of it left; dpele_dup, which watches the copy of a USD or TMR, is called on an EFD or fails. -/
def spared (s : Dpevp κ) : Act κ → Prop
  | .del k => lastRef s k → ¬awaited s k
  | .cont => match s.dels with
    | .unref k::_ => lastRef s k → ¬awaited s k
    | _ => True
  | .dup k _ ok => (s.ele k).kind=.efd ∨ ok=false
  | _ => True

instance (s : Dpevp κ) : (a : Act κ) → Decidable (spared s a)
  | .del _ => inferInstanceAs (Decidable (_ → _))
  | .cont => by unfold spared; dsimp only; split <;> infer_instance
  | .dup _ _ _ => inferInstanceAs (Decidable (_ ∨ _))
  | .new _ _ _ _ _ _ | .ref _ | .setDetach _ _ | .setTimeout _ _ | .add _ _ | .prepRet _ _ _ | .end_ _ _ | .postRet _ _
  | .harvest _ | .reapEfd | .reapUsd | .reapTmr _ => .isTrue trivial

/-! ### What most operations leave alone -/

/-- Nothing is allocated, freed, watched or walked. -/
structure Same (s u : Dpevp κ) : Prop where
  kind : ∀ k,(u.ele k).kind=(s.ele k).kind
  fd : ∀ k,(u.ele k).fd=(s.ele k).fd
  alive : u.alive=s.alive
  evs : u.evs=s.evs
  reg : u.reg=s.reg
  stack : u.stack=s.stack
  dels : u.dels=s.dels
  gen : u.gen=s.gen
  batch : u.batch=s.batch
  fed : u.fed=s.fed
  stray : u.stray=s.stray

/-- The cached events are the same, too. -/
def Kept (s u : Dpevp κ) : Prop := ∀ k,(u.ele k).efd.able=(s.ele k).efd.able

section Same
variable {s t u : Dpevp κ} {k : κ}

theorem Same.refl (s : Dpevp κ) : Same s s := ⟨fun _ => rfl,fun _ => rfl,rfl,rfl,rfl,rfl,rfl,rfl,rfl,rfl,rfl⟩

theorem Same.trans (h : Same s t) (h' : Same t u) : Same s u :=
  ⟨fun k => (h'.kind k).trans (h.kind k),fun k => (h'.fd k).trans (h.fd k),h'.alive.trans h.alive,h'.evs.trans h.evs,
    h'.reg.trans h.reg,h'.stack.trans h.stack,h'.dels.trans h.dels,h'.gen.trans h.gen,h'.batch.trans h.batch,
    h'.fed.trans h.fed,h'.stray.trans h.stray⟩

theorem update_ele {α : Type*} (f : Ele κ → α) {e : Ele κ} (h : f e=f (s.ele k)) (j : κ) :
    f (Function.update s.ele k e j)=f (s.ele j) := by
  by_cases hj : j=k
  · subst hj; rw [Function.update_self]; exact h
  · rw [Function.update_of_ne hj]

theorem same_setEle {e : Ele κ} (hk : e.kind=(s.ele k).kind) (hf : e.fd=(s.ele k).fd) : Same s (s.setEle k e) :=
  ⟨update_ele (·.kind) hk,update_ele (·.fd) hf,rfl,rfl,rfl,rfl,rfl,rfl,rfl,rfl,rfl⟩

theorem same_setPending (b : Bool) : Same s (s.setPending k b) :=
  ⟨fun _ => rfl,fun _ => rfl,rfl,rfl,rfl,rfl,rfl,rfl,rfl,rfl,rfl⟩

theorem same_timer (q : List κ) : Same s {s with timer := q} :=
  ⟨fun _ => rfl,fun _ => rfl,rfl,rfl,rfl,rfl,rfl,rfl,rfl,rfl,rfl⟩

theorem same_ready (q : List κ) : Same s {s with ready := q} :=
  ⟨fun _ => rfl,fun _ => rfl,rfl,rfl,rfl,rfl,rfl,rfl,rfl,rfl,rfl⟩

theorem kept_setEle {e : Ele κ} (h : e.efd.able=(s.ele k).efd.able) : Kept s (s.setEle k e) := update_ele (·.efd.able) h

theorem same_remove : Same s (dptmrsetRemove s k) ∧ Kept s (dptmrsetRemove s k) := by
  unfold dptmrsetRemove
  split
  · exact ⟨(same_setEle (e := {s.ele k with isTiming := false}) rfl rfl).trans (same_timer _),kept_setEle rfl⟩
  · exact ⟨.refl s,fun _ => rfl⟩

theorem same_upsert (now : ℤ) : Same s (dptmrsetUpsert s k now) ∧ Kept s (dptmrsetUpsert s k now) := by
  unfold dptmrsetUpsert
  split
  · exact ⟨.refl s,fun _ => rfl⟩
  · rename_i x _
    split
    · exact ⟨.refl s,fun _ => rfl⟩
    · have h1 : Same s (s.setEle k {s.ele k with spec := some {x with expire := now+x.after}}) := same_setEle rfl rfl
      have h2 : Kept s (s.setEle k {s.ele k with spec := some {x with expire := now+x.after}}) := kept_setEle rfl
      set t := s.setEle k {s.ele k with spec := some {x with expire := now+x.after}} with ht
      simp only
      split
      · exact ⟨h1.trans (same_timer _),h2⟩
      · split
        · exact ⟨h1,h2⟩
        · have h3 : Same t (t.setEle k {t.ele k with isTiming := true}) := same_setEle rfl rfl
          have h4 : Kept t (t.setEle k {t.ele k with isTiming := true}) := kept_setEle rfl
          exact ⟨(h1.trans h3).trans (same_timer _),fun j => (h4 j).trans (h2 j)⟩

theorem same_addFinish {r : Dpret} {now : ℤ} : Same s (addFinish s k r now) ∧ Kept s (addFinish s k r now) := by
  unfold addFinish
  split
  · have h1 : Same s (s.setEle k {s.ele k with ret := r}) := same_setEle rfl rfl
    exact ⟨(h1.trans (same_ready _)).trans (same_setPending false),kept_setEle rfl⟩
  · split
    · have h1 : Same s (s.setEle k {s.ele k with ret := dpeInprogress}) := same_setEle rfl rfl
      have h2 : Kept s (s.setEle k {s.ele k with ret := dpeInprogress}) := kept_setEle rfl
      obtain ⟨h3,h4⟩ := same_upsert (s := s.setEle k {s.ele k with ret := dpeInprogress}) (k := k) now
      exact ⟨(h1.trans h3).trans (same_setPending true),fun j => (h4 j).trans (h2 j)⟩
    · exact ⟨(same_setEle (e := {s.ele k with ret := r, asc := none}) rfl rfl).trans (same_setPending false),
        kept_setEle rfl⟩

end Same

/-! ### The walk -/

structure Walk (s : Dpevp κ) : Prop where
  reg : ∀ k,s.reg k=true → s.alive k=true ∧ (s.ele k).kind=.efd ∧ (s.ele k).fd=true ∧ .free k∉s.dels
  evs : ∀ en∈s.evs,s.alive en.key=true ∧ en.gen=s.gen en.key ∧ .free en.key∉s.dels
  once : (s.evs.map (·.key)).Nodup
  frames : ∀ k,.over k∈s.stack ∨ .wake k false∈s.stack → ¬awaited s k
  stray : s.stray=false
  batch : s.batch=s.fed++s.evs

section Walk
variable {s t u : Dpevp κ} {k : κ}

theorem walk_start : Walk ({} : Dpevp κ) := by constructor <;> simp [awaited]

theorem walk_same (hs : Walk s) (h : Same s u) : Walk u := by
  constructor
  · intro k hk
    rw [h.reg] at hk
    rw [h.alive,h.kind,h.fd,h.dels]
    exact hs.reg k hk
  · rw [h.evs,h.alive,h.gen,h.dels]; exact hs.evs
  · rw [h.evs]; exact hs.once
  · simp only [awaited,h.stack,h.evs]; exact hs.frames
  · rw [h.stray]; exact hs.stray
  · rw [h.batch,h.fed,h.evs]; exact hs.batch

theorem walk_stack {st : List (Frame κ)} (hs : Walk s)
    (h : ∀ k,.over k∈st ∨ .wake k false∈st → ¬awaited s k) : Walk {s with stack := st} :=
  ⟨hs.reg,hs.evs,hs.once,h,hs.stray,hs.batch⟩

theorem walk_pop {fr : Frame κ} {st : List (Frame κ)} (hs : Walk s) (h : s.stack=fr::st) : Walk {s with stack := st} := by
  refine walk_stack hs fun k hk => hs.frames k ?_
  rw [h]
  exact hk.imp (List.mem_cons_of_mem _) (List.mem_cons_of_mem _)

theorem walk_push {fr : Frame κ} (hs : Walk s) (h : fr=.over k ∨ fr=.wake k false → ¬awaited s k) (hf : fr.key=k) :
    Walk {s with stack := fr::s.stack} := by
  refine walk_stack hs fun j hj => ?_
  by_cases hin : .over j∈s.stack ∨ .wake j false∈s.stack
  · exact hs.frames j hin
  · have hfr : fr=.over j ∨ fr=.wake j false := by
      simp only [List.mem_cons] at hj
      obtain (h1 | h1) | (h1 | h1) := hj
      · exact .inl h1.symm
      · exact (hin (.inl h1)).elim
      · exact .inr h1.symm
      · exact (hin (.inr h1)).elim
    have hjk : j=k := by
      obtain rfl | rfl := hfr <;> exact hf
    subst hjk
    exact h hfr

theorem walk_del (hs : Walk s) (hk : ¬awaited s k) : Walk (dpeleDel s k) := by
  have hu (l : List κ) (j : κ) : .free j∉l.map DelOp.unref := by simp
  constructor
  · intro j hj
    have hj' : s.reg j=true ∧ j≠k := by
      simp only [dpeleDel] at hj
      split at hj
      · by_cases hjk : j=k
        · subst hjk; simp at hj
        · rw [Function.update_of_ne hjk] at hj; exact ⟨hj,hjk⟩
      · rename_i hn
        refine ⟨hj,?_⟩
        rintro rfl
        have h := hs.reg j hj
        exact hn ⟨h.2.1,h.2.2.1⟩
    obtain ⟨ha,hkind,hfd,hfree⟩ := hs.reg j hj'.1
    refine ⟨ha,hkind,hfd,?_⟩
    simp only [dpeleDel,List.mem_append,List.mem_cons,DelOp.free.injEq,not_or]
    exact ⟨hu _ j,hj'.2,hfree⟩
  · intro en hen
    obtain ⟨ha,hg,hf⟩ := hs.evs en hen
    refine ⟨ha,hg,?_⟩
    simp only [dpeleDel,List.mem_append,List.mem_cons,DelOp.free.injEq,not_or]
    refine ⟨hu _ _,?_,hf⟩
    rintro rfl
    exact hk (List.mem_map_of_mem hen)
  · exact hs.once
  · exact hs.frames
  · exact hs.stray
  · exact hs.batch

theorem walk_ascEnd (hs : Walk s) (hk : ¬awaited s k) : Walk (ascEnd s k) := by
  unfold ascEnd
  split
  · exact walk_del hs hk
  · exact hs

theorem walk_ascOver (hs : Walk s) (hk : ¬awaited s k) : Walk (dpeleAscOver s k) := by
  simp only [dpeleAscOver]
  set t := (s.setEle k {s.ele k with efd := {(s.ele k).efd with want := ∅}, asc := none}).setPending k false with ht
  have hst : Same s t :=
    (same_setEle (e := {s.ele k with efd := {(s.ele k).efd with want := ∅}, asc := none}) rfl rfl).trans
      (same_setPending false)
  have hw : Walk t := walk_same hs hst
  have hkt : ¬awaited t k := by simpa only [awaited,hst.evs] using hk
  split
  · exact walk_ascEnd hw hkt
  · split
    · exact walk_push hw (fun _ => hkt) rfl
    · exact walk_ascEnd hw hkt

theorem walk_feedEnd {r : Dpret} (hs : Walk s) (hk : ¬awaited s k) : Walk (feedEnd s k r) := by
  unfold feedEnd
  split
  · exact walk_same hs (same_setEle rfl rfl)
  · have h : Same s (dptmrsetRemove (s.setEle k {s.ele k with ret := r}) k) :=
      (same_setEle (e := {s.ele k with ret := r}) rfl rfl).trans same_remove.1
    refine walk_ascOver (walk_same hs h) ?_
    simpa only [awaited,h.evs] using hk

theorem walk_wakeTurn {add : Bool} {now : ℤ} {p : Efd × Turn} (hs : Walk s) (hk : add=false → ¬awaited s k) :
    Walk (wakeTurn s k add now p) := by
  obtain ⟨f,w⟩ := p
  have hst : Same s (s.setEle k {s.ele k with efd := f}) := same_setEle rfl rfl
  have hw := walk_same hs hst
  have hkt : add=false → ¬awaited (s.setEle k {s.ele k with efd := f}) k := hk
  cases w with
  | post =>
    refine walk_push hw (k := k) (fun h => hkt ?_) rfl
    cases add with
    | false => rfl
    | true => simp at h
  | ret r =>
    simp only [wakeTurn]
    cases add with
    | true => exact walk_same hw same_addFinish.1
    | false => exact walk_feedEnd hw (hkt rfl)

theorem walk_unref (hs : Walk s) (hk : lastRef s k → ¬awaited s k) : Walk (unref s k) := by
  simp only [unref]
  have hst : Same s (s.setEle k {s.ele k with refc := (s.ele k).refc-1}) := same_setEle rfl rfl
  split
  · rename_i h
    exact walk_del (walk_same hs hst) (hk h)
  · exact walk_same hs hst

theorem walk_alloc {e : Ele κ} (reg : Bool) (hs : Walk s) (hd : s.dels=[]) (ha : s.alive k=false)
    (he : reg=true → e.kind=.efd ∧ e.fd=true) : Walk (alloc s k e reg) ∧ ¬awaited (alloc s k e reg) k := by
  have hne : ∀ en∈s.evs,en.key≠k := by
    rintro en hen rfl
    have := (hs.evs en hen).1
    rw [ha] at this
    cases this
  refine ⟨⟨fun j hj => ?_,fun en hen => ?_,hs.once,hs.frames,hs.stray,hs.batch⟩,?_⟩
  · simp only [alloc,hd]
    by_cases hjk : j=k
    · subst hjk
      simp only [alloc,Function.update_self] at hj ⊢
      exact ⟨trivial,(he hj).1,(he hj).2,by simp⟩
    · simp only [alloc,Function.update_of_ne hjk] at hj ⊢
      obtain ⟨h1,h2,h3,-⟩ := hs.reg j hj
      exact ⟨h1,h2,h3,by simp⟩
  · simp only [alloc,Function.update_of_ne (hne en hen)]
    exact hs.evs en hen
  · intro h
    obtain ⟨en,hen,hk⟩ := List.mem_map.mp h
    exact hne en hen hk

theorem walk_reapEfd (hs : Walk s) (h : step s .reapEfd=some u) : Walk u := by
  simp only [step] at h
  split at h
  · rename_i en evs hev
    split at h
    · obtain ⟨ha,hg,hf⟩ := hs.evs en (by simp [hev])
      have honce : en.key∉evs.map (·.key) ∧ (evs.map (·.key)).Nodup := by
        have := hs.once
        rw [hev,List.map_cons,List.nodup_cons] at this
        exact this
      set e : Ele κ := {s.ele en.key with
        efd := {(s.ele en.key).efd with able := (s.ele en.key).efd.able∪en.evt.bits}} with he
      have hset : Walk (s.setEle en.key e) := walk_same hs (same_setEle rfl rfl)
      set t := {s.setEle en.key e with evs := evs, fed := s.fed++[en], stray := s.stray || !s.alive en.key} with ht
      have hst : Walk t := by
        refine ⟨hset.reg,fun en' hen => hset.evs en' ?_,honce.2,fun k hk hm => hset.frames k hk ?_,?_,?_⟩
        · rw [show (s.setEle en.key e).evs=en::evs from hev]
          exact List.mem_cons_of_mem _ hen
        · simp only [awaited,show (s.setEle en.key e).evs=en::evs from hev,List.map_cons]
          exact List.mem_cons_of_mem _ hm
        · simp [ht,hs.stray,ha]
        · have hb : s.batch=s.fed++s.evs := hs.batch
          rw [hev] at hb
          exact hb.trans (List.append_assoc s.fed [en] evs).symm
      split at h
      · obtain rfl := Option.some.inj h
        exact hst
      · obtain rfl := Option.some.inj h
        exact walk_wakeTurn hst fun _ => honce.1
    · cases h
  · cases h

theorem walk_step {a : Act κ} (hs : Walk s) (hok : spared s a) (h : step s a=some u) : Walk u := by
  cases a with
  | new k kind aio fd lower ok =>
    simp only [step] at h
    split at h
    · rename_i hc
      split at h
      · cases h
        exact (walk_alloc _ hs hc.1 hc.2 (by simp_all)).1
      · cases h
        have hw := walk_alloc (e := {kind := kind, aio := aio, fd := kind≠.efd || fd, refc := 1, lower := lower}) false
          hs hc.1 hc.2 (by simp)
        exact walk_del hw.1 hw.2
    · cases h
  | ref k | setTimeout k sec =>
    simp only [step] at h
    split at h <;> cases h
    exact walk_same hs (same_setEle rfl rfl)
  | setDetach k b =>
    simp only [step] at h
    split at h
    · split at h <;> cases h
      · exact hs
      · exact walk_same hs (same_setEle rfl rfl)
    · cases h
  | add k asc =>
    simp only [step] at h
    split at h
    · split at h
      · cases h; exact hs
      · split at h
        · cases h; exact hs
        · cases h
          have hw : Walk (s.setEle k {s.ele k with asc := some asc}) := walk_same hs (same_setEle rfl rfl)
          exact walk_push hw (k := k) (by simp) rfl
    · cases h
  | prepRet ret out now =>
    simp only [step] at h
    split at h
    · rename_i k stack hst
      have hw := walk_pop hs hst
      split at h
      · split at h
        · cases h; exact walk_same hw same_addFinish.1
        · split at h
          · cases h; exact walk_wakeTurn hw (by simp)
          · cases h; exact walk_same hw same_addFinish.1
      · cases h
    · cases h
  | end_ k ret =>
    simp only [step] at h
    split at h
    · split at h <;> cases h
      · have hr : Walk (dptmrsetRemove s k) := walk_same hs same_remove.1
        set t := dptmrsetRemove s k with ht
        have hq := walk_same (walk_same hr (same_setEle (k := k) (e := {t.ele k with
          efd := if (t.ele k).kind=.efd then {(t.ele k).efd with want := ∅} else (t.ele k).efd, ret := ret}) rfl rfl))
          (same_ready (Dpapp.CtcChannel.deqPushBack t.ready k))
        exact walk_same hq (same_setPending false)
      · exact hs
    · cases h
  | del k =>
    simp only [step] at h
    split at h <;> cases h
    exact walk_unref hs hok
  | dup k j ok =>
    simp only [step] at h
    split at h
    · rename_i hc
      split at h
      · cases h; exact hs
      · split at h
        · rename_i hfd
          split at h
          · rename_i hk
            obtain hk' | hk' := hok
            · simp [hk'] at hfd
            · rw [hk'] at hk; cases hk
          · cases h; exact hs
        · cases h
          exact (walk_alloc _ hs hc.1.1 hc.2 (by simp)).1
    · cases h
  | postRet p now =>
    simp only [step] at h
    split at h
    · rename_i k add stack hst
      split at h <;> cases h
      refine walk_wakeTurn (walk_pop hs hst) fun ha => hs.frames k (.inr ?_)
      rw [hst,ha]
      exact List.mem_cons_self ..
    · rename_i k stack hst
      split at h <;> cases h
      have hk : ¬awaited s k := hs.frames k (.inl (by rw [hst]; exact List.mem_cons_self ..))
      exact walk_ascEnd (walk_same (walk_pop hs hst) (same_setEle rfl rfl)) hk
    · cases h
  | cont =>
    simp only [step] at h
    split at h
    · rename_i k dels hd
      cases h
      simp only [spared,hd] at hok
      refine walk_unref (s := {s with dels := dels}) ⟨fun j hj => ?_,fun en hen => ?_,hs.once,hs.frames,hs.stray,hs.batch⟩ hok
      · obtain ⟨h1,h2,h3,h4⟩ := hs.reg j hj
        exact ⟨h1,h2,h3,fun hm => h4 (by rw [hd]; exact List.mem_cons_of_mem _ hm)⟩
      · obtain ⟨h1,h2,h3⟩ := hs.evs en hen
        exact ⟨h1,h2,fun hm => h3 (by rw [hd]; exact List.mem_cons_of_mem _ hm)⟩
    · rename_i k dels hd
      cases h
      have hne {j : κ} (hj : .free j∉s.dels) : j≠k := by
        rintro rfl
        exact hj (by rw [hd]; exact List.mem_cons_self ..)
      refine ⟨fun j hj => ?_,fun en hen => ?_,hs.once,hs.frames,hs.stray,hs.batch⟩
      · obtain ⟨h1,h2,h3,h4⟩ := hs.reg j hj
        refine ⟨(Function.update_of_ne (hne h4) ..).trans h1,h2,h3,fun hm => h4 ?_⟩
        rw [hd]; exact List.mem_cons_of_mem _ hm
      · obtain ⟨h1,h2,h3⟩ := hs.evs en hen
        refine ⟨(Function.update_of_ne (hne h3) ..).trans h1,h2,fun hm => h3 ?_⟩
        rw [hd]; exact List.mem_cons_of_mem _ hm
    · cases h
  | harvest evs =>
    simp only [step] at h
    split at h <;> cases h
    rename_i hc
    obtain ⟨hpop,-,hrep⟩ := hc
    refine ⟨hs.reg,fun en hen => ?_,hrep.1,fun k hk => ?_,hs.stray,rfl⟩
    · obtain ⟨hr,hg⟩ := hrep.2 en hen
      obtain ⟨ha,-,-,hf⟩ := hs.reg _ hr
      exact ⟨ha,hg,hf⟩
    · simp only [hpop.2] at hk
      simp at hk
  | reapEfd => exact walk_reapEfd hs h
  | reapUsd =>
    simp only [step] at h
    split at h
    · rename_i k ready hre
      split at h <;> cases h
      rename_i hc
      refine walk_ascOver (walk_same hs (same_ready ready)) ?_
      simp [awaited,hc.2]
    · cases h
  | reapTmr now =>
    simp only [step] at h
    split at h
    · rename_i k timer hti
      split at h <;> cases h
      rename_i hc
      refine walk_ascOver (walk_same (walk_same hs (same_timer timer)) (same_setEle rfl rfl)) fun hm => ?_
      have hm' : k∈s.evs.map (·.key) := hm
      rw [hc.2.1] at hm'
      simp at hm'
    · cases h

theorem walk_run (h : Reach step spared {} s) : Walk s :=
  h.invariant walk_start fun _ _ _ hs hok ht => walk_step hs hok ht

end Walk

/-! ### The bits an element receives -/

section Bits
variable {s u : Dpevp κ} {k : κ}

@[simp] theorem dpeleDel_ele : (dpeleDel s k).ele=s.ele := rfl
@[simp] theorem dpeleDel_evs : (dpeleDel s k).evs=s.evs := rfl

@[simp] theorem ascEnd_ele : (ascEnd s k).ele=s.ele := by unfold ascEnd; split <;> rfl
@[simp] theorem ascEnd_evs : (ascEnd s k).evs=s.evs := by unfold ascEnd; split <;> rfl

theorem kept_ascOver : Kept s (dpeleAscOver s k) ∧ (dpeleAscOver s k).evs=s.evs := by
  have h : Kept s ((s.setEle k {s.ele k with efd := {(s.ele k).efd with want := ∅}, asc := none}).setPending k false) :=
    kept_setEle rfl
  simp only [dpeleAscOver]
  split
  · exact ⟨fun j => by rw [ascEnd_ele]; exact h j,by simp; rfl⟩
  · split
    · exact ⟨h,rfl⟩
    · exact ⟨fun j => by rw [ascEnd_ele]; exact h j,by simp; rfl⟩

theorem kept_feedEnd {r : Dpret} : Kept s (feedEnd s k r) ∧ (feedEnd s k r).evs=s.evs := by
  unfold feedEnd
  split
  · exact ⟨kept_setEle rfl,rfl⟩
  · have h1 : Kept s (s.setEle k {s.ele k with ret := r}) := kept_setEle rfl
    obtain ⟨h2,h3⟩ := same_remove (s := s.setEle k {s.ele k with ret := r}) (k := k)
    obtain ⟨h4,h5⟩ := kept_ascOver (s := dptmrsetRemove (s.setEle k {s.ele k with ret := r}) k) (k := k)
    exact ⟨fun j => ((h4 j).trans (h3 j)).trans (h1 j),h5.trans h2.evs⟩

/-- A wake changes the cached events only of its own element, to what the loop leaves. -/
theorem wakeTurn_able (s : Dpevp κ) (k : κ) (add : Bool) (now : ℤ) (f : Efd) (w : Turn) :
    (wakeTurn s k add now (f,w)).evs=s.evs ∧
    ((wakeTurn s k add now (f,w)).ele k).efd.able=f.able ∧
    ∀ j,j≠k → ((wakeTurn s k add now (f,w)).ele j).efd.able=(s.ele j).efd.able := by
  have hk : ((s.setEle k {s.ele k with efd := f}).ele k).efd.able=f.able := by simp
  have hj (j : κ) (h : j≠k) : ((s.setEle k {s.ele k with efd := f}).ele j).efd.able=(s.ele j).efd.able := by
    simp [Function.update_of_ne h]
  have hfin {t : Dpevp κ} (he : t.evs=s.evs) (hkept : Kept (s.setEle k {s.ele k with efd := f}) t) :
      t.evs=s.evs ∧ (t.ele k).efd.able=f.able ∧ ∀ j,j≠k → (t.ele j).efd.able=(s.ele j).efd.able :=
    ⟨he,(hkept k).trans hk,fun j h => (hkept j).trans (hj j h)⟩
  cases w with
  | post => exact ⟨rfl,hk,hj⟩
  | ret r =>
    simp only [wakeTurn]
    cases add with
    | true => exact hfin same_addFinish.1.evs same_addFinish.2
    | false => exact hfin kept_feedEnd.2 kept_feedEnd.1

/-- An element that is fed an event has afterwards what it had and the event's bits, no more and no less. -/
theorem feed_bits {en : Entry κ} {evs : List (Entry κ)} (he : s.evs=en::evs) (h : step s .reapEfd=some u) :
    u.evs=evs ∧ (u.ele en.key).efd.able=(s.ele en.key).efd.able∪en.evt.bits ∧
    ∀ j,j≠en.key → (u.ele j).efd.able=(s.ele j).efd.able := by
  simp only [step,he] at h
  split at h
  · split at h
    · cases h
      exact ⟨rfl,by simp,fun j hj => by simp [Function.update_of_ne hj]⟩
    · obtain rfl := Option.some.inj h
      set f : Efd := {(s.ele en.key).efd with able := (s.ele en.key).efd.able∪en.evt.bits} with hfd
      have hf : (dpefdWake f ⟨f.want,∅⟩).1.able=f.able := by
        unfold dpefdWake
        split <;> simp
      obtain ⟨h1,h2,h3⟩ := wakeTurn_able {s.setEle en.key {s.ele en.key with efd := f} with
          evs := evs, fed := s.fed++[en], stray := s.stray || !s.alive en.key} en.key false 0 (dpefdWake f ⟨f.want,∅⟩).1
          (dpefdWake f ⟨f.want,∅⟩).2
      refine ⟨h1,h2.trans hf,fun j hj => (h3 j hj).trans ?_⟩
      simp [Function.update_of_ne hj]
  · cases h

theorem kept_sub (h : Kept s u) (j : κ) : (u.ele j).efd.able⊆(s.ele j).efd.able := (h j).subset

theorem wakeTurn_sub {t : Dpevp κ} {add : Bool} {now : ℤ} {p : Efd × Turn} (ht : Kept s t)
    (hp : p.1.able⊆(t.ele k).efd.able) (j : κ) : ((wakeTurn t k add now p).ele j).efd.able⊆(s.ele j).efd.able := by
  obtain ⟨-,h1,h2⟩ := wakeTurn_able t k add now p.1 p.2
  rw [←ht j]
  by_cases hj : j=k
  · subst hj; exact h1.subset.trans hp
  · exact (h2 j hj).subset

theorem unref_ele : Kept s (unref s k) := by
  simp only [unref]
  split
  · exact kept_setEle rfl
  · exact kept_setEle rfl

theorem alloc_sub {e : Ele κ} (reg : Bool) {j : κ} (hj : (alloc s k e reg).gen j=s.gen j) :
    ((alloc s k e reg).ele j).efd.able⊆(s.ele j).efd.able := by
  have hne : j≠k := by
    rintro rfl
    simp [alloc] at hj
  simp [alloc,Function.update_of_ne hne]

/-- Nothing else adds a bit to an element. -/
theorem other_bits {a : Act κ} (ha : a≠.reapEfd) (h : step s a=some u) (j : κ) (hj : u.gen j=s.gen j) :
    (u.ele j).efd.able⊆(s.ele j).efd.able := by
  cases a with
  | new k kind aio fd lower ok =>
    simp only [step] at h
    split at h
    · split at h <;> cases h
      · exact alloc_sub _ hj
      · exact alloc_sub false hj
    · cases h
  | ref k | setTimeout k sec =>
    simp only [step] at h
    split at h <;> cases h
    exact (kept_setEle (by rfl) j).subset
  | setDetach k b =>
    simp only [step] at h
    split at h
    · split at h <;> cases h
      · exact subset_rfl
      · exact (kept_setEle (by rfl) j).subset
    · cases h
  | add k asc =>
    simp only [step] at h
    split at h
    · split at h
      · cases h; exact subset_rfl
      · split at h <;> cases h
        · exact subset_rfl
        · exact (kept_setEle (by rfl) j).subset
    · cases h
  | prepRet ret out now =>
    simp only [step] at h
    split at h
    · rename_i k stack hst
      split at h
      · split at h
        · cases h; exact kept_sub same_addFinish.2 j
        · split at h <;> cases h
          · exact wakeTurn_sub (s := s) (t := {s with stack := stack}) (fun _ => rfl) dpefdWake_able j
          · exact kept_sub same_addFinish.2 j
      · cases h
    · cases h
  | end_ k ret =>
    simp only [step] at h
    split at h
    · split at h <;> cases h
      · set t := dptmrsetRemove s k with ht
        have h1 : Kept s t := same_remove.2
        have h2 : Kept t (t.setEle k {t.ele k with
            efd := if (t.ele k).kind=.efd then {(t.ele k).efd with want := ∅} else (t.ele k).efd, ret := ret}) :=
          kept_setEle (by simp only; split <;> rfl)
        exact ((h2 j).trans (h1 j)).subset
      · exact subset_rfl
    · cases h
  | del k =>
    simp only [step] at h
    split at h <;> cases h
    exact kept_sub unref_ele j
  | dup k i ok =>
    simp only [step] at h
    split at h
    · split at h
      · cases h; exact subset_rfl
      · split at h
        · split at h
          · cases h
            exact alloc_sub true hj
          · cases h; exact subset_rfl
        · cases h; exact alloc_sub _ hj
    · cases h
  | postRet p now =>
    simp only [step] at h
    split at h
    · rename_i k add stack hst
      split at h <;> cases h
      exact wakeTurn_sub (s := s) (t := {s with stack := stack}) (fun _ => rfl) dpefdPosted_able j
    · split at h <;> cases h
      rw [ascEnd_ele]
      exact (kept_setEle (by rfl) j).subset
    · cases h
  | cont =>
    simp only [step] at h
    split at h <;> cases h
    · exact kept_sub unref_ele j
    · exact subset_rfl
  | harvest evs =>
    simp only [step] at h
    split at h <;> cases h
    exact subset_rfl
  | reapEfd => exact (ha rfl).elim
  | reapUsd =>
    simp only [step] at h
    split at h
    · split at h <;> cases h
      exact kept_sub kept_ascOver.1 j
    · cases h
  | reapTmr now =>
    simp only [step] at h
    split at h
    · rename_i k timer hti
      split at h <;> cases h
      have h1 : Kept s ({s with timer := timer}.setEle k {s.ele k with isTiming := false, ret := dpeTime}) := kept_setEle rfl
      exact ((kept_ascOver.1 j).trans (h1 j)).subset
    · cases h

end Bits

/-- What holds of the batch: it is walked in order, entry by entry, without touching a deleted element,
and each element gets the bits of its entry and no others. -/
structure Walked (s : Dpevp κ) : Prop where
  stray : s.stray=false
  batch : s.batch=s.fed++s.evs
  waits : ∀ en∈s.evs,s.alive en.key=true ∧ en.gen=s.gen en.key
  feeds : ∀ en evs u,s.evs=en::evs → step s .reapEfd=some u → u.evs=evs ∧
    (u.ele en.key).efd.able=(s.ele en.key).efd.able∪en.evt.bits ∧
    ∀ j,j≠en.key → (u.ele j).efd.able=(s.ele j).efd.able
  only : ∀ a u j,a≠.reapEfd → step s a=some u → u.gen j=s.gen j → (u.ele j).efd.able⊆(s.ele j).efd.able

theorem event_batch {s : Dpevp κ} (h : Reach step spared {} s) : Walked s := by
  have hs := walk_run h
  exact ⟨hs.stray,hs.batch,fun en hen => ⟨(hs.evs en hen).1,(hs.evs en hen).2.1⟩,fun en evs u he hu => feed_bits he hu,
    fun a u j ha hu hj => other_bits ha hu j hj⟩

def efdPair : List (Act (Fin 2)) :=
  [.new 0 .efd false true [] true,.new 1 .efd false true [] true,
    .harvest [⟨0,⟨{.inp},false⟩,1⟩,⟨1,⟨{.inp},true⟩,1⟩],.reapEfd]

/-- The element popped first is deleted before the event of the other is reached. -/
theorem event_batch_pair : ∃ s : Dpevp (Fin 2),
    Reach step spared {} s ∧ s.fed.map (·.key)=[0,1] ∧ s.alive 0=false ∧ Walked s := by
  have hrun : (execOk step spared {} (efdPair++[.del 0,.cont,.reapEfd])).any
      (fun s => decide (s.fed.map (·.key)=[0,1]) && !s.alive 0)=true := by decide +kernel
  obtain ⟨s,hs,hf⟩ := (Option.any_eq_true _ _).mp hrun
  simp only [Bool.and_eq_true,decide_eq_true_eq,Bool.not_eq_true'] at hf
  exact ⟨s,execOk_reach hs,hf.1,hf.2,event_batch (execOk_reach hs)⟩

/-- The element whose event comes later is deleted. -/
theorem event_batch_stray : ¬∀ s : Dpevp (Fin 2),Reach step anyStep {} s → Walked s := by
  intro h
  have hrun : (exec step {} (efdPair++[.del 1,.cont,.reapEfd])).any (·.stray)=true := by decide +kernel
  obtain ⟨s,hs,hf⟩ := (Option.any_eq_true _ _).mp hrun
  have := (h s (exec_reach hs)).stray
  rw [hf] at this
  cases this

end Dpapp.EventBatch
