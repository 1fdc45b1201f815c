import Dpapp.ThreadLayout

/-! # The start of the threads (dpapp.c)

The engines and their threads come one after the other, in the order of the ids. One loop at the end deletes them, on
the normal way after the threads have been joined, on the way of an error at once. -/

namespace Dpapp.AppStart
open Dpapp.Ret Dpapp.ThreadLayout

def dpeUninit : Dpret := -152

/-- Which calls of `dpevp_new` and of `pthread_create` succeed, and which threads have ended when the last loop comes to
their engine. -/
structure System where
  evpNew : ℤ → Bool
  threadCreate : ℤ → Bool
  ended : ℤ → Bool

/-- The engines by their ids, in order: the slots of `_gevps.evps` that are filled, the engines that have been deleted
and those of them a thread was still running. `threads` are the threads to be joined. -/
structure Run where
  made : List ℤ := []
  threads : List ℤ := []
  deleted : List ℤ := []
  early : List ℤ := []
deriving DecidableEq

/-- The two loops over the types, false where they go to the error label. -/
def startWorkers (x : System) : List ℤ → Run → Run×Bool
  | [], r => (r,true)
  | id::ids, r =>
      if x.evpNew id=false then (r,false)
      else
        let r := {r with made := r.made++[id]}
        if x.threadCreate id=false then (r,false) else startWorkers x ids {r with threads := r.threads++[id]}

/-- `dpevp_del(_gevps.evps[id])`, which reads the id of the engine: none for NULL. -/
def dpevpDel (x : System) (r : Run) (id : ℤ) : Option Run :=
  if id∈r.made then
    some {r with
      deleted := r.deleted++[id]
      early := if id∈r.threads ∧ x.ended id=false then r.early++[id] else r.early}
  else none

/-- The ids from 0 to `_gevps.count`. -/
def slots (s : Evps) : List ℤ := (List.range s.count.toNat).map Nat.cast

def delAll (x : System) (s : Evps) (r : Run) : Option Run := (slots s).foldlM (dpevpDel x) r

/-- The ids of the types from 1 on. -/
def workers (s : Evps) : List ℤ := s.eachIds.tail.flatten

/-- The code up to the label: the run and what is returned after it. -/
def startAll (x : System) (s : Evps) : Run×Dpret :=
  if x.evpNew 0=false then ({},dpeUninit)
  else
    match startWorkers x (workers s) {made := [0]} with
    | (r,true) => ({r with threads := []},dpeOk)
    | (r,false) => (r,dpeUninit)

/-- The run, what is returned and the tables that are left (`evps=NULL` as none). None where an engine that is NULL is
deleted. -/
def dpappStart (host : Host) (x : System) (args : DpappArg) (g : Option Evps) : Option (Run×Dpret×Option Evps) :=
  match dpappInit host g.isSome args with
  | .error ret => some ({},ret,g)
  | .ok s => (delAll x s (startAll x s).1).map fun r => (r,(startAll x s).2,none)

/-! ### What is asked for -/

def succeeds (x : System) (s : Evps) : Prop :=
  x.evpNew 0 ∧ ∀ id∈workers s,x.evpNew id ∧ x.threadCreate id

/-- What a start that fails has to leave. -/
structure Cleared (r : Run) (ret : Dpret) (g : Option Evps) : Prop where
  negative : dpretIserr ret
  once : ∀ id∈r.made,r.made.count id=1 ∧ r.deleted.count id=1
  only : ∀ id∈r.deleted,id∈r.made
  after : r.early=[]
  tables : g=none

def Right (o : Option (Run×Dpret×Option Evps)) : Prop := ∃ r ret g,o=some (r,ret,g) ∧ Cleared r ret g

/-- All that fails is the creation of the last thread, after those of the others have ended. -/
def fits (x : System) (s : Evps) : Prop :=
  x.evpNew 0 ∧ ∃ a id,workers s=a++[id] ∧ (∀ j∈a,x.evpNew j ∧ x.threadCreate j ∧ x.ended j) ∧
    x.evpNew id ∧ x.threadCreate id=false

section Start
variable {host : Host} {args : DpappArg} {x : System} {s : Evps} {r t : Run} {ids : List ℤ} {id : ℤ}

/-- The ids of a layout, the master's first. -/
theorem slots_eq (h : dpappInit host false args=.ok s) (hsum : (requested args).sum<2^31) : slots s=0::workers s := by
  obtain ⟨-,-,hl⟩ := dpappInit_ok h
  obtain ⟨hmaster,-⟩ := init_requests h
  rw [requested,List.sum_cons] at hsum
  obtain ⟨hcount,hflat⟩ := layTypes_ranges (k := 1) hl rfl rfl (by omega)
  unfold slots workers
  rw [hcount,Int.toNat_natCast,← hflat]
  cases hids : s.eachIds with
  | nil =>
    rw [hids] at hmaster
    cases hmaster
  | cons l ls =>
    rw [hids,List.head?_cons] at hmaster
    cases Option.some.inj hmaster
    rfl

theorem slots_nodup (s : Evps) : (slots s).Nodup := List.nodup_range.map Nat.cast_injective

/-- The loop of the workers comes to its end, or it stops at an engine or at a thread. -/
theorem startWorkers_cases (x : System) (ids : List ℤ) (r : Run) :
    (∀ id∈ids,x.evpNew id ∧ x.threadCreate id) ∧
      startWorkers x ids r=({r with made := r.made++ids, threads := r.threads++ids},true) ∨
    ∃ a id b,ids=a++id::b ∧ (∀ j∈a,x.evpNew j ∧ x.threadCreate j) ∧
      (x.evpNew id=false ∧ startWorkers x ids r=({r with made := r.made++a, threads := r.threads++a},false) ∨
       x.evpNew id ∧ x.threadCreate id=false ∧
        startWorkers x ids r=({r with made := r.made++(a++[id]), threads := r.threads++a},false)) := by
  induction ids generalizing r with
  | nil => exact .inl ⟨fun _ h => absurd h List.not_mem_nil,by simp [startWorkers]⟩
  | cons id ids ih =>
    rw [startWorkers]
    by_cases hevp : x.evpNew id=false
    · rw [if_pos hevp]
      exact .inr ⟨[],id,ids,rfl,fun _ h => absurd h List.not_mem_nil,.inl ⟨hevp,by simp⟩⟩
    · rw [if_neg hevp]
      have hevp : x.evpNew id=true := Bool.eq_true_of_not_eq_false hevp
      by_cases hthread : x.threadCreate id=false
      · simp only [if_pos hthread]
        exact .inr ⟨[],id,ids,rfl,fun _ h => absurd h List.not_mem_nil,.inr ⟨hevp,hthread,by simp⟩⟩
      · simp only [if_neg hthread]
        have hthread : x.threadCreate id=true := Bool.eq_true_of_not_eq_false hthread
        have hboth {a : List ℤ} (ha : ∀ j∈a,x.evpNew j ∧ x.threadCreate j) : ∀ j∈id::a,x.evpNew j ∧ x.threadCreate j :=
          List.forall_mem_cons.mpr ⟨⟨hevp,hthread⟩,ha⟩
        rcases ih {r with made := r.made++[id], threads := r.threads++[id]} with
          ⟨hall,heq⟩ | ⟨a,j,b,rfl,ha,⟨hj,heq⟩ | ⟨hj,ht,heq⟩⟩
        · exact .inl ⟨hboth hall,by simp [heq]⟩
        · exact .inr ⟨id::a,j,b,rfl,hboth ha,.inl ⟨hj,by simp [heq]⟩⟩
        · exact .inr ⟨id::a,j,b,rfl,hboth ha,.inr ⟨hj,ht,by simp [heq]⟩⟩

/-- What the last loop leaves of a run, if it gets to its end. -/
theorem delAll_spec (x : System) (ids : List ℤ) (r : Run) : ids.foldlM (dpevpDel x) r=
    if ∀ id∈ids,id∈r.made then
      some {r with
        deleted := r.deleted++ids
        early := r.early++ids.filter fun id => decide (id∈r.threads ∧ x.ended id=false)}
    else none := by
  induction ids generalizing r with
  | nil => simp
  | cons id ids ih =>
    rw [List.foldlM_cons,dpevpDel]
    by_cases hid : id∈r.made
    · rw [if_pos hid,Option.bind_eq_bind,Option.bind_some,ih]
      by_cases hrun : id∈r.threads ∧ x.ended id=false
      · simp [hid,hrun]
      · simp [hid,hrun]
    · rw [if_neg hid,if_neg (fun h => hid (h id List.mem_cons_self))]
      rfl

/-- A run that has failed is cleared if and only if all engines are there and none of them is being run. -/
theorem cleared_iff (hnew : r.deleted=[] ∧ r.early=[]) (hmade : r.made<+:slots s) :
    Right ((delAll x s r).map fun t => (t,dpeUninit,none)) ↔
      r.made=slots s ∧ ∀ id∈slots s,id∈r.threads → x.ended id=true := by
  have hspec := delAll_spec x (slots s) r
  have hnodup : r.made.Nodup := (slots_nodup s).sublist hmade.sublist
  rw [hnew.1,hnew.2,List.nil_append,List.nil_append] at hspec
  unfold Right delAll
  rw [hspec]
  constructor
  · rintro ⟨t,ret,g,heq,hcleared⟩
    split at heq
    · rename_i hall
      cases heq
      refine ⟨hmade.eq_of_length_le ?_,fun id hid hrun => ?_⟩
      · exact (List.subperm_of_subset (slots_nodup s) hall).length_le
      · have hearly := List.filter_eq_nil_iff.mp hcleared.after id hid
        simpa [hrun] using hearly
    · cases heq
  · rintro ⟨hmade,hended⟩
    rw [if_pos (fun id hid => hmade▸hid)]
    refine ⟨_,_,_,rfl,by decide,fun id hid => ?_,fun id hid => hmade▸hid,?_,rfl⟩
    · exact ⟨List.count_eq_one_of_mem hnodup hid,List.count_eq_one_of_mem (slots_nodup s) (hmade▸hid)⟩
    · refine List.filter_eq_nil_iff.mpr fun id hid => ?_
      simpa using hended id hid

theorem last_of_nodup {l a b c : List ℤ} (hl : l.Nodup) (ha : l=a++id::b) (hc : l=c++[id]) : b=[] ∧ a=c := by
  subst ha
  have hb : b=[] := by
    by_contra hb
    have hlast : b.getLast hb=id := by
      have hsame := congrArg List.getLast? hc
      rw [List.getLast?_append,List.getLast?_concat,List.getLast?_cons,List.getLast?_eq_getLast_of_ne_nil hb] at hsame
      simpa using hsame
    have hid := (List.nodup_cons.mp (List.nodup_append.mp hl).2.1).1
    exact hid (hlast▸List.getLast_mem hb)
  subst hb
  exact ⟨rfl,(List.append_inj' hc rfl).1⟩

/-- On the normal way the engines are deleted after all threads have been joined. -/
theorem start_joined (h : dpappInit host false args=.ok s) (hsum : (requested args).sum<2^31) (hall : succeeds x s) :
    dpappStart host x args none=some ({made := slots s, deleted := slots s},dpeOk,none) := by
  have hslots := slots_eq h hsum
  have hstart : startAll x s=({made := slots s},dpeOk) := by
    unfold startAll
    rw [if_neg (by simp [hall.1])]
    rcases startWorkers_cases x (workers s) {made := [0]} with ⟨-,heq⟩ | ⟨a,id,b,hids,-,⟨hid,-⟩ | ⟨-,hid,-⟩⟩
    · simp [heq,hslots]
    · have := (hall.2 id (hids▸List.mem_append_right a List.mem_cons_self)).1
      exact absurd hid (by simp [this])
    · have := (hall.2 id (hids▸List.mem_append_right a List.mem_cons_self)).2
      exact absurd hid (by simp [this])
  have hdel := delAll_spec x (slots s) {made := slots s}
  rw [if_pos fun _ hid => hid] at hdel
  unfold dpappStart delAll
  simp only [Option.isSome_none,h,hstart,hdel]
  simp

theorem start_right (h : dpappInit host false args=.ok s) (hsum : (requested args).sum<2^31) (hfail : ¬succeeds x s) :
    Right (dpappStart host x args none) ↔ fits x s := by
  have hslots := slots_eq h hsum
  have hnodup := slots_nodup s
  unfold dpappStart
  simp only [Option.isSome_none,h]
  unfold startAll
  by_cases hmaster : x.evpNew 0=false
  · rw [if_pos hmaster]
    refine (cleared_iff ⟨rfl,rfl⟩ (List.nil_prefix)).trans ⟨fun hmade => ?_,fun hfits => ?_⟩
    · rw [hslots] at hmade
      cases hmade.1
    · exact absurd hfits.1 (by simp [hmaster])
  rw [if_neg hmaster]
  have hmaster : x.evpNew 0=true := Bool.eq_true_of_not_eq_false hmaster
  rcases startWorkers_cases x (workers s) {made := [0]} with ⟨hall,-⟩ | ⟨a,id,b,hids,ha,⟨hid,heq⟩ | ⟨hid,hthread,heq⟩⟩
  · exact absurd ⟨hmaster,hall⟩ hfail
  · -- no engine for `id`
    simp only [heq]
    refine (cleared_iff ⟨rfl,rfl⟩ ?_).trans ⟨fun hmade => ?_,fun hfits => ?_⟩
    · rw [hslots,hids]
      exact ⟨id::b,rfl⟩
    · have hlen := congrArg List.length hmade.1
      rw [hslots,hids] at hlen
      simp at hlen
    · obtain ⟨-,c,j,hc,hgood,hj,-⟩ := hfits
      have hin : id∈c++[j] := by
        rw [← hc,hids]
        exact List.mem_append_right a List.mem_cons_self
      rcases List.mem_append.mp hin with hin | hin
      · exact absurd hid (by simp [(hgood id hin).1])
      · cases List.mem_singleton.mp hin
        exact absurd hid (by simp [hj])
  · -- no thread for `id`, with those of `a` started
    simp only [heq]
    have hwhole : a++[id]<+:workers s := ⟨b,by rw [hids,List.append_assoc]; rfl⟩
    refine (cleared_iff ⟨rfl,rfl⟩ ?_).trans ⟨fun ⟨hmade,hended⟩ => ?_,fun hfits => ?_⟩
    · rw [hslots]
      exact (List.prefix_cons_inj 0).mpr hwhole
    · have hworkers : workers s=a++[id] := by
        rw [hslots] at hmade
        exact (List.cons.inj hmade).2.symm
      refine ⟨hmaster,a,id,hworkers,fun j hj => ⟨(ha j hj).1,(ha j hj).2,hended j ?_ hj⟩,hid,hthread⟩
      rw [hslots,hworkers]
      exact List.mem_cons_of_mem 0 (List.mem_append_left _ hj)
    · obtain ⟨-,c,j,hc,hgood,hj,-⟩ := hfits
      have hlast : id=j := by
        have hin : id∈c++[j] := by
          rw [← hc,hids]
          exact List.mem_append_right a List.mem_cons_self
        rcases List.mem_append.mp hin with hin | hin
        · exact absurd hthread (by simp [(hgood id hin).2.1])
        · exact List.mem_singleton.mp hin
      subst hlast
      obtain ⟨rfl,hac⟩ := last_of_nodup (List.nodup_cons.mp (hslots▸hnodup)).2 hids hc
      refine ⟨?_,fun k hk hrun => ?_⟩
      · rw [hslots,hids]
        rfl
      · exact (hgood k (hac▸hrun)).2.2

end Start

/-- A worker of the types 1 and 2 each. -/
def twoWorkers : DpappArg := DpappArg.load {dpappArgInit with rootDir := some "/"} 3 (by decide)

/-- The first worker has ended when the thread of the second cannot be created. -/
theorem start_right_last : Right (dpappStart host ⟨fun _ => true,fun id => id=1,fun _ => true⟩ twoWorkers none) := by
  refine (start_right rfl (by decide) fun hall => ?_).mpr ?_
  · exact absurd (hall.2 2 (by decide)).2 (by decide)
  · refine ⟨rfl,[1],2,rfl,fun j hj => ?_,rfl,rfl⟩
    cases List.mem_singleton.mp hj
    decide

/-- No engine for the second worker: the slot that has stayed empty is deleted as well. -/
theorem start_null : ¬∀ (host : Host) (x : System) (args : DpappArg) (s : Evps),dpappInit host false args=.ok s →
    (requested args).sum<2^31 → ¬succeeds x s → Right (dpappStart host x args none) := by
  intro hall
  have hright := hall host ⟨fun id => id≠2,fun _ => true,fun _ => true⟩ twoWorkers ⟨3,3,[1,1,1],[[0],[1],[2]]⟩ rfl (by decide)
    fun hall => absurd (hall.2 2 (by decide)).1 (by decide)
  obtain ⟨r,ret,g,heq,-⟩ := hright
  have hnone : dpappStart host ⟨fun id => id≠2,fun _ => true,fun _ => true⟩ twoWorkers none=none := by decide
  rw [hnone] at heq
  cases heq

end Dpapp.AppStart
