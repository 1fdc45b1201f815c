import Dpapp.Which
import Mathlib.Data.List.Induction

/-! # mkdir_p (which.c) -/

namespace Dpapp.MkdirP
open Dpapp.Which

abbrev Name := List Byte

/-- A file that is no directory, or a link that leads nowhere, is `other`. -/
inductive Kind
  | dir
  | other
deriving DecidableEq

/-- What is there under each path from the root: a directory above whatever is there. -/
structure Tree where
  node : List Name → Option Kind
  root : node []=some .dir
  above : ∀ p c,node (p++[c])≠none → node p=some .dir

def Tree.make (t : Tree) (p : List Name) (c : Name) (h : t.node p=some .dir) : Tree where
  node := Function.update t.node (p++[c]) (some .dir)
  root := by
    rw [Function.update_of_ne (by simp)]
    exact t.root
  above := by
    intro q d hq
    by_cases hqp : q=p++[c]
    · rw [hqp,Function.update_self]
    · rw [Function.update_of_ne hqp]
      by_cases hqd : q++[d]=p++[c]
      · rw [(List.append_inj' hqd rfl).1]
        exact h
      · rw [Function.update_of_ne hqd] at hq
        exact t.above q d hq

def eexist : ℕ := 17
def enoent : ℕ := 2
def enotdir : ℕ := 20

/-- An errno of a directory that could be made but for rights, space or the like. -/
structure Denial where
  errno : ℕ
  other : errno≠eexist

variable (deny : List Name → Option Denial)

/-- The system call on a path from the root, here the last name apart; `none` is success. -/
def mkdir (t : Tree) : List Name → Option ℕ×Tree
  | [] => (some eexist,t)
  | c::cs =>
      let p := (c::cs).dropLast
      let c := (c::cs).getLast (List.cons_ne_nil _ _)
      if t.node (p++[c])≠none then (some eexist,t)
      else if h : t.node p=some .dir then
        match deny (p++[c]) with
        | some d => (some d.errno,t)
        | none => (none,t.make p c h)
      else if p.inits.any fun q => t.node q=some .other then (some enotdir,t)
      else (some enoent,t)

/-- The for loop behind `tmp + 1`, with what stands before `p`, and the call after it. -/
def steps : List Byte → List Byte → Tree → Bool×Tree
  | done,[],t =>
      let r := mkdir deny t (meaning done)
      (r.1=none ∨ r.1=some eexist,r.2)
  | done,b::bs,t =>
      if b≠slash then steps (done++[b]) bs t
      else
        let r := mkdir deny t (meaning done)
        if r.1≠none ∧ r.1≠some eexist then (false,r.2) else steps (done++[b]) bs r.2

def mkdirP (t : Tree) (path : List Byte) : Except Fault (Bool×Tree) :=
  (normalizePath path).map fun normalized =>
    match normalized.take 4095 with
    | [] => (false,t)
    | b::bs => steps deny [b] bs t

/-! ### Name by name -/

/-- One call for each name. -/
def climb (pre : List Name) : List Name → Tree → Bool×Tree
  | [],t => (true,t)
  | c::cs,t =>
      let r := mkdir deny t (pre++[c])
      if r.1≠none ∧ r.1≠some eexist then (false,r.2) else climb (pre++[c]) cs r.2

/-- What stands before the next name. -/
def before (pre : List Name) : List Byte := slash::pre.flatMap (·++[slash])

variable {deny} {t : Tree} {pre cs : List Name} {c : Name}

theorem before_append (pre : List Name) (c : Name) : before pre++c=render (pre++[c]) := by
  rw [before,render,List.cons_append]
  congr 1
  induction pre with
  | nil => exact (List.intercalate_singleton).symm
  | cons d ds ih =>
    rw [List.flatMap_cons,List.append_assoc,ih,List.cons_append,List.intercalate_cons_of_ne_nil (by simp)]

theorem before_slash (pre : List Name) (c : Name) : render (pre++[c])++[slash]=before (pre++[c]) := by
  rw [← before_append,before,before,List.flatMap_append,List.flatMap_singleton,List.cons_append,List.cons_append,
    List.append_assoc]

theorem steps_name (c rest done : List Byte) (h : slash∉c) : steps deny done (c++rest) t=steps deny (done++c) rest t := by
  induction c generalizing done with
  | nil => rw [List.nil_append,List.append_nil]
  | cons b bs ih =>
    have hb : b≠slash := fun he => h (he ▸ List.mem_cons_self)
    rw [List.cons_append,steps,if_pos hb,ih _ fun hin => h (List.mem_cons_of_mem b hin),List.append_assoc]
    rfl

/-- The loop over the bytes makes the calls for the names. -/
theorem steps_eq (c : Name) (h : ∀ d∈pre++c::cs,proper d) :
    steps deny (before pre) ([slash].intercalate (c::cs)) t=climb deny pre (c::cs) t := by
  induction cs generalizing pre c t with
  | nil =>
    have hc := (h c (by simp)).2.2.2
    have hmeans := meaning_render h
    rw [List.intercalate_singleton,← List.append_nil c,steps_name c [] _ hc,before_append,steps,hmeans,climb,
      List.append_nil]
    generalize mkdir deny t (pre++[c])=r
    simp only [climb]
    by_cases hr : r.1≠none ∧ r.1≠some eexist
    · rw [if_pos hr,decide_eq_false fun hor => hor.elim hr.1 hr.2]
    · rw [if_neg hr,decide_eq_true (by tauto)]
  | cons d ds ih =>
    have hc := (h c (by simp)).2.2.2
    have hmeans : meaning (render (pre++[c]))=pre++[c] := meaning_render fun e he => h e (by
      rw [List.mem_append,List.mem_singleton] at he
      rcases he with he | rfl <;> simp [*])
    have hassoc : pre++[c]++d::ds=pre++c::d::ds := by rw [List.append_assoc]; rfl
    have hih : ∀ t',steps deny (before (pre++[c])) ([slash].intercalate (d::ds)) t'=climb deny (pre++[c]) (d::ds) t' :=
      fun t' => ih d (by rwa [hassoc])
    rw [List.intercalate_cons_cons,List.append_assoc,steps_name c _ _ hc,before_append,List.singleton_append,steps,
      if_neg (by simp),hmeans,climb,before_slash]
    simp only [hih]

/-! ### What a run makes -/

/-- Missing, and not to be made: refused, or below something that is no directory. -/
def stuck (deny : List Name → Option Denial) (t : Tree) (q : List Name) : Prop :=
  t.node q=none ∧ (deny q≠none ∨ ∃ r,r<+:q ∧ t.node r=some .other)

/-- A missing path on the way, with nothing before it that could not be made. -/
def fresh (deny : List Name → Option Denial) (t : Tree) (cs q : List Name) : Prop :=
  q<+:cs ∧ t.node q=none ∧ ∀ r,r<+:q → ¬stuck deny t r

theorem node_above {q r : List Name} (h : t.node q≠none) (hr : r<+:q) : r=q ∨ t.node r=some .dir := by
  obtain ⟨ds,rfl⟩ := hr
  induction ds using List.reverseRecOn with
  | nil => exact .inl (List.append_nil r).symm
  | append_singleton ds d ih =>
    rw [← List.append_assoc] at h
    have hdir := t.above _ d h
    rcases ih (by rw [hdir]; exact Option.some_ne_none _) with he | hd
    · rw [← he] at hdir
      exact .inr hdir
    · exact .inr hd

theorem node_ne_none {q r : List Name} (h : t.node q≠none) (hr : r<+:q) : t.node r≠none := by
  rcases node_above h hr with rfl | hd
  · exact h
  · rw [hd]
    exact Option.some_ne_none _

theorem make_node (h : t.node pre=some .dir) (q : List Name) :
    (t.make pre c h).node q=if q=pre++[c] then some .dir else t.node q := by
  by_cases hq : q=pre++[c]
  · rw [if_pos hq,hq]
    exact Function.update_self ..
  · rw [if_neg hq]
    exact Function.update_of_ne hq ..

/-- One call, under a path that is there. -/
theorem mkdir_cases (hpre : t.node pre≠none) :
    t.node (pre++[c])≠none ∧ mkdir deny t (pre++[c])=(some eexist,t) ∨
    stuck deny t (pre++[c]) ∧ (∃ e,e≠eexist ∧ mkdir deny t (pre++[c])=(some e,t)) ∨
    t.node (pre++[c])=none ∧ ¬stuck deny t (pre++[c]) ∧
      ∃ h : t.node pre=some .dir,mkdir deny t (pre++[c])=(none,t.make pre c h) := by
  have hmk : mkdir deny t (pre++[c])=
      if t.node (pre++[c])≠none then (some eexist,t)
      else if h : t.node pre=some .dir then
        match deny (pre++[c]) with
        | some d => (some d.errno,t)
        | none => (none,t.make pre c h)
      else if pre.inits.any fun q => t.node q=some .other then (some enotdir,t)
      else (some enoent,t) := by
    cases pre with
    | nil => rfl
    | cons d ds =>
      rw [List.cons_append,mkdir]
      have hdrop : (d::(ds++[c])).dropLast=d::ds := @List.dropLast_concat _ (d::ds) c
      have hlast : (d::(ds++[c])).getLast (List.cons_ne_nil _ _)=c := @List.getLast_concat _ c (d::ds)
      simp only [hdrop,hlast]
      rfl
  rw [hmk]
  by_cases hn : t.node (pre++[c])=none
  · rw [if_neg (not_not.mpr hn)]
    by_cases hd : t.node pre=some .dir
    · rw [dif_pos hd]
      cases hdeny : deny (pre++[c]) with
      | some d => exact .inr (.inl ⟨⟨hn,.inl (by rw [hdeny]; exact Option.some_ne_none _)⟩,d.errno,d.other,rfl⟩)
      | none =>
        refine .inr (.inr ⟨hn,fun hs => ?_,hd,rfl⟩)
        rcases hs.2 with h | ⟨r,hr,ho⟩
        · exact h hdeny
        · rcases List.prefix_concat_iff.mp hr with rfl | hr
          · rw [hn] at ho
            cases ho
          · rcases node_above hpre hr with rfl | hdir
            · rw [hd] at ho
              cases ho
            · rw [hdir] at ho
              cases ho
    · rw [dif_neg hd]
      have hother : t.node pre=some .other := by
        cases hk : t.node pre with
        | none => exact absurd hk hpre
        | some k =>
          cases k with
          | dir => exact absurd hk hd
          | other => rfl
      refine .inr (.inl ⟨⟨hn,.inr ⟨pre,List.prefix_append pre [c],hother⟩⟩,?_⟩)
      split
      · exact ⟨enotdir,by decide,rfl⟩
      · exact ⟨enoent,by decide,rfl⟩
  · exact .inl ⟨hn,if_pos hn⟩

theorem prefix_cases {q : List Name} (h : q<+:pre++c::cs) : q<+:pre ∨ pre++[c]<+:q := by
  have hlong : pre++[c]<+:pre++c::cs := ⟨cs,by rw [List.append_assoc]; rfl⟩
  rcases List.prefix_or_prefix_of_prefix h hlong with h | h
  · rcases List.prefix_concat_iff.mp h with rfl | h
    · exact .inr List.prefix_rfl
    · exact .inl h
  · exact .inr h

/-- A directory that is made changes nothing for the paths below it. -/
theorem stuck_make (h : t.node pre=some .dir) (hn : t.node (pre++[c])=none) (hs : ¬stuck deny t (pre++[c]))
    (q : List Name) : stuck deny (t.make pre c h) q ↔ stuck deny t q := by
  have hother : ∀ r,(t.make pre c h).node r=some .other ↔ t.node r=some .other := by
    intro r
    rw [make_node]
    split
    · rename_i hr
      rw [hr,hn]
      exact ⟨fun ho => (by cases ho),fun ho => (by cases ho)⟩
    · exact Iff.rfl
  by_cases hq : q=pre++[c]
  · rw [hq]
    refine ⟨fun hm => ?_,fun hm => absurd hm hs⟩
    have := hm.1
    rw [make_node,if_pos rfl] at this
    cases this
  · unfold stuck
    rw [make_node,if_neg hq]
    simp only [hother]

/-- The run is a success if nothing on the way is stuck; it makes what is fresh. -/
theorem climb_spec (hpre : t.node pre≠none) :
    ((climb deny pre cs t).1=true ↔ ∀ q,q<+:pre++cs → ¬stuck deny t q) ∧
    ∀ q,(fresh deny t (pre++cs) q → (climb deny pre cs t).2.node q=some .dir) ∧
      (¬fresh deny t (pre++cs) q → (climb deny pre cs t).2.node q=t.node q) := by
  induction cs generalizing pre t with
  | nil =>
    rw [List.append_nil]
    refine ⟨⟨fun _ q hq hs => node_ne_none hpre hq hs.1,fun _ => rfl⟩,fun q => ⟨fun hf => ?_,fun _ => rfl⟩⟩
    exact absurd hf.2.1 (node_ne_none hpre hf.1)
  | cons c cs ih =>
    have hassoc : pre++[c]++cs=pre++c::cs := by rw [List.append_assoc]; rfl
    have hself : pre++[c]<+:pre++c::cs := ⟨cs,hassoc⟩
    simp only [climb]
    rcases @mkdir_cases deny t pre c hpre with ⟨hn,hm⟩ | ⟨hs,e,he,hm⟩ | ⟨hn,hs,hd,hm⟩
    · rw [hm,if_neg fun h => h.2 rfl,← hassoc]
      exact ih hn
    · rw [hm,if_pos ⟨Option.some_ne_none e,fun h => he (Option.some.inj h)⟩]
      refine ⟨⟨fun h => (by cases h),fun h => absurd hs (h _ hself)⟩,fun q => ⟨fun hf => ?_,fun _ => rfl⟩⟩
      rcases prefix_cases hf.1 with hq | hq
      · exact absurd hf.2.1 (node_ne_none hpre hq)
      · exact absurd hs (hf.2.2 _ hq)
    · have hthere : (t.make pre c hd).node (pre++[c])=some .dir := by rw [make_node,if_pos rfl]
      have hih := @ih (t.make pre c hd) (pre++[c]) (by rw [hthere]; exact Option.some_ne_none _)
      rw [hassoc] at hih
      rw [hm,if_neg fun h => h.1 rfl]
      simp only [stuck_make hd hn hs] at hih
      refine ⟨hih.1,fun q => ?_⟩
      by_cases hq : q=pre++[c]
      · have hnot : ¬fresh deny (t.make pre c hd) (pre++c::cs) q := by
          intro hf
          have := hf.2.1
          rw [hq,hthere] at this
          cases this
        refine ⟨fun _ => ?_,fun hf => absurd ⟨hq ▸ hself,hq ▸ hn,fun r hr hsr => ?_⟩ hf⟩
        · rw [(hih.2 q).2 hnot,hq,hthere]
        · rw [hq] at hr
          rcases List.prefix_concat_iff.mp hr with rfl | hr
          · exact hs hsr
          · exact node_ne_none hpre hr hsr.1
      · have hfresh : fresh deny (t.make pre c hd) (pre++c::cs) q ↔ fresh deny t (pre++c::cs) q := by
          unfold fresh
          rw [make_node,if_neg hq]
          simp only [stuck_make hd hn hs]
        have hnode := hih.2 q
        rw [hfresh,make_node,if_neg hq] at hnode
        exact hnode

theorem mkdirP_eq {path : List Byte} (hlt : path.length<pathMax) (hs : ¬spills path) :
    mkdirP deny t path=.ok (climb deny [] (meaning path) t) := by
  obtain ⟨q,hq⟩ := (normalizePath_iff path).mpr hs
  obtain ⟨rfl,hfit⟩ := normalizePath_ok hq
  have htake := List.take_of_length_le (i := pathMax-1) (Nat.le_pred_of_lt hlt)
  rw [htake] at hq hfit
  have hprop := proper_meaning path
  have hcut := List.take_of_length_le (i := 4095) (Nat.le_pred_of_lt hfit)
  rw [mkdirP,hq]
  simp only [Except.map,hcut]
  congr 1
  cases hm : meaning path with
  | nil => rfl
  | cons c cs =>
    rw [hm] at hprop
    exact @steps_eq deny t [] cs c hprop

/-- Where the caller means the directory to be. -/
def target (cwd : Cwd) (path : List Byte) : List Name :=
  if path.head?=some slash then meaning path else meaning (cwd.bytes++slash::path)

/-- The result tells whether the directory is there, and only it and what is above it has been made. -/
def honest (t : Tree) (p : List Name) : Except Fault (Bool×Tree) → Prop
  | .error _ => False
  | .ok (b,u) => (b=true ↔ u.node p=some .dir) ∧
      ∀ q,u.node q≠t.node q → t.node q=none ∧ u.node q=some .dir ∧ q<+:p

/-- The path from the root is the one that is meant, and is no file. Or else it is another one, and all of it is there
already and the one that is meant too, or it is stuck and what it makes before is on the way to the one that is meant. -/
def suits (deny : List Name → Option Denial) (t : Tree) (cs p : List Name) : Prop :=
  cs=p ∧ t.node cs≠some .other ∨
  cs≠p ∧ (t.node cs≠none ∧ t.node p=some .dir ∨
    (∃ q,q<+:cs ∧ stuck deny t q) ∧ t.node p≠some .dir ∧ ∀ q,fresh deny t cs q → q<+:p ∧ q≠p)

theorem dir_of_not_other (h : t.node cs≠some .other) (hn : t.node cs≠none) : t.node cs=some .dir := by
  cases hk : t.node cs with
  | none => exact absurd hk hn
  | some k =>
    cases k with
    | dir => rfl
    | other => exact absurd hk h

theorem climb_honest (cs p : List Name) : honest t p (.ok (climb deny [] cs t)) ↔ suits deny t cs p := by
  obtain ⟨hres,hnode⟩ := @climb_spec deny t [] cs (by rw [t.root]; exact Option.some_ne_none _)
  rw [List.nil_append] at hres hnode
  generalize climb deny [] cs t=r at hres hnode ⊢
  obtain ⟨b,u⟩ := r
  change ((b=true ↔ u.node p=some .dir) ∧ ∀ q,u.node q≠t.node q → t.node q=none ∧ u.node q=some .dir ∧ q<+:p) ↔ _
  simp only at hres hnode
  have hmade : (∀ q,u.node q≠t.node q → t.node q=none ∧ u.node q=some .dir ∧ q<+:p) ↔
      ∀ q,fresh deny t cs q → q<+:p := by
    constructor
    · intro h q hf
      refine (h q ?_).2.2
      rw [(hnode q).1 hf,hf.2.1]
      exact Option.some_ne_none _
    · intro h q hne
      by_cases hf : fresh deny t cs q
      · exact ⟨hf.2.1,(hnode q).1 hf,h q hf⟩
      · exact absurd ((hnode q).2 hf) hne
  have hthere : u.node p=some .dir ↔ fresh deny t cs p ∨ t.node p=some .dir := by
    by_cases hf : fresh deny t cs p
    · exact ⟨fun _ => .inl hf,fun _ => (hnode p).1 hf⟩
    · rw [(hnode p).2 hf]
      exact ⟨.inr,fun h => h.elim (fun h => absurd h hf) id⟩
  rw [hmade,hthere]
  by_cases hstuck : ∃ q,q<+:cs ∧ stuck deny t q
  · obtain ⟨q,hq,hs⟩ := hstuck
    have hb : b≠true := fun h => hres.mp h q hq hs
    have hmissing : t.node cs=none := not_not.mp fun h => node_ne_none h hq hs.1
    have hnever : ¬fresh deny t cs cs := fun hf => hf.2.2 q hq hs
    by_cases hcp : cs=p
    · subst hcp
      refine ⟨fun _ => .inl ⟨rfl,by rw [hmissing]; exact fun h => (by cases h)⟩,fun _ => ⟨⟨fun h => absurd h hb,?_⟩,?_⟩⟩
      · rintro (hf | hd)
        · exact absurd hf hnever
        · rw [hmissing] at hd
          cases hd
      · exact fun q hf => hf.1
    · constructor
      · rintro ⟨hiff,hall⟩
        refine .inr ⟨hcp,.inr ⟨⟨q,hq,hs⟩,fun hd => hb (hiff.mpr (.inr hd)),fun q hf => ⟨hall q hf,?_⟩⟩⟩
        rintro rfl
        exact hb (hiff.mpr (.inl hf))
      · rintro (⟨he,-⟩ | ⟨-,⟨hn,-⟩ | ⟨-,hd,hall⟩⟩)
        · exact absurd he hcp
        · exact absurd hmissing hn
        · refine ⟨⟨fun h => absurd h hb,?_⟩,fun q hf => (hall q hf).1⟩
          rintro (hf | h)
          · exact absurd rfl (hall p hf).2
          · exact absurd h hd
  · have hfree : ∀ q,q<+:cs → ¬stuck deny t q := fun q hq hs => hstuck ⟨q,hq,hs⟩
    have hb : b=true := hres.mpr hfree
    have hself : t.node cs=none → fresh deny t cs cs := fun hn => ⟨List.prefix_rfl,hn,hfree⟩
    by_cases hcp : cs=p
    · subst hcp
      constructor
      · rintro ⟨hiff,-⟩
        refine .inl ⟨rfl,fun ho => ?_⟩
        rcases hiff.mp hb with hf | hd
        · rw [hf.2.1] at ho
          cases ho
        · rw [hd] at ho
          cases ho
      · rintro (⟨-,ho⟩ | ⟨hne,-⟩)
        · refine ⟨⟨fun _ => ?_,fun _ => hb⟩,fun q hf => hf.1⟩
          by_cases hn : t.node cs=none
          · exact .inl (hself hn)
          · exact .inr (dir_of_not_other ho hn)
        · exact absurd rfl hne
    · constructor
      · rintro ⟨hiff,hall⟩
        have hd := hiff.mp hb
        by_cases hn : t.node cs=none
        · -- all of the wrong path has been made, and the one that is meant lies below it
          have hlong := hall cs (hself hn)
          rcases hd with hf | hd
          · exact absurd (hlong.eq_of_length (Nat.le_antisymm hlong.length_le hf.1.length_le)) hcp
          · exact absurd hn (node_ne_none (by rw [hd]; exact Option.some_ne_none _) hlong)
        · refine .inr ⟨hcp,.inl ⟨hn,?_⟩⟩
          rcases hd with hf | hd
          · exact absurd hf.2.1 (node_ne_none hn hf.1)
          · exact hd
      · rintro (⟨he,-⟩ | ⟨-,⟨hn,hd⟩ | ⟨⟨q,hq,hs⟩,-⟩⟩)
        · exact absurd he hcp
        · exact ⟨⟨fun _ => .inr hd,fun _ => hb⟩,fun q hf => absurd hf.2.1 (node_ne_none hn hf.1)⟩
        · exact absurd hs (hfree q hq)

theorem mkdir_p_honest (deny : List Name → Option Denial) (t : Tree) (cwd : Cwd) (path : List Byte)
    (hlt : path.length<pathMax) : honest t (target cwd path) (mkdirP deny t path) ↔
      ¬spills path ∧ suits deny t (meaning path) (target cwd path) := by
  by_cases hs : spills path
  · have herr : ∃ e,mkdirP deny t path=.error e := by
      have hno : ¬∃ q,normalizePath path=.ok q := fun h => (normalizePath_iff path).mp h hs
      cases hn : normalizePath path with
      | error e => exact ⟨e,by rw [mkdirP,hn]; rfl⟩
      | ok q => exact absurd ⟨q,hn⟩ hno
    obtain ⟨e,he⟩ := herr
    rw [he]
    exact ⟨False.elim,fun h => absurd hs h.1⟩
  · rw [mkdirP_eq hlt hs,climb_honest]
    exact (and_iff_right hs).symm

/-- The root, and perhaps a thing under the name "a" in it. -/
def small (k : Option Kind) : Tree where
  node p := if p=[] then some .dir else if p=[[97]] then k else none
  root := rfl
  above p c h := by
    by_cases hp : p=[]
    · rw [hp]
      rfl
    · refine absurd ?_ h
      have hlen : p++[c]≠[[97]] := by
        intro he
        have hl := congrArg List.length he
        rw [List.length_append,List.length_singleton,List.length_singleton] at hl
        exact hp (List.length_eq_zero_iff.mp (by omega))
      rw [if_neg (by simp),if_neg hlen]

def rootCwd : Cwd := ⟨[47],rfl,by decide⟩

theorem mkdir_p_new : honest (small none) (target rootCwd [47,97]) (mkdirP (fun _ => none) (small none) [47,97]) := by
  refine (mkdir_p_honest (fun _ => none) (small none) rootCwd [47,97] (by decide)).mpr ⟨?_,.inl ⟨rfl,?_⟩⟩
  · exact fun h => absurd h.1 (by decide)
  · decide

/-- A file is there already under the name: the answer is true. -/
theorem mkdir_p_file : ¬∀ (deny : List Name → Option Denial) (t : Tree) (cwd : Cwd) (path : List Byte),
    path.length<pathMax → honest t (target cwd path) (mkdirP deny t path) := by
  intro h
  have hfile := h (fun _ => none) (small (some .other)) rootCwd [47,97] (by decide)
  have hspill : ¬spills [47,97] := fun hs => absurd hs.1 (by decide)
  rw [mkdirP_eq (by decide) hspill,climb_honest] at hfile
  rcases hfile with ⟨-,ho⟩ | ⟨hne,-⟩
  · exact ho rfl
  · exact hne rfl

end Dpapp.MkdirP
