import Dpapp.DprbtWalk
import Dpapp.Machine
import Mathlib.Data.List.Pairwise

/-! # Runs of the operations of a rank-balanced tree (dprbt.h) -/

set_option linter.unusedSectionVars false

namespace Dpapp.Dprbt
open Dpapp.RankTree Dpapp.Machine

variable {κ α : Type*} [DecidableEq κ] {m : Mem κ} {x y a b c : κ} {n : ℕ} {xs pre post : List κ} {cmp : κ → κ → ℤ}

/-! ### Order -/

/-- A three-way comparison. -/
structure Lawful (cmp : κ → κ → ℤ) : Prop where
  swap : ∀ a b,cmp a b<0 ↔ 0<cmp b a
  trans : ∀ a b c,cmp a b≤0 → cmp b c≤0 → cmp a c≤0

def Sorted (cmp : κ → κ → ℤ) (xs : List κ) : Prop := xs.Pairwise fun a b => cmp a b<0

theorem Lawful.le_of_not (h : Lawful cmp) (hab : ¬cmp a b<0) : cmp b a≤0 := by
  rw [h.swap] at hab
  exact not_lt.mp hab

theorem Lawful.lt_of_le (h : Lawful cmp) (hab : cmp a b≤0) (hbc : cmp b c<0) : cmp a c<0 := by
  by_contra hac
  have hcb := h.trans c a b (h.le_of_not hac) hab
  exact absurd ((h.swap b c).mp hbc) (not_lt.mpr hcb)

theorem Lawful.lt_trans (h : Lawful cmp) (hab : cmp a b<0) (hbc : cmp b c<0) : cmp a c<0 := h.lt_of_le hab.le hbc

theorem Sorted.nodup (h : Lawful cmp) (hs : Sorted cmp xs) : xs.Nodup := by
  refine hs.imp fun {a b} hab heq => ?_
  rw [heq] at hab
  exact lt_asymm hab ((h.swap b b).mp hab)

/-- What is looked for may be anything. -/
theorem Sorted.cut (h : Lawful cmp) (hs : Sorted cmp xs) : Cut (cmp x) xs := hs.imp fun hab hxa => h.lt_of_le hxa hab

theorem Sorted.orderedInsert (h : Lawful cmp) (hs : Sorted cmp xs) (hne : ∀ y∈xs,cmp x y≠0) :
    Sorted cmp (xs.orderedInsert (fun a b => cmp a b≤0) x) := by
  induction xs with
  | nil => exact List.pairwise_singleton _ x
  | cons y xs ih =>
    obtain ⟨hy,hs⟩ := List.pairwise_cons.mp hs
    rw [List.orderedInsert_cons]
    split
    · rename_i hle
      have hlt : cmp x y<0 := lt_of_le_of_ne hle (hne y List.mem_cons_self)
      refine List.pairwise_cons.mpr ⟨fun z hz => ?_,List.pairwise_cons.mpr ⟨hy,hs⟩⟩
      rcases List.mem_cons.mp hz with rfl | hz
      · exact hlt
      · exact h.lt_trans hlt (hy z hz)
    · rename_i hgt
      refine List.pairwise_cons.mpr ⟨fun z hz => ?_,ih hs fun z hz => hne z (List.mem_cons_of_mem y hz)⟩
      rcases (List.mem_orderedInsert _).mp hz with rfl | hz
      · exact (h.swap y z).mpr (not_le.mp hgt)
      · exact hy z hz

/-! ### What the operations do to the elements -/

/-- An element goes to its place unless an equal one is there already, which is returned. -/
def put (cmp : κ → κ → ℤ) (xs : List κ) (x : κ) : List κ × Option κ :=
  match xs.find? fun y => cmp x y=0 with
  | some y => (xs,some y)
  | none => (xs.orderedInsert (fun a b => cmp a b≤0) x,none)

theorem Sorted.put (h : Lawful cmp) (hs : Sorted cmp xs) : Sorted cmp (put cmp xs x).1 := by
  unfold Dprbt.put
  split
  · exact hs
  · rename_i hnone
    refine hs.orderedInsert h fun y hy hzero => ?_
    have hfind := List.find?_eq_none.mp hnone y hy
    rw [decide_eq_true_eq] at hfind
    exact hfind hzero

/-- There is one equal element at most. -/
theorem cut_eq (h : Cut (cmp x) xs) (ha : a∈xs) (hb : b∈xs) (hxa : cmp x a=0) (hxb : cmp x b=0) : a=b := by
  have hpair : xs.Pairwise fun a b => ¬(cmp x a=0 ∧ cmp x b=0) := h.imp fun hab hzero => (hab hzero.1.le).ne hzero.2
  have : Std.Symm fun a b => ¬(cmp x a=0 ∧ cmp x b=0) := ⟨fun a b hab hzero => hab hzero.symm⟩
  by_contra hne
  exact hpair.forall ha hb hne ⟨hxa,hxb⟩

theorem rbInsert_put (h : Keeps m xs) (hnd : xs.Nodup) (hx : x∉xs) (hcut : Cut (cmp x) xs) (hn : Enough n xs) :
    ∃ m',rbInsert n cmp m x=some (m',(put cmp xs x).2) ∧ Keeps m' (put cmp xs x).1 := by
  unfold put
  rcases rbInsert_spec h hnd hx hcut hn with ⟨y,hy,hzero,hret⟩ | ⟨hne,m',hret,hkeeps⟩
  · cases hfind : xs.find? fun y => cmp x y=0 with
    | none => exact absurd (decide_eq_true hzero) (List.find?_eq_none.mp hfind y hy)
    | some z =>
      have hz := List.find?_some hfind
      rw [decide_eq_true_eq] at hz
      obtain rfl := cut_eq hcut hy (List.mem_of_find?_eq_some hfind) hzero hz
      exact ⟨m,hret,h⟩
  · have hfind : xs.find? (fun y => cmp x y=0)=none := List.find?_eq_none.mpr fun y hy => by simpa using hne y hy
    rw [hfind]
    exact ⟨m',hret,hkeeps⟩

/-- An element between two others is in its place. -/
theorem put_between (hc : Lawful cmp) (hs : Sorted cmp (pre++post)) (hpre : ∀ y∈pre.getLast?,cmp y x<0)
    (hpost : ∀ y∈post.head?,cmp x y<0) : put cmp (pre++post) x=(pre++x::post,none) := by
  obtain ⟨hspre,hspost,-⟩ := List.pairwise_append.mp hs
  have hbefore : ∀ y∈pre,0<cmp x y := by
    intro y hy
    rw [← hc.swap]
    rcases List.eq_nil_or_concat' pre with rfl | ⟨init,z,rfl⟩
    · cases hy
    · have hz := hpre z (Option.mem_def.mpr List.getLast?_concat)
      rcases List.mem_append.mp hy with hy | hy
      · exact hc.lt_trans ((List.pairwise_append.mp hspre).2.2 y hy z List.mem_cons_self) hz
      · rwa [List.mem_singleton.mp hy]
  have hafter : ∀ y∈post,cmp x y<0 := by
    intro y hy
    cases post with
    | nil => cases hy
    | cons z post =>
      have hz := hpost z (Option.mem_def.mpr rfl)
      rcases List.mem_cons.mp hy with rfl | hy
      · exact hz
      · exact hc.lt_trans hz ((List.pairwise_cons.mp hspost).1 y hy)
  have hfind : (pre++post).find? (fun y => cmp x y=0)=none := by
    refine List.find?_eq_none.mpr fun y hy => ?_
    rw [decide_eq_true_eq]
    rcases List.mem_append.mp hy with hy | hy
    · exact (hbefore y hy).ne'
    · exact (hafter y hy).ne
  unfold put
  rw [hfind]
  refine congrArg (·,none) ?_
  rw [orderedInsert_right fun y hy => (hbefore y hy).not_ge]
  cases post with
  | nil => rfl
  | cons z post => rw [List.orderedInsert_cons,if_pos (hafter z List.mem_cons_self).le]

theorem rbReinsert_spec (hc : Lawful cmp) (h : Keeps m xs) (hnd : xs.Nodup) (hx : x∈xs) (hs : Sorted cmp (xs.erase x))
    (hn : Enough n xs) :
    ∃ m',rbReinsert n cmp m x=some (m',(put cmp (xs.erase x) x).2) ∧ Keeps m' (put cmp (xs.erase x) x).1 := by
  obtain ⟨pre,post,rfl⟩ := List.append_of_mem hx
  have hprev : rbNext n m .left x=some pre.getLast? := rbNext_spec (d := .left) h hnd hn
  have hnext : rbNext n m .right x=some post.head? := rbNext_spec (d := .right) h hnd hn
  have hxpre : x∉pre := fun hp => (List.nodup_append'.mp hnd).2.2 hp List.mem_cons_self
  have herase : (pre++x::post).erase x=pre++post := by rw [List.erase_append_right _ hxpre,List.erase_cons_head]
  unfold rbReinsert
  simp only [hprev,hnext,Option.bind_some]
  split
  · obtain ⟨m',hm',hkeeps⟩ := rbRemove_spec h hnd hx hn
    have hless : Enough n ((pre++x::post).erase x) := hn.mono (List.length_erase_le ..)
    obtain ⟨m'',hm'',hkeeps'⟩ := rbInsert_put hkeeps (hnd.erase x) hnd.not_mem_erase (hs.cut hc) hless
    refine ⟨m'',?_,hkeeps'⟩
    rw [hm',Option.bind_some,hm'']
  · rename_i hstay
    rw [not_or] at hstay
    rw [herase] at hs ⊢
    rw [put_between hc hs (fun y hy => ?_) fun y hy => ?_]
    · exact ⟨m,rfl,h⟩
    · exact not_le.mp fun hle => hstay.1 ⟨y,hy,hle⟩
    · exact not_le.mp fun hle => hstay.2 ⟨y,hy,hle⟩

/-! ### Runs -/

/-- Keys may change; those of the two nodes decide. -/
structure LawfulKeys (cmp : (κ → α) → κ → κ → ℤ) : Prop where
  lawful : ∀ key,Lawful (cmp key)
  congr : ∀ {key key' : κ → α} {a b : κ},key a=key' a → key b=key' b → cmp key a b=cmp key' a b

/-- A call whose loops have `n` rounds. -/
inductive Act (κ α : Type*)
  | insert (n : ℕ) (x : κ) (k : α)
  | remove (n : ℕ) (x : κ)
  | reinsert (n : ℕ) (x : κ) (k : α)

/-- The tree and what the calls have returned. -/
structure Rbt (κ α : Type*) where
  mem : Mem κ
  key : κ → α
  ret : List (Option κ) := []

/-- The same as a sequence. -/
structure Seq (κ α : Type*) where
  items : List κ := []
  key : κ → α
  ret : List (Option κ) := []

section Steps
variable (cmp : (κ → α) → κ → κ → ℤ)

def Rbt.step (s : Rbt κ α) : Act κ α → Option (Rbt κ α)
  | .insert n x k =>
      let key := Function.update s.key x k
      (rbInsert n (cmp key) s.mem x).map fun (mem,ret) => ⟨mem,key,s.ret++[ret]⟩
  | .remove n x => (rbRemove n s.mem x).map fun mem => ⟨mem,s.key,s.ret++[some x]⟩
  | .reinsert n x k =>
      let key := Function.update s.key x k
      (rbReinsert n (cmp key) s.mem x).map fun (mem,ret) => ⟨mem,key,s.ret++[ret]⟩

/-- RB_INSERT is for a node outside the tree, the other two for one in it. -/
def Seq.step (s : Seq κ α) : Act κ α → Option (Seq κ α)
  | .insert n x k =>
      if x∉s.items ∧ Enough n s.items then
        let key := Function.update s.key x k
        some ⟨(put (cmp key) s.items x).1,key,s.ret++[(put (cmp key) s.items x).2]⟩
      else none
  | .remove n x => if x∈s.items ∧ Enough n s.items then some ⟨s.items.erase x,s.key,s.ret++[some x]⟩ else none
  | .reinsert n x k =>
      if x∈s.items ∧ Enough n s.items then
        let key := Function.update s.key x k
        some ⟨(put (cmp key) (s.items.erase x) x).1,key,s.ret++[(put (cmp key) (s.items.erase x) x).2]⟩
      else none

structure Related (c : Rbt κ α) (s : Seq κ α) : Prop where
  keeps : Keeps c.mem s.items
  key : c.key=s.key
  ret : c.ret=s.ret
  sorted : Sorted (cmp s.key) s.items

variable {cmp} {c c' : Rbt κ α} {s s' : Seq κ α} {act : Act κ α} {acts : List (Act κ α)} {key : κ → α} {k : α}

/-- The key of a node that is not there. -/
theorem Sorted.update (hc : LawfulKeys cmp) (hs : Sorted (cmp key) xs) (hx : x∉xs) :
    Sorted (cmp (Function.update key x k)) xs := by
  refine hs.imp_of_mem fun {a b} ha hb hab => ?_
  have hkey : ∀ y∈xs,Function.update key x k y=key y := fun y hy =>
    Function.update_of_ne (fun heq : y=x => hx (heq ▸ hy)) ..
  rw [hc.congr (hkey a ha) (hkey b hb)]
  exact hab

theorem step_related (hc : LawfulKeys cmp) (h : Related cmp c s) (hs : s.step cmp act=some s') :
    ∃ c',c.step cmp act=some c' ∧ Related cmp c' s' := by
  obtain ⟨hkeeps,hkey,hret,hsorted⟩ := h
  have hnd := hsorted.nodup (hc.lawful s.key)
  cases act with
  | insert n x k =>
    obtain ⟨⟨hx,hn⟩,hs⟩ := Option.ite_none_right_eq_some.mp hs
    obtain rfl := Option.some.inj hs
    have hsorted' := hsorted.update (k := k) hc hx
    obtain ⟨m',hm',hkeeps'⟩ := rbInsert_put hkeeps hnd hx (hsorted'.cut (hc.lawful _)) hn
    refine ⟨⟨m',_,_⟩,?_,hkeeps',rfl,rfl,hsorted'.put (hc.lawful _)⟩
    simp only [Rbt.step,hkey,hm',hret,Option.map_some]
  | remove n x =>
    obtain ⟨⟨hx,hn⟩,hs⟩ := Option.ite_none_right_eq_some.mp hs
    obtain rfl := Option.some.inj hs
    obtain ⟨m',hm',hkeeps'⟩ := rbRemove_spec hkeeps hnd hx hn
    refine ⟨⟨m',_,_⟩,?_,hkeeps',rfl,rfl,hsorted.sublist List.erase_sublist⟩
    simp only [Rbt.step,hkey,hm',hret,Option.map_some]
  | reinsert n x k =>
    obtain ⟨⟨hx,hn⟩,hs⟩ := Option.ite_none_right_eq_some.mp hs
    obtain rfl := Option.some.inj hs
    have hrest : Sorted (cmp s.key) (s.items.erase x) := hsorted.sublist List.erase_sublist
    have hsorted' := hrest.update (k := k) hc hnd.not_mem_erase
    obtain ⟨m',hm',hkeeps'⟩ := rbReinsert_spec (hc.lawful _) hkeeps hnd hx hsorted' hn
    refine ⟨⟨m',_,_⟩,?_,hkeeps',rfl,rfl,hsorted'.put (hc.lawful _)⟩
    simp only [Rbt.step,hkey,hm',hret,Option.map_some]

/- Nodes with integers for keys. -/
def difference (key : ℕ → ℤ) (a b : ℕ) : ℤ := key a-key b

theorem difference_lawful : LawfulKeys difference := by
  refine ⟨fun key => ⟨fun a b => ?_,fun a b c hab hbc => ?_⟩,fun ha hb => ?_⟩
  · unfold difference
    omega
  · unfold difference at *
    omega
  · unfold difference
    rw [ha,hb]

/-- The second node moves behind the third; the fourth one has the key of the first. -/
def calls : List (Act ℕ ℤ) :=
  [.insert 1 1 5,.insert 3 2 3,.insert 4 3 8,.reinsert 5 2 9,.insert 5 4 5,.remove 5 1]

theorem run_related (hc : LawfulKeys cmp) (hm : m.root=none) (h : exec (Seq.step cmp) ⟨[],key,[]⟩ acts=some s) :
    ∃ c,exec (Rbt.step cmp) ⟨m,key,[]⟩ acts=some c ∧ Related cmp c s := by
  have hinit : Related cmp ⟨m,key,[]⟩ ⟨[],key,[]⟩ := ⟨⟨.nil,0,⟨trivial,hm⟩,rfl,rfl⟩,rfl,rfl,List.Pairwise.nil⟩
  have hstep : ∀ (c : Rbt κ α) (s : Seq κ α) act s',Related cmp c s → s.step cmp act=some s' →
      ∃ c',c.step cmp act=some c' ∧ Related cmp c' s' := fun _ _ _ _ hR hs => step_related hc hR hs
  exact exec_simulates hstep hinit h

/-- The macros never go through NULL, each loop ends in the rounds it has, and the tree is the sequence. -/
theorem rbt_runs (hc : LawfulKeys cmp) (hm : m.root=none) (h : exec (Seq.step cmp) ⟨[],key,[]⟩ acts=some s) :
    ∃ c,exec (Rbt.step cmp) ⟨m,key,[]⟩ acts=some c ∧ Keeps c.mem s.items ∧ Sorted (cmp c.key) s.items ∧ c.key=s.key ∧
      c.ret=s.ret := by
  obtain ⟨c,hrun,hrel⟩ := run_related hc hm h
  exact ⟨c,hrun,hrel.keeps,hrel.key ▸ hrel.sorted,hrel.key,hrel.ret⟩

theorem rbt_runs_calls : ∃ c,exec (Rbt.step difference) ⟨{},fun _ => 0,[]⟩ calls=some c ∧ Keeps c.mem [3,2] ∧
    c.ret=[none,none,none,none,some 1,some 1] := by
  obtain ⟨c,hrun,hkeeps,-,-,hret⟩ :=
    rbt_runs difference_lawful (m := {}) rfl (show exec (Seq.step difference) ⟨[],fun _ => 0,[]⟩ calls=some _ from rfl)
  exact ⟨c,hrun,hkeeps,hret⟩

/-- `The maximum height of a rank-balanced tree is 2lg (n+1)`, and RB_RANK finds no fault. -/
theorem rbt_height (hc : LawfulKeys cmp) (hm : m.root=none) (h : exec (Seq.step cmp) ⟨[],key,[]⟩ acts=some s) :
    ∃ c t r,exec (Rbt.step cmp) ⟨m,key,[]⟩ acts=some c ∧ Holds c.mem t [] ∧ t.toList=s.items ∧ Ranked t r ∧ t.depth≤r ∧
      2^r≤(s.items.length+1)^2 ∧ ∀ n,r<n → rbRank c.mem n c.mem.root=some (r : ℤ) := by
  obtain ⟨c,hrun,⟨t,r,ht,hlist,hr⟩,-⟩ := run_related hc hm h
  refine ⟨c,t,r,hrun,ht,hlist,hr,depth_le hr,hlist ▸ ranked_length hr,fun n hn => ?_⟩
  rw [show c.mem.root=t.root from ht.2]
  exact rbRank_rep ht.1 hr ((depth_le hr).trans_lt hn)

theorem rbt_height_calls : ∃ c t r,exec (Rbt.step difference) ⟨{},fun _ => 0,[]⟩ calls=some c ∧ Holds c.mem t [] ∧
    t.toList=[3,2] ∧ t.depth≤r ∧ 2^r≤9 := by
  obtain ⟨c,t,r,hrun,ht,hlist,-,hdepth,hr,-⟩ :=
    rbt_height difference_lawful (m := {}) rfl (show exec (Seq.step difference) ⟨[],fun _ => 0,[]⟩ calls=some _ from rfl)
  exact ⟨c,t,r,hrun,ht,hlist,hdepth,hr⟩

/-- What can be read from the tree after any run. -/
theorem rbt_reads (hc : LawfulKeys cmp) (hm : m.root=none) (h : exec (Seq.step cmp) ⟨[],key,[]⟩ acts=some s)
    (hrun : exec (Rbt.step cmp) ⟨m,key,[]⟩ acts=some c) (hn : Enough n s.items) :
    rbMinmax n c.mem .left=some s.items.head? ∧ rbMinmax n c.mem .right=some s.items.getLast? ∧
      (∀ pre x post,s.items=pre++x::post →
        rbNext n c.mem .left x=some pre.getLast? ∧ rbNext n c.mem .right x=some post.head?) ∧
      (∀ x,rbFind (cmp c.key) c.mem x n c.mem.root=some (s.items.find? fun y => cmp c.key x y=0) ∧
        rbNfind (cmp c.key) c.mem x n c.mem.root none=some (s.items.find? fun y => cmp c.key x y≤0)) ∧
      ∀ k,s.items.length<k → (rbMinmax n c.mem .left).bind (rbForeach n c.mem .right k)=some s.items ∧
        (rbMinmax n c.mem .right).bind (rbForeach n c.mem .left k)=some s.items.reverse := by
  obtain ⟨c',hrun',hkeeps,hkey,-,hsorted⟩ := run_related hc hm h
  obtain rfl : c=c' := Option.some.inj (hrun.symm.trans hrun')
  have hnd := hsorted.nodup (hc.lawful s.key)
  rw [← hkey] at hsorted
  refine ⟨rbMinmax_spec hkeeps hn,rbMinmax_spec hkeeps hn,fun pre x post hsplit => ?_,fun x => ?_,fun k hk => ?_⟩
  · rw [hsplit] at hkeeps hnd hn
    exact ⟨rbNext_spec (d := .left) hkeeps hnd hn,rbNext_spec (d := .right) hkeeps hnd hn⟩
  · have hcut := hsorted.cut (x := x) (hc.lawful c.key)
    exact ⟨rbFind_spec hkeeps hcut hn,rbNfind_spec hkeeps hcut hn⟩
  · exact ⟨rbForeach_spec (d := .right) hkeeps hnd hn hk,rbForeach_spec (d := .left) hkeeps hnd hn hk⟩

theorem rbt_reads_calls : ∃ c,exec (Rbt.step difference) ⟨{},fun _ => 0,[]⟩ calls=some c ∧
    rbMinmax 4 c.mem .left=some (some 3) ∧ rbNext 4 c.mem .right 3=some (some 2) := by
  obtain ⟨c,hrun,-⟩ :=
    rbt_runs difference_lawful (m := {}) rfl (show exec (Seq.step difference) ⟨[],fun _ => 0,[]⟩ calls=some _ from rfl)
  obtain ⟨hmin,-,hnext,-⟩ := rbt_reads difference_lawful rfl rfl hrun (show Enough 4 [3,2] by decide)
  exact ⟨c,hrun,hmin,(hnext [] 3 [2] rfl).2⟩

end Steps

end Dpapp.Dprbt
