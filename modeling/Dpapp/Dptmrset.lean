import Dpapp.DprbtRun
import Dpapp.TmrWait

/-! # The timer set on its tree (os/linux/dpevp_epoll.c)

The timers are nodes of a tree of dprbt.h, and the calls do to it what they do
to a sorted list. -/

set_option linter.unusedSectionVars false

namespace Dpapp.Dptmrset
open Dpapp.RankTree Dpapp.Dprbt Dpapp.Machine Dpapp.Ret
open Dpapp.TmrWait (Double Ele tmrLe wholeSeconds)
open Dpapp.Dpbuf (wrap)

/-- The addresses of the elements, in whose order they are. -/
structure Address (κ : Type*) [LinearOrder κ] where
  addr : κ → ℤ
  mono : StrictMono addr
  range : ∀ k,0≤addr k ∧ addr k<2^63

variable {F : Double} {κ : Type*} [LinearOrder κ] (A : Address κ)

/-- `_dpele_tmrspec_compare` -/
def dpeleTmrspecCompare (ele : κ → Ele F.carrier) (o1 o2 : κ) : ℤ :=
  let c := (ele o1).expire-(ele o2).expire
  if c=0 then A.addr o1-A.addr o2 else c

def dpeInternalError : Dpret := -500

/-- What a call hands back. -/
inductive Out (κ : Type*)
  | ret (r : Dpret)
  | expired (waitms : ℤ) (ele : Option κ)

/-- `now` is what dplog_millis says. -/
structure State (D : Type) (κ : Type*) where
  mem : Mem κ := {}
  ele : κ → Ele D := fun _ => {}
  now : ℕ := 0
  out : List (Out κ) := []

def State.setEle (s : State F.carrier κ) (k : κ) (e : Ele F.carrier) : State F.carrier κ :=
  {s with ele := Function.update s.ele k e}

def State.give (s : State F.carrier κ) (o : Out κ) : State F.carrier κ := {s with out := s.out++[o]}

/-- `_dptmrset_upsert` -/
def dptmrsetUpsert (n : ℕ) (s : State F.carrier κ) (k : κ) : Option (State F.carrier κ) :=
  match (s.ele k).after with
  | none => some (s.give (.ret dpeInval))
  | some after =>
      if F.neg after then some (s.give (.ret dpeInval))
      else (F.deadline s.now after).bind fun e =>
        let s := s.setEle k {s.ele k with expire := e}
        if (s.ele k).isTiming then
          (rbReinsert n (dpeleTmrspecCompare A s.ele) s.mem k).map fun (mem,_) => {s with mem := mem}.give (.ret dpeOk)
        else
          (rbInsert n (dpeleTmrspecCompare A s.ele) s.mem k).map fun (mem,ret) =>
            let s := {s with mem := mem}
            if ret≠none then s.give (.ret dpeInternalError)
            else (s.setEle k {s.ele k with isTiming := true}).give (.ret dpeOk)

/-- `_dptmrset_remove` -/
def dptmrsetRemove (n : ℕ) (s : State F.carrier κ) (k : κ) : Option (State F.carrier κ) :=
  if (s.ele k).isTiming then
    (rbRemove n s.mem k).map fun mem => {s with mem := mem}.setEle k {s.ele k with isTiming := false}
  else some s

/-- dptmrset_expire -/
def dptmrsetExpire (n : ℕ) (s : State F.carrier κ) : Option (State F.carrier κ) :=
  (rbMinmax n s.mem .left).bind fun
    | none => some (s.give (.expired (-1) none))
    | some mintmr =>
        if (s.now : ℤ)<(s.ele mintmr).expire then
          let nextms := (s.ele mintmr).expire-s.now-10
          some (s.give (.expired (wrap (if 1<nextms then nextms else 1)) none))
        else
          (rbRemove n s.mem mintmr).map fun mem =>
            ({s with mem := mem}.setEle mintmr {s.ele mintmr with isTiming := false}).give (.expired 0 (some mintmr))

/-- The rounds of dptmrset_free, from a node on. -/
def freeLoop (n : ℕ) : ℕ → Mem κ → Option κ → Option (Mem κ)
  | _,m,none => some m
  | 0,_,some _ => none
  | k+1,m,some item => (rbNext n m .right item).bind fun temp => (rbRemove n m item).bind fun m => freeLoop n k m temp

/-- dptmrset_free before RB_INIT -/
def dptmrsetFree (n k : ℕ) (m : Mem κ) : Option (Mem κ) := (rbMinmax n m .left).bind (freeLoop n k m)

/-- The calls, and what the rest of the engine does to the elements. -/
inductive Call (D : Type) (κ : Type*)
  | edit (k : κ) (e : Ele D)
  | clock (now : ℕ)
  | upsert (n : ℕ) (k : κ)
  | remove (n : ℕ) (k : κ)
  | expire (n : ℕ)

def step (s : State F.carrier κ) : Call F.carrier κ → Option (State F.carrier κ)
  | .edit k e => some (s.setEle k e)
  | .clock now => some {s with now := now}
  | .upsert n k => dptmrsetUpsert A n s k
  | .remove n k => dptmrsetRemove n s k
  | .expire n => dptmrsetExpire n s

/-! ### The same on a list -/

structure Abs (D : Type) (κ : Type*) where
  evp : TmrWait.Dpevp D κ := {}
  out : List (Out κ) := []

/-- Only these calls touch `expire` and `is_timing` of an element in the tree. -/
def Abs.step (s : Abs F.carrier κ) : Call F.carrier κ → Option (Abs F.carrier κ)
  | .edit k e =>
      if e.isTiming=(s.evp.ele k).isTiming ∧ (e.expire=(s.evp.ele k).expire ∨ k∉s.evp.timer) then
        some {s with evp := s.evp.setEle k e}
      else none
  | .clock now => some {s with evp := {s.evp with now := now}}
  | .upsert n k =>
      if Enough n s.evp.timer then
        (TmrWait.dptmrsetUpsert s.evp k).map fun evp =>
          ⟨evp,s.out++[.ret (if ∃ a∈(s.evp.ele k).after,F.neg a=false then dpeOk else dpeInval)]⟩
      else none
  | .remove n k => if Enough n s.evp.timer then some {s with evp := TmrWait.dptmrsetRemove s.evp k} else none
  | .expire n =>
      if Enough n s.evp.timer then
        let (evp,k) := TmrWait.dptmrsetExpire s.evp
        some ⟨evp,s.out++[.expired evp.timerWaitms k]⟩
      else none

/-! ### The comparison -/

section Compare
variable {A} {ele ele' : κ → Ele F.carrier} {a b k : κ} {xs : List κ}

theorem compare_le : dpeleTmrspecCompare A ele a b≤0 ↔ tmrLe ele a b := by
  rw [tmrLe,Prod.Lex.le_iff]
  unfold dpeleTmrspecCompare
  simp only [ofLex_toLex]
  have haddr : A.addr a≤A.addr b ↔ a≤b := A.mono.le_iff_le
  split
  · rename_i heq
    rw [← haddr]
    omega
  · omega

theorem compare_swap : dpeleTmrspecCompare A ele a b<0 ↔ 0<dpeleTmrspecCompare A ele b a := by
  unfold dpeleTmrspecCompare
  dsimp only
  split <;> split <;> omega

theorem compare_lawful : Lawful (dpeleTmrspecCompare A ele) := by
  refine ⟨fun a b => compare_swap,fun a b c hab hbc => ?_⟩
  rw [compare_le] at hab hbc ⊢
  exact le_trans hab hbc

theorem compare_zero (h : dpeleTmrspecCompare A ele a b=0) : a=b := by
  have hab := compare_le.mp h.le
  have hba := compare_le.mp (not_lt.mp fun hlt => (compare_swap.mpr hlt).ne h)
  exact (Prod.ext_iff.mp (toLex.injective (le_antisymm hab hba))).2

theorem sorted_compare (hnd : xs.Nodup) (hs : xs.Pairwise (tmrLe ele)) : Sorted (dpeleTmrspecCompare A ele) xs := by
  refine (hs.and hnd).imp fun {a b} hab => lt_of_le_of_ne (compare_le.mpr hab.1) fun hzero => hab.2 (compare_zero hzero)

theorem orderedInsert_congr {r r' : κ → κ → Prop} [DecidableRel r] [DecidableRel r'] (h : ∀ b,r k b ↔ r' k b) :
    xs.orderedInsert r k=xs.orderedInsert r' k := by
  induction xs with
  | nil => rfl
  | cons y xs ih => rw [List.orderedInsert_cons,List.orderedInsert_cons,ih,if_congr (h y) rfl rfl]

/-- No other element compares equal. -/
theorem put_compare (h : k∉xs) : put (dpeleTmrspecCompare A ele) xs k=(xs.orderedInsert (tmrLe ele) k,none) := by
  have hfind : xs.find? (fun y => dpeleTmrspecCompare A ele k y=0)=none := by
    refine List.find?_eq_none.mpr fun y hy => ?_
    rw [decide_eq_true_eq]
    exact fun hzero => h (compare_zero hzero ▸ hy)
  unfold put
  rw [hfind]
  exact congrArg (·,none) (orderedInsert_congr fun b => compare_le)

theorem erase_filter (hnd : xs.Nodup) : xs.erase k=xs.filter (·≠k) := by
  rw [hnd.erase_eq_filter]
  refine List.filter_congr fun x _ => ?_
  by_cases h : x=k
  · simp [h]
  · simp [h]

end Compare

/-! ### What the calls keep -/

structure Related (c : State F.carrier κ) (s : Abs F.carrier κ) : Prop where
  keeps : Keeps c.mem s.evp.timer
  ele : c.ele=s.evp.ele
  now : c.now=s.evp.now
  out : c.out=s.out
  tree : TmrWait.Tree s.evp
  fits : ∀ k∈s.evp.timer,0≤(s.evp.ele k).expire ∧ (s.evp.ele k).expire<2^63

/-- The element with its new time. -/
def arm (s : TmrWait.Dpevp F.carrier κ) (k : κ) (x : ℤ) : TmrWait.Dpevp F.carrier κ :=
  s.setEle k {s.ele k with expire := x, isTiming := true}

section Trees
variable {A} {s : TmrWait.Dpevp F.carrier κ} {ele : κ → Ele F.carrier} {m : Mem κ} {k : κ} {n : ℕ} {x : ℤ}

/-- Only the times count. -/
theorem compare_congr {ele' : κ → Ele F.carrier} (h : ∀ j,(ele j).expire=(ele' j).expire) :
    dpeleTmrspecCompare A ele=dpeleTmrspecCompare A ele' := by
  funext a b
  unfold dpeleTmrspecCompare
  rw [h a,h b]

theorem sorted_arm (h : TmrWait.Tree s) : Sorted (dpeleTmrspecCompare A (arm s k x).ele) (s.timer.erase k) := by
  rw [erase_filter h.nodup]
  refine sorted_compare (h.nodup.filter _) (TieOrder.pairwise_leave (fun j hjk => ?_) h.sorted)
  exact congrArg Ele.expire (Function.update_of_ne hjk ..)

/-- The tree takes an element that is not there, and one that is there to its new place. -/
theorem upsert_tree (h : TmrWait.Tree s) (hm : Keeps m s.timer) (hn : Enough n s.timer) :
    ∃ m',(if (s.ele k).isTiming then rbReinsert n (dpeleTmrspecCompare A (arm s k x).ele) m k
        else rbInsert n (dpeleTmrspecCompare A (arm s k x).ele) m k)=some (m',none) ∧
      Keeps m' ((s.timer.filter (·≠k)).orderedInsert (tmrLe (arm s k x).ele) k) := by
  have hsorted := sorted_arm (A := A) (k := k) (x := x) h
  have hput : put (dpeleTmrspecCompare A (arm s k x).ele) (s.timer.erase k) k=_ := put_compare h.nodup.not_mem_erase
  rw [← erase_filter h.nodup]
  split
  · rename_i htiming
    obtain ⟨m',hm',hkeeps⟩ := rbReinsert_spec compare_lawful hm h.nodup ((h.timing k).mp htiming) hsorted hn
    rw [hput] at hm' hkeeps
    exact ⟨m',hm',hkeeps⟩
  · rename_i htiming
    have hk : k∉s.timer := fun hk => htiming ((h.timing k).mpr hk)
    rw [List.erase_of_not_mem hk] at hsorted hput ⊢
    obtain ⟨m',hm',hkeeps⟩ := rbInsert_put hm h.nodup hk (hsorted.cut compare_lawful) hn
    rw [hput] at hm' hkeeps
    exact ⟨m',hm',hkeeps⟩

end Trees

section Steps
variable {A} {c : State F.carrier κ} {s s' : Abs F.carrier κ} {k : κ} {n : ℕ} {call : Call F.carrier κ} {after : F.carrier}
  {x : ℤ}

/-- upsert with a time that fits. -/
theorem upsert_arm (h : Related c s) (hn : Enough n s.evp.timer) (hafter : (s.evp.ele k).after=some after)
    (hneg : F.neg after=false) (hx : F.deadline s.evp.now after=some x) :
    ∃ m,dptmrsetUpsert A n c k=some {c with mem := m, ele := (arm s.evp k x).ele, out := c.out++[.ret dpeOk]} ∧
      Keeps m ((s.evp.timer.filter (·≠k)).orderedInsert (tmrLe (arm s.evp k x).ele) k) := by
  have hcmp : dpeleTmrspecCompare A (Function.update s.evp.ele k {s.evp.ele k with expire := x})=
      dpeleTmrspecCompare A (arm s.evp k x).ele := by
    refine compare_congr fun j => ?_
    show (Function.update s.evp.ele k _ j).expire=(Function.update s.evp.ele k _ j).expire
    rw [Function.update_apply,Function.update_apply]
    split <;> rfl
  obtain ⟨m,hm,hkeeps⟩ := upsert_tree (A := A) (k := k) (x := x) h.tree h.keeps hn
  rw [← hcmp] at hm
  refine ⟨m,?_,hkeeps⟩
  unfold dptmrsetUpsert
  rw [h.ele,h.now,hafter]
  dsimp only
  rw [if_neg (by simp [hneg]),hx,Option.bind_some]
  simp only [State.setEle,h.ele,Function.update_self]
  split at hm
  · rename_i htiming
    rw [if_pos htiming,hm]
    simp [State.give,arm,TmrWait.Dpevp.setEle,htiming,h.now]
  · rename_i htiming
    rw [if_neg htiming,hm]
    simp [State.give,arm,TmrWait.Dpevp.setEle,h.now]

theorem fits_leave (h : Related c s) {evp : TmrWait.Dpevp F.carrier κ} (hmem : ∀ j∈evp.timer,j≠k ∧ j∈s.evp.timer)
    (hele : ∀ j≠k,evp.ele j=s.evp.ele j) : ∀ j∈evp.timer,0≤(evp.ele j).expire ∧ (evp.ele j).expire<2^63 := by
  intro j hj
  obtain ⟨hjk,hj⟩ := hmem j hj
  rw [hele j hjk]
  exact h.fits j hj

theorem upsert_related (h : Related c s) (hs : s.step (.upsert n k)=some s') :
    ∃ c',dptmrsetUpsert A n c k=some c' ∧ Related c' s' := by
  obtain ⟨hn,hs⟩ := Option.ite_none_right_eq_some.mp hs
  obtain ⟨evp,hevp,rfl⟩ := Option.map_eq_some_iff.mp hs
  have htree := TmrWait.tree_upsert h.tree hevp
  unfold TmrWait.dptmrsetUpsert at hevp
  cases hafter : (s.evp.ele k).after with
  | none =>
    rw [hafter] at hevp
    cases hevp
    refine ⟨c.give (.ret dpeInval),?_,h.keeps,h.ele,h.now,?_,htree,h.fits⟩
    · simp [dptmrsetUpsert,h.ele,hafter]
    · simp [State.give,h.out]
  | some after =>
    rw [hafter] at hevp
    dsimp only at hevp
    split at hevp
    · rename_i hneg
      cases hevp
      refine ⟨c.give (.ret dpeInval),?_,h.keeps,h.ele,h.now,?_,htree,h.fits⟩
      · simp [dptmrsetUpsert,h.ele,hafter,hneg]
      · simp [State.give,h.out,hneg]
    · rename_i hneg
      rw [Bool.not_eq_true] at hneg
      obtain ⟨x,hx,rfl⟩ := Option.map_eq_some_iff.mp hevp
      obtain ⟨m,hm,hkeeps⟩ := upsert_arm (A := A) h hn hafter hneg hx
      refine ⟨_,hm,hkeeps,rfl,h.now,?_,htree,fun j hj => ?_⟩
      · simp [h.out,hneg]
      · by_cases hjk : j=k
        · subst hjk
          simpa [TmrWait.Dpevp.setEle] using F.range _ _ _ hx
        · have hj := (TieOrder.mem_move.mp hj).resolve_left hjk
          simpa [TmrWait.Dpevp.setEle,hjk] using h.fits j hj

theorem remove_related (h : Related c s) (hs : s.step (.remove n k)=some s') :
    ∃ c',dptmrsetRemove n c k=some c' ∧ Related c' s' := by
  obtain ⟨hn,hs⟩ := Option.ite_none_right_eq_some.mp hs
  obtain rfl := Option.some.inj hs
  have htree := TmrWait.tree_remove h.tree k
  unfold TmrWait.dptmrsetRemove at htree ⊢
  unfold dptmrsetRemove
  rw [h.ele]
  split
  · rename_i htiming
    rw [if_pos htiming] at htree
    obtain ⟨m,hm,hkeeps⟩ := rbRemove_spec h.keeps h.tree.nodup ((h.tree.timing k).mp htiming) hn
    rw [erase_filter h.tree.nodup] at hkeeps
    rw [hm,Option.map_some]
    refine ⟨_,rfl,hkeeps,?_,h.now,h.out,htree,fits_leave (k := k) h (fun j hj => ?_) fun j hjk => ?_⟩
    · rfl
    · simpa [and_comm] using hj
    · exact Function.update_of_ne hjk ..
  · rename_i htiming
    rw [if_neg htiming] at htree
    exact ⟨c,rfl,h.keeps,h.ele,h.now,h.out,htree,h.fits⟩

theorem expire_related (h : Related c s) (hs : s.step (.expire n)=some s') :
    ∃ c',dptmrsetExpire n c=some c' ∧ Related c' s' := by
  rcases hevp : TmrWait.dptmrsetExpire s.evp with ⟨evp,out⟩
  simp only [Abs.step,hevp] at hs
  obtain ⟨hn,hs⟩ := Option.ite_none_right_eq_some.mp hs
  obtain rfl := Option.some.inj hs
  have hmin : rbMinmax n c.mem .left=some s.evp.timer.head? := rbMinmax_spec h.keeps hn
  have htree : TmrWait.Tree evp := by
    cases out with
    | none =>
      obtain ⟨w,rfl,-⟩ := TmrWait.expire_none hevp
      exact h.tree.congr rfl rfl rfl
    | some k => exact TmrWait.tree_fire h.tree hevp
  unfold TmrWait.dptmrsetExpire at hevp
  unfold dptmrsetExpire
  rw [hmin,Option.bind_some,h.ele,h.now]
  cases hl : s.evp.timer with
  | nil =>
    rw [hl] at hevp
    cases hevp
    exact ⟨_,rfl,hl ▸ h.keeps,h.ele,h.now,by simp [State.give,h.out],htree,hl ▸ h.fits⟩
  | cons k l =>
    rw [hl] at hevp
    dsimp only [List.head?_cons] at hevp ⊢
    split at hevp
    · rename_i hlater
      cases hevp
      rw [if_pos hlater]
      exact ⟨_,rfl,hl ▸ h.keeps,h.ele,h.now,by simp [State.give,h.out],htree,hl ▸ h.fits⟩
    · rename_i hdue
      cases hevp
      rw [if_neg hdue]
      have hnd := h.tree.nodup
      rw [hl] at hnd
      obtain ⟨m,hm,hkeeps⟩ := rbRemove_spec h.keeps h.tree.nodup (hl ▸ List.mem_cons_self) hn
      rw [hl,List.erase_cons_head] at hkeeps
      rw [hm,Option.map_some]
      have hout : (c.out++[.expired 0 (some k)] : List (Out κ))=s.out++[.expired 0 (some k)] := by rw [h.out]
      refine ⟨_,rfl,hkeeps,rfl,rfl,hout,htree,fits_leave (k := k) h (fun j hj => ?_) fun j hjk => ?_⟩
      · exact ⟨fun heq => (List.nodup_cons.mp hnd).1 (heq ▸ hj),hl ▸ List.mem_cons_of_mem k hj⟩
      · exact Function.update_of_ne hjk ..

theorem step_related (h : Related c s) (hs : s.step call=some s') : ∃ c',step A c call=some c' ∧ Related c' s' := by
  cases call with
  | edit k e =>
    obtain ⟨⟨htiming,hexpire⟩,hs⟩ := Option.ite_none_right_eq_some.mp hs
    obtain rfl := Option.some.inj hs
    refine ⟨_,rfl,h.keeps,?_,h.now,h.out,TmrWait.tree_setEle h.tree htiming hexpire,fun j hj => ?_⟩
    · simp [State.setEle,TmrWait.Dpevp.setEle,h.ele]
    · by_cases hjk : j=k
      · subst hjk
        have he := hexpire.resolve_right (not_not.mpr hj)
        simpa [TmrWait.Dpevp.setEle,he] using h.fits j hj
      · simpa [TmrWait.Dpevp.setEle,hjk] using h.fits j hj
  | clock now =>
    obtain rfl := Option.some.inj hs
    exact ⟨_,rfl,h.keeps,h.ele,rfl,h.out,h.tree.congr rfl rfl rfl,h.fits⟩
  | upsert n k => exact upsert_related h hs
  | remove n k => exact remove_related h hs
  | expire n => exact expire_related h hs

theorem freeLoop_spec {m : Mem κ} {xs : List κ} {j : ℕ} (h : Keeps m xs) (hnd : xs.Nodup) (hn : Enough n xs)
    (hj : xs.length≤j) : ∃ m',freeLoop n j m xs.head?=some m' ∧ Keeps m' [] := by
  induction xs generalizing m j with
  | nil => exact ⟨m,by cases j <;> rfl,h⟩
  | cons x xs ih =>
    obtain ⟨j,rfl⟩ := Nat.exists_eq_succ_of_ne_zero (Nat.ne_of_gt (Nat.lt_of_lt_of_le (Nat.succ_pos _) hj))
    have hnext : rbNext n m .right x=some xs.head? :=
      rbNext_spec (d := .right) (show Keeps m (around .right xs x []) from h) hnd hn
    obtain ⟨m',hm',hkeeps⟩ := rbRemove_spec h hnd List.mem_cons_self hn
    rw [List.erase_cons_head] at hkeeps
    obtain ⟨m'',hm'',hnil⟩ := ih hkeeps (List.nodup_cons.mp hnd).2 (hn.mono (Nat.le_succ _)) (Nat.le_of_succ_le_succ hj)
    refine ⟨m'',?_,hnil⟩
    simp only [List.head?_cons,freeLoop,hnext,hm',Option.bind_some,hm'']

/-- What upsert returns. -/
theorem rets_step (h : ∀ r,Out.ret r∈s.out → r=dpeOk ∨ r=dpeInval) (hs : s.step call=some s') :
    ∀ r,Out.ret r∈s'.out → r=dpeOk ∨ r=dpeInval := by
  cases call with
  | edit k e =>
    obtain ⟨-,hs⟩ := Option.ite_none_right_eq_some.mp hs
    obtain rfl := Option.some.inj hs
    exact h
  | clock now =>
    obtain rfl := Option.some.inj hs
    exact h
  | upsert n k =>
    obtain ⟨-,hs⟩ := Option.ite_none_right_eq_some.mp hs
    obtain ⟨evp,-,rfl⟩ := Option.map_eq_some_iff.mp hs
    intro r hr
    rcases List.mem_append.mp hr with hr | hr
    · exact h r hr
    · obtain rfl := Out.ret.inj (List.mem_singleton.mp hr)
      split
      · exact .inl rfl
      · exact .inr rfl
  | remove n k =>
    obtain ⟨-,hs⟩ := Option.ite_none_right_eq_some.mp hs
    obtain rfl := Option.some.inj hs
    exact h
  | expire n =>
    rcases hevp : TmrWait.dptmrsetExpire s.evp with ⟨evp,out⟩
    simp only [Abs.step,hevp] at hs
    obtain ⟨-,hs⟩ := Option.ite_none_right_eq_some.mp hs
    obtain rfl := Option.some.inj hs
    intro r hr
    rcases List.mem_append.mp hr with hr | hr
    · exact h r hr
    · cases List.mem_singleton.mp hr

/-- Two times that are not negative are less than 2^63 apart. -/
theorem compare_range {a b : κ} (h : Related c s) (ha : a∈s.evp.timer) (hb : b∈s.evp.timer) :
    -2^63<dpeleTmrspecCompare A c.ele a b ∧ dpeleTmrspecCompare A c.ele a b<2^63 := by
  have hfits := h.fits a ha
  have hfits' := h.fits b hb
  rw [← h.ele] at hfits hfits'
  have hrange := A.range a
  have hrange' := A.range b
  unfold dpeleTmrspecCompare
  dsimp only
  split <;> omega

end Steps

/-! ### Runs -/

section Runs
variable {A} {m : Mem κ} {s : Abs F.carrier κ} {n : ℕ} {calls : List (Call F.carrier κ)}

/- Three timers; the first one becomes the earliest, and the second is removed. -/
def blocks : Address (Fin 3) where
  addr k := 4096+64*k
  mono a b h := by
    show (4096+64*(a : ℕ) : ℤ)<4096+64*(b : ℕ)
    omega
  range k := by omega

def rearmed : List (Call wholeSeconds.carrier (Fin 3)) :=
  [.edit 0 {after := some (3 : ℤ)},.edit 1 {after := some (1 : ℤ)},.edit 2 {after := some (1 : ℤ)},.upsert 1 0,.upsert 3 1,
    .upsert 4 2,.clock 500,.edit 0 {after := some (0 : ℤ), expire := 3000, isTiming := true},.upsert 5 0,.expire 5,
    .remove 4 1,.clock 600,.expire 3]

theorem run_related (A : Address κ) (hm : m.root=none) (h : exec Abs.step {} calls=some s) :
    ∃ c,exec (step A) {mem := m} calls=some c ∧ Related c s := by
  have hinit : Related (F := F) {mem := m} {} := by
    refine ⟨⟨.nil,0,⟨trivial,hm⟩,rfl,rfl⟩,rfl,rfl,rfl,⟨List.nodup_nil,.nil,fun k => ?_,fun k => rfl,?_⟩,fun k hk => ?_⟩
    · simp
    · intro p k e t hp
      simp at hp
    · cases hk
  have hstep : ∀ (c : State F.carrier κ) (s : Abs F.carrier κ) call s',Related c s → s.step call=some s' →
      ∃ c',step A c call=some c' ∧ Related c' s' := fun _ _ _ _ hR hs => Dptmrset.step_related hR hs
  exact exec_simulates hstep hinit h

/-- The tree of pointers is the sorted list in every run: nothing goes through NULL, each loop ends in its rounds, a timer is
never found to be there already, and the difference of two times is an int64_t. -/
theorem dptmrset_runs (hm : m.root=none) (h : exec Abs.step {} calls=some s) :
    ∃ c,exec (step A) {mem := m} calls=some c ∧ Keeps c.mem s.evp.timer ∧ s.evp.timer.Pairwise (tmrLe c.ele) ∧
      c.ele=s.evp.ele ∧ c.out=s.out ∧ (∀ k,(c.ele k).isTiming ↔ k∈s.evp.timer) ∧ TmrWait.Fair s.evp.log ∧
      .ret dpeInternalError∉c.out ∧
      ∀ a∈s.evp.timer,∀ b∈s.evp.timer,-2^63<dpeleTmrspecCompare A c.ele a b ∧ dpeleTmrspecCompare A c.ele a b<2^63 := by
  obtain ⟨c,hrun,hrel⟩ := run_related A hm h
  have hrets : ∀ r,Out.ret r∈s.out → r=dpeOk ∨ r=dpeInval :=
    (exec_reach h).invariant (by simp) fun t a u hI _ hstep => rets_step hI hstep
  refine ⟨c,hrun,hrel.keeps,hrel.ele ▸ hrel.tree.sorted,hrel.ele,hrel.out,hrel.ele ▸ hrel.tree.timing,hrel.tree.fair,?_,
    fun a ha b hb => compare_range hrel ha hb⟩
  intro hmem
  rw [hrel.out] at hmem
  rcases hrets _ hmem with heq | heq <;> exact absurd heq (by decide)

theorem dptmrset_runs_rearmed : ∃ c,exec (step blocks) {} rearmed=some c ∧ Keeps c.mem [2] ∧
    c.out=[.ret dpeOk,.ret dpeOk,.ret dpeOk,.ret dpeOk,.expired 0 (some 0),.expired 390 none] := by
  obtain ⟨c,hrun,hkeeps,-,-,hout,-⟩ :=
    dptmrset_runs (A := blocks) (m := {}) rfl (show exec Abs.step {} rearmed=some _ from rfl)
  exact ⟨c,hrun,hkeeps,hout⟩

/-- The walk of dptmrset_free goes on from an item that it has taken out. -/
theorem dptmrset_free {c : State F.carrier κ} {j : ℕ} (hm : m.root=none) (h : exec Abs.step {} calls=some s)
    (hrun : exec (step A) {mem := m} calls=some c) (hn : Enough n s.evp.timer) (hj : s.evp.timer.length≤j) :
    ∃ m',dptmrsetFree n j c.mem=some m' ∧ m'.root=none := by
  obtain ⟨c',hrun',hrel⟩ := run_related A hm h
  obtain rfl : c=c' := Option.some.inj (hrun.symm.trans hrun')
  obtain ⟨m',hm',t,r,ht,hlist,-⟩ := freeLoop_spec hrel.keeps hrel.tree.nodup hn hj
  have hmin : rbMinmax n c.mem .left=some s.evp.timer.head? := rbMinmax_spec hrel.keeps hn
  refine ⟨m',?_,?_⟩
  · rw [dptmrsetFree,hmin,Option.bind_some,hm']
  · have hroot : m'.root=t.root := ht.2
    cases hx : t.root with
    | none => exact hroot.trans hx
    | some x => exact absurd (hlist ▸ root_mem hx) List.not_mem_nil

theorem dptmrset_free_rearmed :
    ∃ c m',exec (step blocks) {} rearmed=some c ∧ dptmrsetFree 4 2 c.mem=some m' ∧ m'.root=none := by
  obtain ⟨c,hrun,-⟩ := dptmrset_runs (A := blocks) (m := {}) rfl (show exec Abs.step {} rearmed=some _ from rfl)
  obtain ⟨m',hm',hroot⟩ := dptmrset_free rfl rfl hrun (show Enough 4 [2] by decide) (show [2].length≤2 by decide)
  exact ⟨c,m',hrun,hm',hroot⟩

end Runs

end Dpapp.Dptmrset
