import Dpapp.Linked
import Dpapp.Machine

/-! # Coroutines of one thread (dpaco.c)

`dpaco_create`, `dpaco_resume`, `dpaco_yield` and `dpaco_delater`, with the place each coroutine is left at when
cocontext_swap takes control from it. -/

set_option linter.unusedSectionVars false

namespace Dpapp.Dpaco
open Dpapp.Machine Dpapp.Linked

variable {κ ν : Type*} [DecidableEq κ]

inductive Status | created | running | suspend | dead
  deriving DecidableEq

/-- Where a coroutine goes on: it enters its function, its dpaco_yield returns, or its dpaco_resume of `j` does. -/
inductive Place (κ : Type*)
  | enter
  | yield
  | resume (j : κ)

/- struct dpaco: `link` is the union of next and prev, and `place` stands for `ctx`. -/
structure Co (κ ν : Type*) where
  status : Status := .created
  msg : Option ν := none
  link : Option κ := none
  delater : Bool := false
  size : ℤ := 0
  place : Place κ := .enter

/-- What a coroutine gets with the control: the call that returns, and its value. -/
structure Got (κ ν : Type*) where
  who : κ
  place : Place κ
  val : Option ν

/- dp_aco_thenv_t, and the blocks that are allocated. `got` is the last transfer. -/
structure Thenv (κ ν : Type*) where
  co : κ → Co κ ν
  alive : κ → Bool
  comain : κ
  cocurr : κ
  recycle : Option κ := none
  recycleCount : ℕ := 0
  got : Option (Got κ ν) := none

def Thenv.set (s : Thenv κ ν) (k : κ) (c : Co κ ν) : Thenv κ ν := {s with co := Function.update s.co k c}

/-- dpaco_thinit -/
def thinit (main : κ) : Thenv κ ν where
  co := Function.update (fun _ => {}) main {status := .running}
  alive k := k=main
  comain := main
  cocurr := main

/-- dpaco_delater -/
def dpacoDelater (s : Thenv κ ν) (k : κ) : Thenv κ ν :=
  match (s.co k).status with
  | .created | .dead =>
      if s.recycleCount<1024 then
        {s.set k {s.co k with msg := none, delater := false, link := s.recycle} with
          recycle := some k, recycleCount := s.recycleCount+1}
      else {s with alive := Function.update s.alive k false}
  | .running | .suspend => s.set k {s.co k with delater := true}

/-- cocontext_swap has given control to `cocurr`. -/
def goOn (s : Thenv κ ν) : Thenv κ ν :=
  match (s.co s.cocurr).place with
  | .enter => {s with got := some ⟨s.cocurr,.enter,(s.co s.cocurr).msg⟩}
  | .yield => {s with got := some ⟨s.cocurr,.yield,(s.co s.cocurr).msg⟩}
  -- the rest of dpaco_resume
  | .resume j =>
      let t := if (s.co j).status=.dead ∧ (s.co j).delater=true then dpacoDelater s j else s
      {t with got := some ⟨t.cocurr,.resume j,(t.co t.cocurr).msg⟩}

/-- The switch of dpaco_resume to `k`. -/
def Thenv.give (s : Thenv κ ν) (k : κ) (v : ν) : Thenv κ ν :=
  let s' := s.set k {s.co k with link := some s.cocurr, msg := some v, status := .running}
  {s'.set s.cocurr {s'.co s.cocurr with status := .suspend, place := .resume k} with cocurr := k}

/-- The switch of dpaco_yield to `prev`. -/
def Thenv.back (s : Thenv κ ν) (prev : κ) (v : ν) : Thenv κ ν :=
  let c := s.co s.cocurr
  let s' := s.set s.cocurr {c with status := if c.status=.dead then .dead else .suspend, place := .yield}
  {s'.set prev {s'.co prev with status := .running, msg := some v} with cocurr := prev}

/-- dpaco_resume -/
def dpacoResume (s : Thenv κ ν) (k : κ) (v : ν) : Thenv κ ν :=
  match (s.co k).status with
  | .created | .suspend => goOn (s.give k v)
  | .running | .dead => {s with got := none}

/-- dpaco_yield -/
def dpacoYield (s : Thenv κ ν) (v : ν) : Thenv κ ν :=
  match (s.co s.cocurr).link with
  | none => {s with got := none}
  | some prev => goOn (s.back prev v)

/-- `_mainfunc`, once the coroutine's function has returned. -/
def mainfuncRet (s : Thenv κ ν) (v : ν) : Thenv κ ν := dpacoYield (s.set s.cocurr {s.co s.cocurr with status := .dead}) v

/-- dpaco_create: `k` is the memory calloc has found and `moved` what realloc returns. -/
def dpacoCreate (s : Thenv κ ν) (k : κ) (size : ℤ) (moved : Option κ) : Thenv κ ν :=
  let co := s.recycle.getD k
  let s := match s.recycle with
    | some r => {s with recycle := (s.co r).link, recycleCount := s.recycleCount-1}
    | none => {s.set k {size := size} with alive := Function.update s.alive k true}
  let c : Co κ ν := {s.co co with status := .created, link := none, delater := false, place := .enter}
  let s := s.set co c
  match moved with
  | some j =>
      if c.size=size then s
      else {s.set j {c with size := size} with alive := Function.update (Function.update s.alive co false) j true}
  | none => s

/-- The memory is free, or realloc leaves it where it is. -/
def fits (s : Thenv κ ν) (k : κ) (moved : Option κ) : Prop :=
  (s.recycle=none → s.alive k=false) ∧ ∀ j∈ moved,s.alive j=false ∨ some j=s.recycle.or (some k)

instance (s : Thenv κ ν) (k : κ) (moved : Option κ) : Decidable (fits s k moved) := inferInstanceAs (Decidable (_ ∧ _))

inductive Act (κ ν : Type*)
  | create (k : κ) (size : ℤ) (moved : Option κ)
  | resume (k : κ) (v : ν)
  | yield (v : ν)
  | ret (v : ν)
  | delater (k : κ)

/-- What the current coroutine does. -/
def step (s : Thenv κ ν) : Act κ ν → Option (Thenv κ ν)
  | .create k size moved => if fits s k moved then some (dpacoCreate s k size moved) else none
  | .resume k v => if s.alive k=true then some (dpacoResume s k v) else none
  | .yield v => some (dpacoYield s v)
  | .ret v => if s.cocurr≠s.comain then some (mainfuncRet s v) else none
  | .delater k => if s.alive k=true then some (dpacoDelater s k) else none

/-! ### The chain of resumers -/

def Thenv.link (s : Thenv κ ν) (k : κ) : Option κ := (s.co k).link

/-- The blocks that wait to be used again. -/
def Thenv.free (s : Thenv κ ν) : List κ := walk s.link s.recycleCount s.recycle

def Place.isResume : Place κ → Bool
  | .resume _ => true
  | .enter | .yield => false

/-- No coroutine is resumed that is itself waiting in dpaco_resume, and none is used that has been given back. -/
def orderly (s : Thenv κ ν) : Act κ ν → Prop
  | .resume k _ => ((s.co k).status=.suspend → (s.co k).place.isResume=false) ∧ ((s.co k).status=.created → k∉ s.free)
  | .delater k => k∉ s.free
  | .create .. | .yield _ | .ret _ => True

/-- `p` waits in its dpaco_resume of `c`. -/
def waitsFor (s : Thenv κ ν) (c p : κ) : Prop := (s.co p).status=.suspend ∧ (s.co p).place=.resume c

structure Shape (s : Thenv κ ν) (rest free : List κ) : Prop where
  chain : path s.link (some s.cocurr) (s.cocurr::rest)
  nodup : (s.cocurr::rest).Nodup
  main : (s.cocurr::rest).getLast? =some s.comain
  waits : (s.cocurr::rest).IsChain (waitsFor s)
  runs : (s.co s.cocurr).status=.running
  pool : path s.link s.recycle free
  once : free.Nodup
  count : free.length=s.recycleCount
  spent : ∀ k∈free,s.alive k=true ∧ ((s.co k).status=.created ∨ (s.co k).status=.dead)
  alive : ∀ k∈ s.cocurr::rest,s.alive k=true
  others : ∀ k,s.alive k=true → k∉ s.cocurr::rest → k∉free → ((s.co k).status=.created ∧ (s.co k).place=.enter) ∨
    ((s.co k).status=.suspend ∧ (s.co k).place=.yield) ∨ (s.co k).status=.dead

/-- A coroutine that is over and has been given back does not stay outside of the pool. -/
def Handed (s : Thenv κ ν) : Prop := ∀ k,s.alive k=true → (s.co k).status=.dead → (s.co k).delater=false

section Shapes
variable {s s' : Thenv κ ν} {rest free : List κ} {k : κ} {v : ν}

theorem isChain_pred {α : Type*} {R : α → α → Prop} {a b : α} {l : List α} (h : (a::l).IsChain R) (hb : b∈l) :
    ∃ c,R c b := by
  induction l generalizing a with
  | nil => cases hb
  | cons x l ih =>
    rw [List.isChain_cons_cons] at h
    rcases List.mem_cons.mp hb with rfl | hb
    · exact ⟨a,h.1⟩
    · exact ih h.2 hb

theorem waits_status (h : Shape s rest free) (hk : k∈rest) : (s.co k).status=.suspend ∧ (s.co k).place.isResume=true := by
  obtain ⟨c,hstatus,hplace⟩ := isChain_pred h.waits hk
  exact ⟨hstatus,by rw [hplace]; rfl⟩

theorem free_eq (h : Shape s rest free) : s.free=free := by
  rw [Thenv.free,← h.count]
  exact walk_path h.pool

theorem free_apart (h : Shape s rest free) (hk : k∈free) : k∉ s.cocurr::rest := by
  intro hc
  have hst := (h.spent k hk).2
  rcases List.mem_cons.mp hc with rfl | hc
  · rw [h.runs] at hst
    rcases hst with hst | hst <;> cases hst
  · rw [(waits_status h hc).1] at hst
    rcases hst with hst | hst <;> cases hst

/-- The return value of a call that changes nothing else. -/
theorem shape_got (h : Shape s rest free) (g : Option (Got κ ν)) : Shape {s with got := g} rest free :=
  ⟨h.chain,h.nodup,h.main,h.waits,h.runs,h.pool,h.once,h.count,h.spent,h.alive,h.others⟩

@[simp] theorem set_self (s : Thenv κ ν) (k : κ) (c : Co κ ν) : (s.set k c).co k=c := by simp [Thenv.set]

@[simp] theorem set_cocurr (s : Thenv κ ν) (k : κ) (c : Co κ ν) : (s.set k c).cocurr=s.cocurr := rfl

theorem set_ne (s : Thenv κ ν) {j k : κ} (c : Co κ ν) (h : j≠k) : (s.set k c).co j=s.co j := by simp [Thenv.set,h]

/-- What an update of a coroutine that is neither on the chain nor in the pool has to keep. -/
theorem shape_set {c : Co κ ν} (h : Shape s rest free) (hc : k∉ s.cocurr::rest) (hf : k∉free)
    (hst : (c.status=.created ∧ c.place=.enter) ∨ (c.status=.suspend ∧ c.place=.yield) ∨ c.status=.dead) :
    Shape (s.set k c) rest free := by
  have hne : ∀ j∈ s.cocurr::rest,j≠k := fun j hj hjk => hc (hjk ▸ hj)
  have hnf : ∀ j∈free,j≠k := fun j hj hjk => hf (hjk ▸ hj)
  refine ⟨path_congr h.chain fun j hj => ?_,h.nodup,h.main,?_,?_,path_congr h.pool fun j hj => ?_,h.once,h.count,
    fun j hj => ?_,h.alive,fun j ha hjc hjf => ?_⟩
  · simp only [Thenv.link,set_ne s c (hne j hj)]
  · refine h.waits.imp_of_mem_tail_imp fun a b _ hb hw => ?_
    rw [waitsFor,set_ne s c (hne b (List.mem_of_mem_tail hb))]
    exact hw
  · rw [show (s.set k c).cocurr=s.cocurr from rfl,set_ne s c (hne _ List.mem_cons_self)]
    exact h.runs
  · simp only [Thenv.link,set_ne s c (hnf j hj)]
  · rw [set_ne s c (hnf j hj)]
    exact h.spent j hj
  · by_cases hjk : j=k
    · subst hjk
      rw [set_self]
      exact hst
    · rw [set_ne s c hjk]
      exact h.others j ha hjc hjf

/-- A coroutine that is over goes to the pool. -/
theorem shape_push {c : Co κ ν} (h : Shape s rest free) (ha : s.alive k=true) (hc : k∉ s.cocurr::rest) (hf : k∉free)
    (hlink : c.link=s.recycle) (hst : c.status=.created ∨ c.status=.dead) :
    Shape {s.set k c with recycle := some k, recycleCount := s.recycleCount+1} rest (k::free) := by
  have hne : ∀ j∈ s.cocurr::rest,j≠k := fun j hj hjk => hc (hjk ▸ hj)
  have hnf : ∀ j∈free,j≠k := fun j hj hjk => hf (hjk ▸ hj)
  refine ⟨path_congr h.chain fun j hj => ?_,h.nodup,h.main,?_,?_,⟨rfl,?_⟩,List.nodup_cons.mpr ⟨hf,h.once⟩,
    congrArg Nat.succ h.count,fun j hj => ?_,h.alive,fun j hja hjc hjf => ?_⟩
  · simp only [Thenv.link,set_ne s c (hne j hj)]
  · refine h.waits.imp_of_mem_tail_imp fun a b _ hb hw => ?_
    rw [waitsFor]
    simp only [set_ne s c (hne b (List.mem_of_mem_tail hb))]
    exact hw
  · simp only [set_ne s c (hne _ List.mem_cons_self),show (s.set k c).cocurr=s.cocurr from rfl]
    exact h.runs
  · simp only [Thenv.link,set_self,hlink]
    refine path_congr h.pool fun j hj => ?_
    simp only [Thenv.link,set_ne s c (hnf j hj)]
  · rcases List.mem_cons.mp hj with rfl | hj
    · exact ⟨ha,by simpa only [set_self] using hst⟩
    · simp only [set_ne s c (hnf j hj)]
      exact h.spent j hj
  · have hjk := List.ne_of_not_mem_cons hjf
    have hjf := List.not_mem_of_not_mem_cons hjf
    simp only [set_ne s c hjk]
    exact h.others j hja hjc hjf

/-- Only links, states and places matter. -/
theorem shape_congr (h : Shape s rest free) (hco : ∀ j,(s'.co j).link=(s.co j).link ∧ (s'.co j).status=(s.co j).status ∧
    (s'.co j).place=(s.co j).place) (hcurr : s'.cocurr=s.cocurr) (hmain : s'.comain=s.comain) (hrec : s'.recycle=s.recycle)
    (hcount : s'.recycleCount=s.recycleCount) (halive : s'.alive=s.alive) : Shape s' rest free := by
  have hlink : s'.link=s.link := funext fun j => (hco j).1
  refine ⟨?_,?_,?_,?_,?_,?_,h.once,?_,fun j hj => ?_,?_,fun j ha hjc hjf => ?_⟩
  · rw [hlink,hcurr]
    exact h.chain
  · rw [hcurr]
    exact h.nodup
  · rw [hcurr,hmain]
    exact h.main
  · rw [hcurr]
    refine h.waits.imp_of_mem_tail_imp fun a b _ _ hw => ?_
    rw [waitsFor,(hco b).2.1,(hco b).2.2]
    exact hw
  · rw [hcurr,(hco _).2.1]
    exact h.runs
  · rw [hlink,hrec]
    exact h.pool
  · rw [hcount]
    exact h.count
  · rw [halive,(hco j).2.1]
    exact h.spent j hj
  · rw [hcurr,halive]
    exact h.alive
  · rw [hcurr] at hjc
    rw [halive] at ha
    rw [(hco j).2.1,(hco j).2.2]
    exact h.others j ha hjc hjf

/-- The memory of a coroutine that is over is freed. -/
theorem shape_free (h : Shape s rest free) (hc : k∉ s.cocurr::rest) (hf : k∉free) :
    Shape {s with alive := Function.update s.alive k false} rest free := by
  refine ⟨h.chain,h.nodup,h.main,h.waits,h.runs,h.pool,h.once,h.count,fun j hj => ⟨?_,(h.spent j hj).2⟩,fun j hj => ?_,
    fun j ha hjc hjf => ?_⟩
  · simp only [Function.update_of_ne (fun hjk : j=k => hf (hjk ▸ hj))]
    exact (h.spent j hj).1
  · simp only [Function.update_of_ne (fun hjk : j=k => hc (hjk ▸ hj))]
    exact h.alive j hj
  · by_cases hjk : j=k
    · subst hjk
      simp at ha
    · simp only [Function.update_of_ne hjk] at ha
      exact h.others j ha hjc hjf

theorem shape_delater (h : Shape s rest free) (ha : s.alive k=true) (hf : k∉free) :
    ∃ free',Shape (dpacoDelater s k) rest free' := by
  have hoff : (s.co k).status=.created ∨ (s.co k).status=.dead → k∉ s.cocurr::rest := by
    intro hst hc
    rcases List.mem_cons.mp hc with rfl | hc
    · rw [h.runs] at hst
      rcases hst with hst | hst <;> cases hst
    · rw [(waits_status h hc).1] at hst
      rcases hst with hst | hst <;> cases hst
  have hgone : (s.co k).status=.created ∨ (s.co k).status=.dead → ∃ free',Shape (if s.recycleCount<1024 then
      {s.set k {s.co k with msg := none, delater := false, link := s.recycle} with
        recycle := some k, recycleCount := s.recycleCount+1}
      else {s with alive := Function.update s.alive k false}) rest free' := by
    intro hst
    split
    · exact ⟨_,shape_push h ha (hoff hst) hf rfl hst⟩
    · exact ⟨_,shape_free h (hoff hst) hf⟩
  have hflag : ∃ free',Shape (s.set k {s.co k with delater := true}) rest free' := by
    refine ⟨free,shape_congr h (fun j => ?_) rfl rfl rfl rfl rfl⟩
    by_cases hjk : j=k
    · subst hjk
      simp
    · rw [set_ne s _ hjk]
      exact ⟨rfl,rfl,rfl⟩
  unfold dpacoDelater
  cases hst : (s.co k).status with
  | created => exact hgone (.inl hst)
  | dead => exact hgone (.inr hst)
  | running => exact hflag
  | suspend => exact hflag

theorem give_co (hne : k≠s.cocurr) (j : κ) : (s.give k v).co j=
    if j=s.cocurr then {s.co j with status := .suspend, place := .resume k}
    else if j=k then {s.co j with link := some s.cocurr, msg := some v, status := .running} else s.co j := by
  unfold Thenv.give
  by_cases hj : j=s.cocurr
  · subst hj
    simp [Thenv.set,hne.symm]
  · by_cases hjk : j=k
    · subst hjk
      simp [Thenv.set,hj]
    · simp [Thenv.set,hj,hjk]

theorem shape_give (h : Shape s rest free) (ha : s.alive k=true) (hc : k∉ s.cocurr::rest) (hf : k∉free) :
    Shape (s.give k v) (s.cocurr::rest) free := by
  have hne : k≠s.cocurr := List.ne_of_not_mem_cons hc
  have hnodup := List.nodup_cons.mp h.nodup
  have hco := give_co (v := v) hne
  have hlink : ∀ j,j≠k → (s.give k v).link j=s.link j := by
    intro j hj
    rw [Thenv.link,Thenv.link,hco,if_neg hj]
    split <;> rfl
  refine ⟨⟨rfl,?_⟩,List.nodup_cons.mpr ⟨hc,h.nodup⟩,?_,List.isChain_cons_cons.mpr ⟨?_,?_⟩,?_,?_,h.once,h.count,
    fun j hj => ⟨(h.spent j hj).1,?_⟩,fun j hj => ?_,fun j hja hjc hjf => ?_⟩
  · have hk : (s.give k v).link k=some s.cocurr := by
      rw [Thenv.link,hco,if_neg hne,if_pos rfl]
    rw [show (s.give k v).cocurr=k from rfl,hk]
    exact path_congr h.chain fun j hj => hlink j fun hjk => hc (hjk ▸ hj)
  · rw [List.getLast?_cons_cons]
    exact h.main
  · rw [waitsFor,hco,if_pos rfl]
    exact ⟨rfl,rfl⟩
  · refine h.waits.imp_of_mem_tail_imp fun a b _ hb hw => ?_
    have hbc : b≠s.cocurr := fun hbc => hnodup.1 (hbc ▸ hb)
    have hbk : b≠k := fun hbk => hc (hbk ▸ List.mem_cons_of_mem _ hb)
    rw [waitsFor,hco,if_neg hbc,if_neg hbk]
    exact hw
  · rw [show (s.give k v).cocurr=k from rfl,hco,if_neg hne,if_pos rfl]
  · exact path_congr h.pool fun j hj => hlink j fun hjk => hf (hjk ▸ hj)
  · have hjc : j≠s.cocurr := fun hjc => free_apart h hj (hjc ▸ List.mem_cons_self)
    have hjk : j≠k := fun hjk => hf (hjk ▸ hj)
    rw [hco,if_neg hjc,if_neg hjk]
    exact (h.spent j hj).2
  · rcases List.mem_cons.mp hj with rfl | hj
    · exact ha
    · exact h.alive j hj
  · have hjk : j≠k := List.ne_of_not_mem_cons hjc
    have hjc := List.not_mem_of_not_mem_cons hjc
    have hjcur : j≠s.cocurr := List.ne_of_not_mem_cons hjc
    rw [hco,if_neg hjcur,if_neg hjk]
    exact h.others j hja hjc hjf

theorem back_co {p : κ} (hne : p≠s.cocurr) (j : κ) : (s.back p v).co j=
    if j=p then {s.co j with status := .running, msg := some v}
    else if j=s.cocurr then
      {s.co j with status := if (s.co j).status=.dead then .dead else .suspend, place := .yield}
    else s.co j := by
  unfold Thenv.back
  by_cases hj : j=p
  · subst hj
    simp [Thenv.set,hne]
  · by_cases hjc : j=s.cocurr
    · subst hjc
      simp [Thenv.set,hj]
    · simp [Thenv.set,hj,hjc]

/-- The current coroutine gives control back: it has yielded, or is dead. -/
theorem shape_back {p : κ} {c : Co κ ν} (h : Shape s (p::rest) free) (hlink : c.link=(s.co s.cocurr).link) :
    Shape ((s.set s.cocurr c).back p v) rest free := by
  have hnodup := List.nodup_cons.mp h.nodup
  have hne : p≠s.cocurr := fun hp => hnodup.1 (hp ▸ List.mem_cons_self)
  have hco : ∀ j,j≠p → j≠s.cocurr → ((s.set s.cocurr c).back p v).co j=s.co j := by
    intro j hjp hjc
    rw [back_co (show p≠(s.set s.cocurr c).cocurr from hne),if_neg hjp,set_cocurr,if_neg hjc,set_ne s c hjc]
  have hcop : ((s.set s.cocurr c).back p v).co p={s.co p with status := .running, msg := some v} := by
    rw [back_co (show p≠(s.set s.cocurr c).cocurr from hne),if_pos rfl,set_ne s c hne]
  have hcoc : ((s.set s.cocurr c).back p v).co s.cocurr=
      {c with status := if c.status=.dead then .dead else .suspend, place := .yield} := by
    rw [back_co (show p≠(s.set s.cocurr c).cocurr from hne),if_neg hne.symm,set_cocurr,if_pos rfl,set_self]
  have hlink : ((s.set s.cocurr c).back p v).link=s.link := by
    funext j
    by_cases hjp : j=p
    · rw [hjp,Thenv.link,hcop]
      rfl
    · by_cases hjc : j=s.cocurr
      · rw [hjc,Thenv.link,hcoc]
        exact hlink
      · rw [Thenv.link,hco j hjp hjc]
        rfl
  have hpr := (List.nodup_cons.mp hnodup.2).1
  refine ⟨?_,hnodup.2,?_,?_,?_,?_,h.once,h.count,fun j hj => ⟨(h.spent j hj).1,?_⟩,
    fun j hj => h.alive j (List.mem_cons_of_mem _ hj),fun j hja hjc hjf => ?_⟩
  · rw [hlink]
    have hp := h.chain.2
    exact ⟨rfl,hp.2⟩
  · have hmain := h.main
    rw [List.getLast?_cons_cons] at hmain
    exact hmain
  · have hw := (List.isChain_cons_cons.mp h.waits).2
    refine hw.imp_of_mem_tail_imp fun a b _ hb hw => ?_
    have hbp : b≠p := fun hbp => hpr (hbp ▸ hb)
    have hbc : b≠s.cocurr := fun hbc => hnodup.1 (hbc ▸ List.mem_cons_of_mem _ hb)
    rw [waitsFor,hco b hbp hbc]
    exact hw
  · rw [show ((s.set s.cocurr c).back p v).cocurr=p from rfl,hcop]
  · rw [hlink]
    exact h.pool
  · have hjc := free_apart h hj
    rw [hco j (List.ne_of_not_mem_cons (List.not_mem_of_not_mem_cons hjc)) (List.ne_of_not_mem_cons hjc)]
    exact (h.spent j hj).2
  · have hjp : j≠p := List.ne_of_not_mem_cons hjc
    by_cases hjcur : j=s.cocurr
    · rw [hjcur,hcoc]
      by_cases hd : c.status=.dead
      · exact .inr (.inr (if_pos hd))
      · exact .inr (.inl ⟨if_neg hd,rfl⟩)
    · rw [hco j hjp hjcur]
      refine h.others j hja ?_ hjf
      rw [List.mem_cons,List.mem_cons]
      rintro (hj | hj | hj)
      · exact hjcur hj
      · exact hjp hj
      · exact hjc (List.mem_cons_of_mem _ hj)

/-- New memory. -/
theorem shape_fresh {c : Co κ ν} (h : Shape s rest free) (hk : s.alive k=false) (hst : c.status=.created) (hpl : c.place=.enter) :
    Shape {s.set k c with alive := Function.update s.alive k true} rest free := by
  have hold : ∀ j,s.alive j=true → j≠k := by
    rintro j hj rfl
    rw [hk] at hj
    cases hj
  have hc : k∉ s.cocurr::rest := fun hc => hold k (h.alive k hc) rfl
  have hf : k∉free := fun hf => hold k (h.spent k hf).1 rfl
  have hset := shape_set (c := c) h hc hf (.inl ⟨hst,hpl⟩)
  refine ⟨hset.chain,h.nodup,h.main,hset.waits,hset.runs,hset.pool,h.once,h.count,fun j hj => ⟨?_,(hset.spent j hj).2⟩,
    fun j hj => ?_,fun j hja hjc hjf => ?_⟩
  · have hj := (h.spent j hj).1
    simp only [Function.update_of_ne (hold j hj)]
    exact hj
  · have hj := h.alive j hj
    simp only [Function.update_of_ne (hold j hj)]
    exact hj
  · by_cases hjk : j=k
    · subst hjk
      exact .inl (by simpa only [set_self] using ⟨hst,hpl⟩)
    · simp only [Function.update_of_ne hjk] at hja
      simp only [set_ne s c hjk]
      exact h.others j hja hjc hjf

/-- The head of the pool is used again. -/
theorem shape_take {r : κ} {c : Co κ ν} (h : Shape s rest (r::free)) (hst : c.status=.created) (hpl : c.place=.enter) :
    Shape (Thenv.set {s with recycle := (s.co r).link, recycleCount := s.recycleCount-1} r c) rest free := by
  obtain ⟨hr,honce⟩ := List.nodup_cons.mp h.once
  have hc := free_apart h (List.mem_cons_self)
  have hcount := h.count
  rw [List.length_cons] at hcount
  have hout : Shape {s with recycle := (s.co r).link, recycleCount := s.recycleCount-1, alive := Function.update s.alive r false}
      rest free := by
    refine ⟨h.chain,h.nodup,h.main,h.waits,h.runs,h.pool.2,honce,(by simp only; omega),
      fun j hj => ⟨?_,(h.spent j (List.mem_cons_of_mem _ hj)).2⟩,fun j hj => ?_,fun j hja hjc hjf => ?_⟩
    · simp only [Function.update_of_ne (fun hjr : j=r => hr (hjr ▸ hj))]
      exact (h.spent j (List.mem_cons_of_mem _ hj)).1
    · simp only [Function.update_of_ne (fun hjr : j=r => hc (hjr ▸ hj))]
      exact h.alive j hj
    · by_cases hjr : j=r
      · subst hjr
        simp at hja
      · simp only [Function.update_of_ne hjr] at hja
        refine h.others j hja hjc fun hj => ?_
        rcases List.mem_cons.mp hj with hj | hj
        · exact hjr hj
        · exact hjf hj
  have hin := shape_fresh (c := c) (k := r) hout (by simp) hst hpl
  refine shape_congr hin (fun j => ⟨rfl,rfl,rfl⟩) rfl rfl rfl rfl ?_
  funext j
  by_cases hjr : j=r
  · subst hjr
    simpa [Thenv.set] using (h.spent j List.mem_cons_self).1
  · simp [Thenv.set,hjr]

theorem shape_create {size : ℤ} {moved : Option κ} (h : Shape s rest free) (hfit : fits s k moved) :
    ∃ free',Shape (dpacoCreate s k size moved) rest free' := by
  obtain ⟨hnew,hmoved⟩ := hfit
  -- before realloc
  have hbase : ∃ free' co c t,Shape (Thenv.set t co c) rest free' ∧ co∉ s.cocurr::rest ∧ co∉free' ∧ c.status=.created ∧
      c.place=.enter ∧ (∀ j,j≠co → (Thenv.set t co c).alive j=s.alive j) ∧ some co=s.recycle.or (some k) ∧
      (Thenv.set t co c).cocurr=s.cocurr ∧ (Thenv.set t co c).alive co=true ∧
      dpacoCreate s k size moved=match moved with
        | some j =>
            if c.size=size then Thenv.set t co c
            else {(Thenv.set t co c).set j {c with size := size} with
              alive := Function.update (Function.update (Thenv.set t co c).alive co false) j true}
        | none => Thenv.set t co c := by
    cases hr : s.recycle with
    | some r =>
      obtain ⟨free',rfl⟩ : ∃ free',free=r::free' := by
        have hp := h.pool
        rw [hr] at hp
        cases free with
        | nil => cases hp
        | cons x free' =>
          cases hp.1
          exact ⟨free',rfl⟩
      refine ⟨free',r,_,_,shape_take (c := {s.co r with status := .created, link := none, delater := false, place := .enter})
        h rfl rfl,free_apart h List.mem_cons_self,(List.nodup_cons.mp h.once).1,rfl,rfl,fun _ _ => rfl,rfl,rfl,
        (h.spent r List.mem_cons_self).1,?_⟩
      simp only [dpacoCreate,hr,Option.getD_some]
    | none =>
      have hk := hnew hr
      have hfree : free=[] := by
        have hp := h.pool
        rw [hr] at hp
        cases free with
        | nil => rfl
        | cons x free' => cases hp.1
      subst hfree
      have hf := shape_fresh (c := {size := size}) h hk rfl rfl
      have hc : k∉ s.cocurr::rest := fun hc => by
        have := h.alive k hc
        rw [hk] at this
        cases this
      refine ⟨[],k,{status := .created, size := size},_,shape_set hf hc (by simp) (.inl ⟨rfl,rfl⟩),hc,by simp,rfl,rfl,
        fun j hj => ?_,rfl,rfl,?_,?_⟩
      · simp [Thenv.set,hj]
      · simp [Thenv.set]
      · simp only [dpacoCreate,hr,Option.getD_none,set_self]
  obtain ⟨free',co,c,t,ht,hc,hf,hst,hpl,hal,hco,hcur,hlive,heq⟩ := hbase
  rw [heq]
  cases moved with
  | none => exact ⟨free',ht⟩
  | some j =>
    simp only
    split
    · exact ⟨free',ht⟩
    · by_cases hj : j=co
      · subst hj
        refine ⟨free',shape_congr (s := (Thenv.set t j c).set j {c with size := size}) (shape_set ht (by rw [hcur]; exact hc) hf
          (.inl ⟨hst,hpl⟩)) (fun _ => ⟨rfl,rfl,rfl⟩) rfl rfl rfl rfl ?_⟩
        funext i
        by_cases hi : i=j
        · subst hi
          simpa [Thenv.set] using hlive.symm
        · simp [Thenv.set,hi]
      · have hjs : (Thenv.set t co c).alive j=false := by
          rw [hal j hj]
          rcases hmoved j rfl with hm | hm
          · exact hm
          · rw [← hco] at hm
            exact (hj (Option.some.inj hm)).elim
        have hgone := shape_free ht (by rw [hcur]; exact hc) hf
        exact ⟨free',shape_fresh hgone (by simp [hj,hjs]) hst hpl⟩

theorem delater_co {j : κ} (hj : j≠k) : (dpacoDelater s k).co j=s.co j ∧ ((dpacoDelater s k).alive j=s.alive j) := by
  unfold dpacoDelater
  split
  · split
    · exact ⟨set_ne s _ hj,rfl⟩
    · exact ⟨rfl,Function.update_of_ne hj _ _⟩
  · split
    · exact ⟨set_ne s _ hj,rfl⟩
    · exact ⟨rfl,Function.update_of_ne hj _ _⟩
  · exact ⟨set_ne s _ hj,rfl⟩
  · exact ⟨set_ne s _ hj,rfl⟩

theorem delater_cocurr : (dpacoDelater s k).cocurr=s.cocurr := by
  unfold dpacoDelater
  split <;> first | rfl | (split <;> rfl)

/-- A coroutine is given back: in the pool its flag is clear, elsewhere it can still run. -/
theorem handed_delater (h : ∀ j,j≠k → s.alive j=true → (s.co j).status=.dead → (s.co j).delater=false) :
    Handed (dpacoDelater s k) := by
  intro j hja hd
  by_cases hj : j=k
  · subst hj
    unfold dpacoDelater at hja hd ⊢
    cases hst : (s.co j).status with
    | created | dead =>
      simp only [hst] at hja hd ⊢
      split
      · simp
      · rename_i hfull
        rw [if_neg hfull] at hja
        simp at hja
    | running | suspend =>
      simp only [hst,set_self] at hd
      cases hd
  · rw [(delater_co hj).1] at hd ⊢
    rw [(delater_co hj).2] at hja
    exact h j hj hja hd

def Inv (s : Thenv κ ν) : Prop := (∃ rest free,Shape s rest free) ∧ Handed s

/-- dpaco_resume of a coroutine that may run: it gets the value, at the place where it was left. -/
theorem resume_spec (h : Shape s rest free) (hh : Handed s) (ha : s.alive k=true)
    (hst : (s.co k).status=.created ∨ (s.co k).status=.suspend) (hok : orderly s (.resume k v)) :
    Inv (dpacoResume s k v) ∧ (dpacoResume s k v).cocurr=k ∧ ((dpacoResume s k v).co k).link=some s.cocurr ∧
      (dpacoResume s k v).got=some ⟨k,(s.co k).place,some v⟩ ∧ (s.co k).place.isResume=false := by
  obtain ⟨hwaits,hpool⟩ := hok
  rw [free_eq h] at hpool
  have hc : k∉ s.cocurr::rest := by
    intro hc
    rcases List.mem_cons.mp hc with rfl | hc
    · rw [h.runs] at hst
      rcases hst with hst | hst <;> cases hst
    · obtain ⟨hs,hp⟩ := waits_status h hc
      rw [hwaits hs] at hp
      cases hp
  have hf : k∉free := by
    intro hf
    rcases hst with hst | hst
    · exact hpool hst hf
    · rcases (h.spent k hf).2 with hs | hs <;> rw [hst] at hs <;> cases hs
  have hne : k≠s.cocurr := List.ne_of_not_mem_cons hc
  have hplace : (s.co k).place=.enter ∨ (s.co k).place=.yield := by
    rcases h.others k ha hc hf with ⟨-,hp⟩ | ⟨-,hp⟩ | hs
    · exact .inl hp
    · exact .inr hp
    · rcases hst with hst | hst <;> rw [hst] at hs <;> cases hs
  have hco : (s.give k v).co k={s.co k with link := some s.cocurr, msg := some v, status := .running} := by
    rw [give_co hne,if_neg hne,if_pos rfl]
  have hgo : dpacoResume s k v={s.give k v with got := some ⟨k,(s.co k).place,some v⟩} := by
    have hswitch : dpacoResume s k v=goOn (s.give k v) := by
      unfold dpacoResume
      rcases hst with hst | hst <;> rw [hst]
    rw [hswitch,goOn,show (s.give k v).cocurr=k from rfl,hco]
    have hk : (s.give k v).cocurr=k := rfl
    rcases hplace with hp | hp
    · simp only [hp,hk]
    · simp only [hp,hk]
  rw [hgo]
  refine ⟨⟨⟨_,_,shape_got (shape_give h ha hc hf) _⟩,fun j hja hd => ?_⟩,rfl,?_,rfl,?_⟩
  · change (s.alive j=true) at hja
    simp only [give_co hne] at hd ⊢
    split at hd
    · cases hd
    · rename_i hjc
      rw [if_neg hjc]
      split at hd
      · cases hd
      · rename_i hjk
        rw [if_neg hjk]
        exact hh j hja hd
  · simp only [hco]
  · rcases hplace with hp | hp <;> rw [hp] <;> rfl

/-- The current coroutine gives control back to the one that has resumed it, whose dpaco_resume returns the value. -/
theorem back_spec {c : Co κ ν} (h : Shape s rest free) (hh : Handed s) (hlink : c.link=(s.co s.cocurr).link) :
    (c.link=none ∧ rest=[] ∧ dpacoYield (s.set s.cocurr c) v={s.set s.cocurr c with got := none}) ∨
      ∃ p,c.link=some p ∧ Inv (dpacoYield (s.set s.cocurr c) v) ∧ (dpacoYield (s.set s.cocurr c) v).cocurr=p ∧
        (dpacoYield (s.set s.cocurr c) v).got=some ⟨p,.resume s.cocurr,some v⟩ := by
  have hpath := h.chain.2
  rw [show s.link s.cocurr=c.link from hlink.symm] at hpath
  cases rest with
  | nil =>
    refine .inl ⟨hpath,rfl,?_⟩
    unfold dpacoYield
    rw [set_cocurr,set_self,show c.link=none from hpath]
    rfl
  | cons p rest =>
    obtain ⟨hp,-⟩ := hpath
    refine .inr ⟨p,hp,?_⟩
    have hnodup := List.nodup_cons.mp h.nodup
    have hne : p≠s.cocurr := fun hpc => hnodup.1 (hpc ▸ List.mem_cons_self)
    have hyield : dpacoYield (s.set s.cocurr c) v=goOn ((s.set s.cocurr c).back p v) := by
      unfold dpacoYield
      rw [set_cocurr,set_self,hp]
    have hw : waitsFor s s.cocurr p := (List.isChain_cons_cons.mp h.waits).1
    have hback := shape_back (v := v) (c := c) h hlink
    have hco := back_co (s := s.set s.cocurr c) (v := v) (show p≠(s.set s.cocurr c).cocurr from hne)
    have hplace : (((s.set s.cocurr c).back p v).co p).place=.resume s.cocurr := by
      rw [hco,if_pos rfl,set_ne s c hne]
      exact hw.2
    have hmsg : (((s.set s.cocurr c).back p v).co p).msg=some v := by rw [hco,if_pos rfl]
    have hflag : ∀ j,j≠s.cocurr → ((s.set s.cocurr c).back p v).alive j=true →
        (((s.set s.cocurr c).back p v).co j).status=.dead → (((s.set s.cocurr c).back p v).co j).delater=false := by
      intro j hj hja hd
      rw [hco] at hd ⊢
      split at hd
      · cases hd
      · rename_i hjp
        rw [if_neg hjp]
        rw [set_cocurr,if_neg hj,set_ne s c hj] at hd ⊢
        exact hh j hja hd
    have hgo : dpacoYield (s.set s.cocurr c) v={(if (((s.set s.cocurr c).back p v).co s.cocurr).status=.dead ∧
        (((s.set s.cocurr c).back p v).co s.cocurr).delater=true then dpacoDelater ((s.set s.cocurr c).back p v) s.cocurr
        else (s.set s.cocurr c).back p v) with got := some ⟨p,.resume s.cocurr,some v⟩} := by
      rw [hyield,goOn,show ((s.set s.cocurr c).back p v).cocurr=p from rfl,hplace]
      simp only
      split
      · rw [delater_cocurr,show ((s.set s.cocurr c).back p v).cocurr=p from rfl,(delater_co hne).1,hmsg]
      · rw [show ((s.set s.cocurr c).back p v).cocurr=p from rfl,hmsg]
    rw [hgo]
    refine ⟨?_,?_,rfl⟩
    · split
      · rename_i hd
        have ha : s.alive s.cocurr=true := h.alive _ List.mem_cons_self
        have hf : s.cocurr∉free := fun hf => free_apart h hf List.mem_cons_self
        obtain ⟨free',hs⟩ := shape_delater (k := s.cocurr) hback ha hf
        exact ⟨⟨_,_,shape_got hs _⟩,handed_delater hflag⟩
      · rename_i hd
        refine ⟨⟨_,_,shape_got hback _⟩,fun j hja hdead => ?_⟩
        by_cases hj : j=s.cocurr
        · subst hj
          exact Bool.eq_false_iff.mpr fun hdel => hd ⟨hdead,hdel⟩
        · exact hflag j hj hja hdead
    · split
      · exact delater_cocurr
      · rfl

theorem handed_set {c : Co κ ν} (h : Handed s) (hst : c.status=.created) (a : κ → Bool)
    (ha : ∀ j,j≠k → a j=true → s.alive j=true) : Handed {s.set k c with alive := a} := by
  intro j hja hd
  by_cases hj : j=k
  · subst hj
    simp only [set_self,hst] at hd
    cases hd
  · simp only [set_ne s c hj] at hd ⊢
    exact h j (ha j hj hja) hd

theorem handed_create {size : ℤ} {moved : Option κ} (h : Handed s) : Handed (dpacoCreate s k size moved) := by
  -- before realloc
  have hbase : ∀ (t : Thenv κ ν) (c : Co κ ν) (co : κ),Handed t → c.status=.created → Handed (match moved with
      | some j =>
          if c.size=size then t.set co c
          else {(t.set co c).set j {c with size := size} with
            alive := Function.update (Function.update (t.set co c).alive co false) j true}
      | none => t.set co c) := by
    intro t c co ht hst
    have hset := handed_set (k := co) (c := c) ht hst t.alive fun _ _ => id
    split
    · split
      · exact hset
      · refine handed_set (c := {c with size := size}) hset hst _ fun i hi hia => ?_
        rw [Function.update_of_ne hi] at hia
        by_cases hic : i=co
        · subst hic
          simp at hia
        · rwa [Function.update_of_ne hic] at hia
    · exact hset
  unfold dpacoCreate
  cases s.recycle with
  | some r => exact hbase _ _ _ h rfl
  | none =>
    refine hbase _ _ _ (handed_set h rfl _ fun i hi hia => ?_) rfl
    rwa [Function.update_of_ne hi] at hia

/-- One coroutine runs, the resumers lead from it to the main coroutine, and the pool holds what is over. -/
structure Sound (s : Thenv κ ν) : Prop where
  running : ∀ k,s.alive k=true → ((s.co k).status=.running ↔ k=s.cocurr)
  chain : ∃ l,path s.link (some s.cocurr) l ∧ l.Nodup ∧ l.getLast? =some s.comain ∧ ∀ k∈ s.free,k∉l
  pool : path s.link s.recycle s.free ∧ s.free.Nodup
  spent : ∀ k∈ s.free,s.alive k=true ∧ ((s.co k).status=.created ∨ (s.co k).status=.dead)
  handed : Handed s

/-- What a step does to the control. -/
def Arrives (s s' : Thenv κ ν) : Act κ ν → Prop
  | .resume k v =>
      if (s.co k).status=.created ∨ (s.co k).status=.suspend then
        s'.cocurr=k ∧ s'.link k=some s.cocurr ∧ s'.got=some ⟨k,(s.co k).place,some v⟩ ∧ (s.co k).place.isResume=false
      else s'={s with got := none}
  | .yield v | .ret v => ∀ p,s.link s.cocurr=some p → s'.cocurr=p ∧ s'.got=some ⟨p,.resume s.cocurr,some v⟩
  | .create .. | .delater _ => s'.cocurr=s.cocurr

theorem sound (h : Shape s rest free) (hh : Handed s) : Sound s := by
  refine ⟨fun k ha => ⟨fun hr => ?_,?_⟩,⟨_,h.chain,h.nodup,h.main,fun k hk => ?_⟩,?_,fun k hk => ?_,hh⟩
  · by_contra hne
    by_cases hc : k∈rest
    · rw [(waits_status h hc).1] at hr
      cases hr
    · have hc : k∉ s.cocurr::rest := fun hk => (List.mem_cons.mp hk).elim hne hc
      by_cases hf : k∈free
      · rcases (h.spent k hf).2 with hs | hs <;> rw [hr] at hs <;> cases hs
      · rcases h.others k ha hc hf with ⟨hs,-⟩ | ⟨hs,-⟩ | hs <;> rw [hr] at hs <;> cases hs
  · rintro rfl
    exact h.runs
  · rw [free_eq h] at hk
    exact free_apart h hk
  · rw [free_eq h]
    exact ⟨h.pool,h.once⟩
  · rw [free_eq h] at hk
    exact h.spent k hk

theorem create_cocurr (s : Thenv κ ν) (k : κ) (size : ℤ) (moved : Option κ) : (dpacoCreate s k size moved).cocurr=s.cocurr := by
  unfold dpacoCreate
  cases s.recycle with
  | some r =>
    cases moved with
    | some j =>
      simp only
      split <;> rfl
    | none => rfl
  | none =>
    cases moved with
    | some j =>
      simp only
      split <;> rfl
    | none => rfl

theorem set_same (s : Thenv κ ν) (k : κ) : s.set k (s.co k)=s := by simp [Thenv.set]

theorem step_spec (a : Act κ ν) (h : Inv s) (hok : orderly s a) (hu : step s a=some s') : Inv s' ∧ Arrives s s' a := by
  obtain ⟨⟨rest,free,hs⟩,hh⟩ := h
  cases a with
  | create k size moved =>
    simp only [step] at hu
    split at hu
    · rename_i hfit
      cases hu
      obtain ⟨free',hs'⟩ := shape_create hs hfit
      exact ⟨⟨⟨rest,free',hs'⟩,handed_create hh⟩,create_cocurr ..⟩
    · cases hu
  | resume k v =>
    simp only [step] at hu
    split at hu
    · rename_i ha
      cases hu
      by_cases hst : (s.co k).status=.created ∨ (s.co k).status=.suspend
      · obtain ⟨hinv,hcur,hlink,hgot,hplace⟩ := resume_spec hs hh ha hst hok
        refine ⟨hinv,?_⟩
        rw [Arrives,if_pos hst]
        exact ⟨hcur,hlink,hgot,hplace⟩
      · have hno : dpacoResume s k v={s with got := none} := by
          unfold dpacoResume
          cases hsk : (s.co k).status with
          | created => exact (hst (.inl hsk)).elim
          | suspend => exact (hst (.inr hsk)).elim
          | running | dead => rfl
        rw [hno,Arrives,if_neg hst]
        exact ⟨⟨⟨rest,free,shape_got hs none⟩,hh⟩,rfl⟩
    · cases hu
  | yield v =>
    cases hu
    have hb := back_spec (v := v) (c := s.co s.cocurr) hs hh rfl
    rw [set_same] at hb
    rcases hb with ⟨hnone,-,heq⟩ | ⟨p,hp,hinv,hcur,hgot⟩
    · rw [heq]
      refine ⟨⟨⟨rest,free,shape_got hs none⟩,hh⟩,fun p hp => ?_⟩
      rw [Thenv.link,hnone] at hp
      cases hp
    · refine ⟨hinv,fun q hq => ?_⟩
      cases hp.symm.trans hq
      exact ⟨hcur,hgot⟩
  | ret v =>
    simp only [step] at hu
    split at hu
    · rename_i hmain
      cases hu
      rcases back_spec (v := v) (c := {s.co s.cocurr with status := .dead}) hs hh rfl with ⟨-,rfl,-⟩ | ⟨p,hp,hinv,hcur,hgot⟩
      · exact (hmain (Option.some.inj hs.main)).elim
      · refine ⟨hinv,fun q hq => ?_⟩
        cases (show (s.co s.cocurr).link=some p from hp).symm.trans hq
        exact ⟨hcur,hgot⟩
    · cases hu
  | delater k =>
    simp only [step] at hu
    split at hu
    · rename_i ha
      cases hu
      have hf : k∉free := by
        rw [← free_eq hs]
        exact hok
      obtain ⟨free',hs'⟩ := shape_delater hs ha hf
      exact ⟨⟨⟨rest,free',hs'⟩,handed_delater fun j _ => hh j⟩,delater_cocurr⟩
    · cases hu

theorem inv_start (main : κ) : Inv (thinit main : Thenv κ ν) := by
  refine ⟨⟨[],[],⟨⟨rfl,?_⟩,List.nodup_singleton _,rfl,.singleton _,?_,rfl,List.nodup_nil,rfl,fun k hk => (by cases hk),
    fun k hk => ?_,fun k ha hk => ?_⟩⟩,fun k ha hd => ?_⟩
  · simp [thinit,Thenv.link,path]
  · simp [thinit]
  · cases List.mem_singleton.mp hk
    simp [thinit]
  · simp only [thinit,decide_eq_true_eq] at ha
    exact (hk (List.mem_singleton.mpr ha)).elim
  · simp only [thinit,decide_eq_true_eq] at ha
    subst ha
    simp [thinit]

theorem dpaco_sound {main : κ} (h : Reach step orderly (thinit main) s) :
    Sound s ∧ ∀ a s',orderly s a → step s a=some s' → Arrives s s' a := by
  have hinv : Inv s := h.invariant (inv_start main) fun _ a _ hi hok hu => (step_spec a hi hok hu).1
  obtain ⟨⟨rest,free,hs⟩,hh⟩ := hinv
  exact ⟨sound hs hh,fun a s' hok hu => (step_spec a ⟨⟨rest,free,hs⟩,hh⟩ hok hu).2⟩

end Shapes

instance (s : Thenv κ ν) : (a : Act κ ν) → Decidable (orderly s a)
  | .resume _ _ => inferInstanceAs (Decidable ((_ → _) ∧ (_ → _)))
  | .delater _ => inferInstanceAs (Decidable (_∉_))
  | .create .. | .yield _ | .ret _ => .isTrue trivial

/-- A coroutine starts another one that yields, is given back while it is suspended, is resumed again and returns. -/
def nested : List (Act (Fin 4) ℕ) :=
  [.create 1 8192 none,.resume 1 10,.create 2 8192 none,.resume 2 20,.yield 30,.delater 2,.resume 2 40,.ret 50,.ret 60]

theorem dpaco_sound_nested : ∃ s : Thenv (Fin 4) ℕ,s.cocurr=0 ∧ s.free=[2] ∧ Sound s ∧
    ∀ a s',orderly s a → step s a=some s' → Arrives s s' a := by
  have hrun : ((execOk step orderly (thinit 0) nested).any fun s => decide (s.cocurr=0) && decide (s.free=[2]))=true := by
    decide +kernel
  obtain ⟨s,hs,hf⟩ := (Option.any_eq_true _ _).mp hrun
  obtain ⟨hcurr,hfree⟩ := Bool.and_eq_true_iff.mp hf
  exact ⟨s,of_decide_eq_true hcurr,of_decide_eq_true hfree,dpaco_sound (execOk_reach hs)⟩

/-- The main coroutine resumes a coroutine, which resumes the main coroutine. -/
def resumesMain : List (Act (Fin 2) ℕ) := [.create 1 8192 none,.resume 1 10,.resume 0 20]

/-- The resumer is suspended while its child runs, so it is resumed, and the chain is a circle. -/
theorem dpaco_circle : ¬∀ s : Thenv (Fin 2) ℕ,Reach step anyStep (thinit 0) s → Sound s := by
  intro hall
  have hrun : ((exec step (thinit 0) resumesMain).any fun s : Thenv (Fin 2) ℕ => decide (s.cocurr=0) &&
      decide (s.link 0=some 1) && decide (s.link 1=some 0))=true := by decide +kernel
  obtain ⟨s,hs,hf⟩ := (Option.any_eq_true _ _).mp hrun
  obtain ⟨hf,h1⟩ := Bool.and_eq_true_iff.mp hf
  obtain ⟨hcurr,h0⟩ := Bool.and_eq_true_iff.mp hf
  obtain ⟨l,hpath,hnodup,-,-⟩ := (hall s (exec_reach hs)).chain
  rw [of_decide_eq_true hcurr] at hpath
  cases l with
  | nil => cases hpath
  | cons a l =>
    cases hpath.1
    have hpath := hpath.2
    rw [of_decide_eq_true h0] at hpath
    cases l with
    | nil => cases hpath
    | cons b l =>
      cases hpath.1
      have hpath := hpath.2
      rw [of_decide_eq_true h1] at hpath
      cases l with
      | nil => cases hpath
      | cons c l =>
        cases hpath.1
        simp at hnodup

end Dpapp.Dpaco
