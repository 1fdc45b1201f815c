import Dpapp.EfdRun
import Dpapp.StreamIo

/-! # splice and tee (os/linux/dpasc_epoll.c)

`_dpgfd_splice_post` and `_dpgfd_tee_post` on an EFD that is the end of a pipe, call by call. -/

namespace Dpapp.PipeIo
open Dpapp.Machine Dpapp.Ret Dpapp.EfdWake Dpapp.EfdIo Dpapp.EfdRun
open Dpapp.StreamIo (Call)

inductive Kind | splice | tee
  deriving DecidableEq

/-- `_dpsp_tee_t` -/
structure DpspTee where
  kind : Kind
  inFd : ℤ
  len : ℤ
  deriving DecidableEq

def dpgfdSplice (inFd len : ℤ) : DpspTee := ⟨.splice,inFd,len⟩
def dpgfdTee (inFd len : ℤ) : DpspTee := ⟨.tee,inFd,len⟩

/-- `_dpgfd_splice_prep`, `_dpgfd_tee_prep` -/
def DpspTee.prep (o : DpspTee) : Dpret := if o.inFd<0 ∨ o.len≤0 then dpeInval else dpeContinue

/-- One turn of the loop of `_dpgfd_splice_post`, which is that of `_dpgfd_tee_post`. -/
def turn (want : Evts) (o : DpspTee) (total : ℤ) (c : Call) : Next DpspTee ℤ :=
  if 0<c.res then if total+c.res=o.len then .ret o ⟨total+c.res,want,∅⟩ else .call o (total+c.res)
  else if c.res=0 then .ret o ⟨if 0<total then total else dpeOk,want,∅⟩
  else .ret o ⟨if 0<total then total else -c.errno,want,{.out}⟩

/- `arrived` is all that has ever been in the input, of which `front` bytes have been removed, and `output` all that has
been appended to the output. History: `sizes` are the results of the calls that have moved or copied something. -/
structure Pipes (α : Type*) where
  arrived : List α
  front : ℕ := 0
  output : List α := []
  sizes : List ℕ := []

variable {α : Type*}

def Pipes.input (w : Pipes α) : List α := w.arrived.drop w.front

/-- What the kernel answers. -/
inductive Answer
  | moved (n : ℕ)
  | none
  | fail (errno : ℕ)

/-- splice removes what it moves; tee copies from the front, and removes nothing. -/
def kernel (w : Pipes α) (o : DpspTee) (total : ℤ) : Answer → Option (Pipes α × Call)
  | .moved n =>
      if 0<n ∧ n≤o.len-total ∧ n≤w.input.length then
        some ({w with front := if o.kind=.splice then w.front+n else w.front, output := w.output++w.input.take n,
                      sizes := w.sizes++[n]},⟨n,0⟩)
      else none
  | .none => some (w,⟨0,0⟩)
  | .fail e => if 0<e then some (w,⟨-1,e⟩) else none

def sem : Sem DpspTee ℤ Call (Pipes α) Answer (List α) where
  prep := DpspTee.prep
  want _ := {.out}
  post := ⟨fun _ => 0,turn⟩
  kernel := kernel
  env w x := {w with arrived := w.arrived++x}

/-! ### Exact transfers -/

/-- What the operation should have appended: the next bytes of the input. -/
def due (x : Ended DpspTee (Pipes α)) : List α := (x.after.arrived.drop x.before.front).take x.ret.toNat

/-- An operation that returns `n` has appended the next `n` bytes, and a splice has removed them. -/
structure Exact (x : Ended DpspTee (Pipes α)) : Prop where
  small : x.ret≤ x.op.len
  length : (due x).length=x.ret.toNat
  output : x.after.output=x.before.output++due x
  front : x.after.front=if x.op.kind=.splice then x.before.front+x.ret.toNat else x.before.front

/-- Each call of the sizes finds at the front of the input what comes next. -/
def recurs (input : List α) : ℕ → List ℕ → Prop
  | _,[] => True
  | t,n::l => (input.drop t).take n=input.take n ∧ recurs input (t+n) l

/-- The input repeats itself, as far as the calls of a tee go. -/
def periodic (x : Ended DpspTee (Pipes α)) : Prop :=
  recurs (x.after.arrived.drop x.before.front) 0 (x.after.sizes.drop x.before.sizes.length)

def Fine (x : Ended DpspTee (Pipes α)) : Prop := 0<x.ret → (Exact x ↔ (x.op.kind=.tee → periodic x))

/-- What the copies of a tee add up to. -/
theorem recurs_iff {input : List α} {l : List ℕ} (hl : ∀ n∈l,n≤ input.length) (t : ℕ) :
    recurs input t l ↔ l.flatMap (fun n => input.take n)=(input.drop t).take l.sum ∧ ((input.drop t).take l.sum).length=l.sum := by
  induction l generalizing t with
  | nil => simp [recurs]
  | cons n l ih =>
    have hn : (input.take n).length=n := List.length_take_of_le (hl n List.mem_cons_self)
    have hsplit : (input.drop t).take (n::l).sum=(input.drop t).take n++(input.drop (t+n)).take l.sum := by
      rw [List.sum_cons,List.take_add,List.drop_drop]
    rw [recurs,ih (fun m hm => hl m (List.mem_cons_of_mem n hm)),hsplit,List.flatMap_cons,List.sum_cons,List.length_append]
    constructor
    · intro h
      obtain ⟨hhead,htail,hlen⟩ := h
      rw [htail,hhead,hn,hlen]
      exact ⟨rfl,rfl⟩
    · intro h
      obtain ⟨heq,hlen⟩ := h
      have hfirst : ((input.drop t).take n).length=n := by
        have h1 := List.length_take_le n (input.drop t)
        have h2 := List.length_take_le l.sum (input.drop (t+n))
        omega
      obtain ⟨hhead,htail⟩ := List.append_inj heq (hn.trans hfirst.symm)
      exact ⟨hhead.symm,htail,by omega⟩

/-! ### The rule -/

/-- What the calls have done whose results are `l`. -/
structure Held (b : DpspTee × Pipes α) (o : DpspTee) (l : List ℕ) (w : Pipes α) : Prop where
  op : o=b.1
  prep : o.prep=dpeContinue
  sizes : w.sizes=b.2.sizes++l
  pos : ∀ n∈l,0<n
  small : l.sum≤o.len
  splice : o.kind=.splice → w.front=b.2.front+l.sum ∧ l.sum≤(w.arrived.drop b.2.front).length ∧
    w.output=b.2.output++(w.arrived.drop b.2.front).take l.sum
  tee : o.kind=.tee → w.front=b.2.front ∧ (∀ n∈l,n≤(w.arrived.drop b.2.front).length) ∧
    w.output=b.2.output++l.flatMap fun n => (w.arrived.drop b.2.front).take n

def Wait (b : DpspTee × Pipes α) (o : DpspTee) (w : Pipes α) : Prop := Held b o [] w

def Runs (b : DpspTee × Pipes α) (o : DpspTee) (total : ℤ) (w : Pipes α) : Prop := ∃ l : List ℕ,total=l.sum ∧ Held b o l w

section Rules
variable {b : DpspTee × Pipes α} {o : DpspTee} {l : List ℕ} {w : Pipes α} {n : ℕ}

theorem held_start (h : o.prep=dpeContinue) : Held (o,w) o [] w where
  op := rfl
  prep := h
  sizes := (List.append_nil _).symm
  pos _ hn := by cases hn
  small := by
    unfold DpspTee.prep at h
    split at h
    · cases h
    · rw [List.sum_nil]
      omega
  splice _ := ⟨rfl,Nat.zero_le _,by simp⟩
  tee _ := ⟨rfl,fun _ hn => (by cases hn),by simp⟩

/-- More bytes arrive. -/
theorem held_env (h : Held b o l w) (x : List α) : Held b o l {w with arrived := w.arrived++x} := by
  have hdrop : ∀ n,n≤(w.arrived.drop b.2.front).length → n≤((w.arrived++x).drop b.2.front).length ∧
      ((w.arrived++x).drop b.2.front).take n=(w.arrived.drop b.2.front).take n := by
    intro n hn
    rw [List.drop_append,List.length_append]
    exact ⟨Nat.le_add_right_of_le hn,List.take_append_of_le_length hn⟩
  refine ⟨h.op,h.prep,h.sizes,h.pos,h.small,fun hk => ?_,fun hk => ?_⟩
  · obtain ⟨hfront,hlen,hout⟩ := h.splice hk
    exact ⟨hfront,(hdrop _ hlen).1,by rw [(hdrop _ hlen).2]; exact hout⟩
  · obtain ⟨hfront,hlen,hout⟩ := h.tee hk
    refine ⟨hfront,fun n hn => (hdrop n (hlen n hn)).1,hout.trans ?_⟩
    congr 1
    exact List.flatMap_congr fun n hn => (hdrop n (hlen n hn)).2.symm

/-- A call moves or copies `n` bytes. -/
theorem held_moved (h : Held b o l w) (hpos : 0<n) (hn : (n : ℤ)≤o.len-l.sum) (hin : n≤w.input.length) :
    Held b o (l++[n]) {w with front := if o.kind=.splice then w.front+n else w.front, output := w.output++w.input.take n,
                              sizes := w.sizes++[n]} := by
  have hsum : (l++[n]).sum=l.sum+n := by simp
  refine ⟨h.op,h.prep,?_,fun m hm => ?_,?_,fun hk => ?_,fun hk => ?_⟩
  · rw [h.sizes,List.append_assoc]
  · rcases List.mem_append.mp hm with hm | hm
    · exact h.pos m hm
    · rw [List.mem_singleton.mp hm]
      exact hpos
  · rw [hsum,Nat.cast_add]
    omega
  · obtain ⟨hfront,hlen,hout⟩ := h.splice hk
    have hinput : w.input=(w.arrived.drop b.2.front).drop l.sum := by rw [Pipes.input,hfront,List.drop_drop]
    rw [hinput,List.length_drop] at hin
    rw [if_pos hk,hsum]
    have hnext : w.front+n=b.2.front+(l.sum+n) := by omega
    have hroom : l.sum+n≤(w.arrived.drop b.2.front).length := by omega
    refine ⟨hnext,hroom,?_⟩
    simp only [hinput]
    rw [hout,List.append_assoc,List.take_add]
  · obtain ⟨hfront,hlen,hout⟩ := h.tee hk
    have hinput : w.input=w.arrived.drop b.2.front := by rw [Pipes.input,hfront]
    rw [hinput] at hin
    rw [if_neg (by rw [hk]; exact Kind.noConfusion)]
    refine ⟨hfront,fun m hm => ?_,?_⟩
    · rcases List.mem_append.mp hm with hm | hm
      · exact hlen m hm
      · rw [List.mem_singleton.mp hm]
        exact hin
    · simp only [hinput,hout,List.append_assoc,List.flatMap_append,List.flatMap_cons,List.flatMap_nil,List.append_nil]

/-- An operation returns the sum of its calls. -/
theorem held_fine (h : Held b o l w) : Fine ⟨b.1,o,l.sum,b.2,w⟩ := by
  intro _
  have hop := h.op
  subst hop
  have hret : ((l.sum : ℕ) : ℤ).toNat=l.sum := Int.toNat_natCast _
  have hsizes : w.sizes.drop b.2.sizes.length=l := by rw [h.sizes,List.drop_left]
  cases hk : b.1.kind with
  | splice =>
    obtain ⟨hfront,hlen,hout⟩ := h.splice hk
    refine iff_of_true ⟨h.small,?_,?_,?_⟩ fun hx => by cases hx
    · rw [due,hret]
      exact List.length_take_of_le hlen
    · rw [due,hret]
      exact hout
    · rw [if_pos hk,hret]
      exact hfront
  | tee =>
    obtain ⟨hfront,hlen,hout⟩ := h.tee hk
    have hiff := recurs_iff hlen 0
    rw [List.drop_zero] at hiff
    constructor
    · intro hx _
      have heq := hx.output
      have hlength := hx.length
      rw [due,hret] at heq hlength
      rw [periodic,hsizes]
      exact hiff.mpr ⟨List.append_cancel_left (hout.symm.trans heq),hlength⟩
    · intro hx
      have hrec := hx rfl
      rw [periodic,hsizes] at hrec
      obtain ⟨heq,hlength⟩ := hiff.mp hrec
      refine ⟨h.small,?_,?_,?_⟩
      · rw [due,hret]
        exact hlength
      · rw [due,hret,← heq]
        exact hout
      · rw [if_neg (by rw [hk]; exact Kind.noConfusion)]
        exact hfront

theorem fine_neg {x : Ended DpspTee (Pipes α)} (h : x.ret≤0) : Fine x := fun hpos => absurd hpos (Int.not_lt.mpr h)

/-- Calls that add up to nothing are none. -/
theorem held_none (h : Held b o l w) (hsum : ¬0<(l.sum : ℤ)) : l=[] := by
  cases l with
  | nil => rfl
  | cons n l =>
    have hn := h.pos n List.mem_cons_self
    rw [List.sum_cons] at hsum
    omega

theorem sum_wait : (l.sum : ℤ)≠dpeWait := by
  intro h
  have hnonneg := Int.natCast_nonneg l.sum
  rw [h] at hnonneg
  exact absurd hnonneg (by decide)

/-- The loop ends without having moved anything by its last call. -/
theorem held_over (h : Held b o l w) {r : Dpret} (hr : r≤0) :
    if (if 0<(l.sum : ℤ) then (l.sum : ℤ) else r)=dpeWait then Held b o [] w
    else Fine ⟨b.1,o,if 0<(l.sum : ℤ) then (l.sum : ℤ) else r,b.2,w⟩ := by
  by_cases hpos : 0<(l.sum : ℤ)
  · rw [if_pos hpos,if_neg sum_wait]
    exact held_fine h
  · have hnil := held_none h hpos
    rw [if_neg hpos]
    split
    · rw [hnil] at h
      exact h
    · exact fine_neg hr

theorem rule : Rule sem (Wait (α := α)) Runs Fine where
  add _ _ h := held_start h
  refuse o w h := by
    refine fine_neg ?_
    change o.prep≤0
    change o.prep≠dpeContinue at h
    unfold DpspTee.prep at h ⊢
    split
    · decide
    · rename_i hok
      rw [if_neg hok] at h
      exact absurd rfl h
  waits _ _ _ x h := held_env h x
  runs _ _ _ _ x h := by
    obtain ⟨l,hl,h⟩ := h
    exact ⟨l,hl,held_env h x⟩
  enter _ _ _ h := ⟨[],rfl,h⟩
  turn b o total w a w' c want h hk := by
    obtain ⟨l,rfl,h⟩ := h
    cases a with
    | moved n =>
      obtain ⟨⟨hpos,hn,hin⟩,heq⟩ := Option.ite_none_right_eq_some.mp hk
      cases heq
      have hmoved := held_moved h hpos hn hin
      have hsum : (l.sum : ℤ)+n=((l++[n]).sum : ℕ) := by simp
      simp only [sem,turn]
      rw [if_pos (by omega),hsum]
      split
      · rename_i hs
        split at hs
        · cases hs
        · cases hs
          exact ⟨_,rfl,hmoved⟩
      · rename_i hs
        split at hs
        · cases hs
          simp only
          rw [if_neg sum_wait]
          exact held_fine hmoved
        · cases hs
    | none =>
      cases hk
      simp only [sem,turn]
      rw [if_neg (by decide),if_pos trivial]
      exact held_over h (Int.le_refl 0)
    | fail e =>
      obtain ⟨hpos,heq⟩ := Option.ite_none_right_eq_some.mp hk
      cases heq
      simp only [sem,turn]
      rw [if_neg (by decide),if_neg (by decide)]
      exact held_over h (show (-(e : ℤ))≤0 by omega)
  stop _ _ _ _ _ hr := fine_neg hr

end Rules

theorem pipe_exact {w : Pipes α} {s : Sys DpspTee ℤ (Pipes α)} (h : Reach (step sem) anyStep {world := w} s) :
    ∀ x∈ s.done,0<x.ret → (Exact x ↔ (x.op.kind=.tee → periodic x)) := rule.fine h

def repeating : Pipes (Fin 2) := {arrived := [0,0,1,1,0,1,0,1]}

/-- A splice and a tee of four bytes, which take two calls each. -/
def twice : List (EfdRun.Act DpspTee Answer (List (Fin 2))) :=
  [.feed {.out},.add (dpgfdSplice 3 4),.call (.moved 2),.call (.moved 2),.add (dpgfdTee 3 4),.call (.moved 2),.call (.moved 2)]

theorem pipe_exact_twice : ∃ s : Sys DpspTee ℤ (Pipes (Fin 2)),s.world.output=[0,0,1,1,0,1,0,1] ∧
    (s.done.map fun x => x.ret)=[4,4] ∧ ∀ x∈ s.done,0<x.ret → (Exact x ↔ (x.op.kind=.tee → periodic x)) := by
  have hrun : ((exec (step sem) {world := repeating} twice).any fun s : Sys DpspTee ℤ (Pipes (Fin 2)) =>
      decide (s.world.output=[0,0,1,1,0,1,0,1] ∧ (s.done.map fun x => x.ret)=[4,4]))=true := by decide +kernel
  obtain ⟨s,hs,hr⟩ := (Option.any_eq_true _ _).mp hrun
  obtain ⟨hout,hret⟩ := of_decide_eq_true hr
  exact ⟨s,hout,hret,pipe_exact (exec_reach hs)⟩

/-- The tee alone; the first four bytes of the input do not repeat themselves. -/
def copies : List (EfdRun.Act DpspTee Answer (List (Fin 2))) :=
  [.feed {.out},.add (dpgfdTee 3 4),.call (.moved 2),.call (.moved 2)]

/-- The first two bytes are copied twice. -/
theorem pipe_repeats : ¬∀ (w : Pipes (Fin 2)) (s : Sys DpspTee ℤ (Pipes (Fin 2))),
    Reach (step sem) anyStep {world := w} s → ∀ x∈ s.done,0<x.ret → Exact x := by
  intro hall
  have hrun : ((exec (step sem) {world := repeating} copies).any fun s : Sys DpspTee ℤ (Pipes (Fin 2)) =>
      s.done.any fun x => decide (0<x.ret ∧ x.after.output≠x.before.output++due x))=true := by decide +kernel
  obtain ⟨s,hs,hr⟩ := (Option.any_eq_true _ _).mp hrun
  obtain ⟨x,hx,hr⟩ := List.any_eq_true.mp hr
  obtain ⟨hpos,hne⟩ := of_decide_eq_true hr
  exact hne (hall _ s (exec_reach hs) x hx hpos).output

end Dpapp.PipeIo
