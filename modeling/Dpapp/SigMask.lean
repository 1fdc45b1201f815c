import Dpapp.Machine
import Dpapp.Ret
import Mathlib

/-! # Signal elements (os/linux/dpsig.c)

The stored mask of each signal element, the mask of its signalfd, and the blocked set of the thread. -/

namespace Dpapp.SigMask
open Dpapp.Machine Dpapp.Ret

abbrev Mask := Finset ℤ
abbrev Errno := {e : ℕ // 0<e}

/-- The numbers that sigaddset and sigdelset take. -/
def known (signo : ℤ) : Bool := decide (0<signo ∧ signo≤64 ∧ signo≠32 ∧ signo≠33)

/-- SIGKILL and SIGSTOP: signalfd and sigprocmask leave them out. -/
def unblockable : Mask := {9,19}

structure Thread (ι : Type*) where
  mask : ι → Mask := fun _ => ∅
  fdMask : ι → Mask := fun _ => ∅
  blocked : Mask

variable {ι : Type*} [DecidableEq ι]

section Calls
variable (s : Thread ι) (i : ι)

/-- sigaddset or sigdelset on the stored mask -/
def Thread.setMask (m : Mask) : Thread ι := {s with mask := Function.update s.mask i m}

/-- signalfd on the element's descriptor -/
def Thread.signalfd : Thread ι := {s with fdMask := Function.update s.fdMask i (s.mask i\unblockable)}

/-- sigprocmask with SIG_BLOCK -/
def Thread.block : Thread ι := {s with blocked := s.blocked∪s.mask i\unblockable}

/-- sigprocmask with SIG_SETMASK -/
def Thread.setBlocked : Thread ι := {s with blocked := s.mask i\unblockable}

/-- dpsig_addno; `fd` and `pm` are the errors of signalfd and sigprocmask. -/
def dpsigAddno (signo : ℤ) (fd pm : Option Errno) : Thread ι × Dpret :=
  if known signo=false then (s,dpeInval)
  else
    let s := s.setMask i (insert signo (s.mask i))
    match fd with
    | some e => (s,-e.1)
    | none =>
        let s := s.signalfd i
        match pm with
        | some e => (s,-e.1)
        | none => (s.block i,dpeOk)

/-- dpsig_delno -/
def dpsigDelno (signo : ℤ) (fd pm : Option Errno) : Thread ι × Dpret :=
  if known signo=false then (s,dpeInval)
  else
    let s := s.setMask i ((s.mask i).erase signo)
    match fd with
    | some e => (s,-e.1)
    | none =>
        let s := s.signalfd i
        match pm with
        | some e => (s,-e.1)
        | none => (s.setBlocked i,dpeOk)

/-- dpsig_hasno -/
def dpsigHasno (signo : ℤ) : Bool := known signo && decide (signo∈ s.mask i)

end Calls

inductive Act (ι : Type*)
  | addno (i : ι) (signo : ℤ) (fd pm : Option Errno)
  | delno (i : ι) (signo : ℤ) (fd pm : Option Errno)

def call (s : Thread ι) : Act ι → Thread ι × Dpret
  | .addno i signo fd pm => dpsigAddno s i signo fd pm
  | .delno i signo fd pm => dpsigDelno s i signo fd pm

/-- The signals that are added to the elements: what calls that have returned no error have asked for. -/
def ask (added : ι → Mask) (r : Dpret) : Act ι → ι → Mask
  | .addno i signo _ _ => if r<0 then added else Function.update added i (insert signo (added i))
  | .delno i signo _ _ => if r<0 then added else Function.update added i ((added i).erase signo)

/-- The thread beside what has been asked for. -/
def next (x : Thread ι × (ι → Mask)) (a : Act ι) : Thread ι × (ι → Mask) :=
  ((call x.1 a).1,ask x.2 (call x.1 a).2 a)

def step (x : Thread ι × (ι → Mask)) (a : Act ι) : Option (Thread ι × (ι → Mask)) := some (next x a)

/-- The thread when no call has been made, with what is blocked already. -/
def start (first : Mask) : Thread ι × (ι → Mask) := ({blocked := first},fun _ => ∅)

structure Sound (first : Mask) (x : Thread ι × (ι → Mask)) : Prop where
  blocked : ∀ n,n∈x.1.blocked ↔ n∈first ∨ ∃ i,n∈x.2 i
  mask : ∀ i,x.1.mask i=x.2 i
  fd : ∀ i,x.1.fdMask i=x.1.mask i
  hasno : ∀ i n,dpsigHasno x.1 i n=true ↔ n∈x.2 i

/-- A call that returns an error has changed nothing. -/
def Kept (x : Thread ι × (ι → Mask)) (a : Act ι) : Prop := (call x.1 a).2<0 → (call x.1 a).1=x.1

/-- An addition does not fail after the mask has been changed, and is not of SIGKILL or SIGSTOP; a removal does not fail
after the mask has been changed, and leaves its own element with all that is asked for from elsewhere. -/
def fits (first : Mask) (x : Thread ι × (ι → Mask)) : Act ι → Prop
  | .addno i signo fd pm => known signo=true → if fd=none ∧ pm=none then signo∉unblockable else signo∈x.1.mask i
  | .delno i signo fd pm => known signo=true → if fd=none ∧ pm=none then
      (∀ n∈first,n∈(x.1.mask i).erase signo) ∧ ∀ j,j≠i → x.2 j⊆(x.1.mask i).erase signo
      else signo∉x.1.mask i

/-- Masks hold only what sigaddset takes and signalfd keeps. -/
structure Inv (first : Mask) (x : Thread ι × (ι → Mask)) : Prop where
  sound : Sound first x
  plain : ∀ i,∀ n∈x.1.mask i,known n=true ∧ n∉unblockable

section Steps
variable {first : Mask} {x y : Thread ι × (ι → Mask)} {s : Thread ι} {i : ι} {signo : ℤ} {fd pm : Option Errno} {a : Act ι}
  {m : Mask}

omit [DecidableEq ι] in
theorem sdiff_plain (hm : ∀ n∈m,n∉unblockable) : m\unblockable=m :=
  Finset.sdiff_eq_self_of_disjoint (Finset.disjoint_left.mpr hm)

/-- A mask that is stored again. -/
theorem setMask_same : s.setMask i (s.mask i)=s := by
  unfold Thread.setMask
  rw [Function.update_eq_self]

theorem signalfd_same (h : s.mask i\unblockable=s.fdMask i) : s.signalfd i=s := by
  unfold Thread.signalfd
  rw [h,Function.update_eq_self]

/-- The three ways of a call with a number that is taken. -/
theorem addno_eq (hknown : known signo=true) : dpsigAddno s i signo fd pm=match fd,pm with
    | some e,_ => (s.setMask i (insert signo (s.mask i)),-(e.1 : ℤ))
    | none,some e => ((s.setMask i (insert signo (s.mask i))).signalfd i,-(e.1 : ℤ))
    | none,none => (((s.setMask i (insert signo (s.mask i))).signalfd i).block i,dpeOk) := by
  unfold dpsigAddno
  rw [if_neg (by rw [hknown]; exact Bool.noConfusion)]
  cases fd <;> cases pm <;> rfl

theorem delno_eq (hknown : known signo=true) : dpsigDelno s i signo fd pm=match fd,pm with
    | some e,_ => (s.setMask i ((s.mask i).erase signo),-(e.1 : ℤ))
    | none,some e => ((s.setMask i ((s.mask i).erase signo)).signalfd i,-(e.1 : ℤ))
    | none,none => (((s.setMask i ((s.mask i).erase signo)).signalfd i).setBlocked i,dpeOk) := by
  unfold dpsigDelno
  rw [if_neg (by rw [hknown]; exact Bool.noConfusion)]
  cases fd <;> cases pm <;> rfl

theorem neg_errno (e : Errno) : -(e.1 : ℤ)<0 := by
  have he := e.2
  omega

omit [DecidableEq ι] in
theorem sound_of_plain (hblocked : ∀ n,n∈x.1.blocked ↔ n∈first ∨ ∃ i,n∈x.2 i) (hmask : ∀ i,x.1.mask i=x.2 i)
    (hfd : ∀ i,x.1.fdMask i=x.1.mask i) (hplain : ∀ i,∀ n∈x.1.mask i,known n=true ∧ n∉unblockable) : Inv first x where
  sound := ⟨hblocked,hmask,hfd,fun i n => by
    unfold dpsigHasno
    rw [Bool.and_eq_true,decide_eq_true_eq,hmask i]
    exact and_iff_right_of_imp fun hn => (hplain i n (by rw [hmask i]; exact hn)).1⟩
  plain := hplain

/-- A mask among those asked for, and the others. -/
theorem exists_update {f : ι → Mask} {n : ℤ} : (∃ j,n∈Function.update f i m j) ↔ n∈m ∨ ∃ j,j≠i ∧ n∈f j := by
  constructor
  · rintro ⟨j,hj⟩
    by_cases hji : j=i
    · subst hji
      rw [Function.update_self] at hj
      exact .inl hj
    · rw [Function.update_of_ne hji] at hj
      exact .inr ⟨j,hji,hj⟩
  · rintro (hm | ⟨j,hji,hj⟩)
    · exact ⟨i,by rw [Function.update_self]; exact hm⟩
    · exact ⟨j,by rw [Function.update_of_ne hji]; exact hj⟩

theorem forall_update {f : ι → Mask} {p : Mask → ι → Prop} (hi : p m i) (hf : ∀ j,j≠i → p (f j) j) :
    ∀ j,p (Function.update f i m j) j := by
  intro j
  by_cases hji : j=i
  · subst hji
    rw [Function.update_self]
    exact hi
  · rw [Function.update_of_ne hji]
    exact hf j hji

omit [DecidableEq ι] in
/-- A mask that has been changed without success is not what is asked for. -/
theorem not_sound (h : Sound first x) {t : Thread ι} (hm : t.mask i≠x.1.mask i) : ¬Sound first (t,x.2) := fun ht =>
  hm ((ht.mask i).trans (h.mask i).symm)

theorem inv_addno (h : Inv first x) (hplain : known signo=true ∧ signo∉unblockable) :
    Inv first (((x.1.setMask i (insert signo (x.1.mask i))).signalfd i).block i,
      Function.update x.2 i (insert signo (x.2 i))) := by
  have hset : ∀ n∈insert signo (x.1.mask i),known n=true ∧ n∉unblockable := fun n hn => by
    rcases Finset.mem_insert.mp hn with rfl | hn
    · exact hplain
    · exact h.plain i n hn
  have hdiff : insert signo (x.1.mask i)\unblockable=insert signo (x.1.mask i) := sdiff_plain fun n hn => (hset n hn).2
  refine sound_of_plain (fun n => ?_) ?_ ?_ ?_
  · simp only [Thread.block,Thread.signalfd,Thread.setMask,Function.update_self]
    rw [exists_update,hdiff,Finset.mem_union,Finset.mem_insert,Finset.mem_insert,h.sound.blocked n,h.sound.mask i]
    constructor
    · rintro ((hn | ⟨j,hj⟩) | hn)
      · exact .inl hn
      · by_cases hji : j=i
        · exact .inr (.inl (.inr (hji ▸ hj)))
        · exact .inr (.inr ⟨j,hji,hj⟩)
      · exact .inr (.inl hn)
    · rintro (hn | hn | ⟨j,-,hj⟩)
      · exact .inl (.inl hn)
      · exact .inr hn
      · exact .inl (.inr ⟨j,hj⟩)
  · intro j
    simp only [Thread.block,Thread.signalfd,Thread.setMask]
    rw [h.sound.mask i]
    by_cases hji : j=i
    · subst hji
      rw [Function.update_self,Function.update_self]
    · rw [Function.update_of_ne hji,Function.update_of_ne hji,h.sound.mask j]
  · intro j
    simp only [Thread.block,Thread.signalfd,Thread.setMask,Function.update_self]
    rw [hdiff]
    by_cases hji : j=i
    · subst hji
      rw [Function.update_self,Function.update_self]
    · rw [Function.update_of_ne hji,Function.update_of_ne hji,h.sound.fd j]
  · exact forall_update (p := fun m _ => ∀ n∈m,known n=true ∧ n∉unblockable) hset fun j _ => h.plain j

theorem inv_delno (h : Inv first x) (hfirst : ∀ n∈first,n∈(x.1.mask i).erase signo)
    (hothers : ∀ j,j≠i → x.2 j⊆(x.1.mask i).erase signo) :
    Inv first (((x.1.setMask i ((x.1.mask i).erase signo)).signalfd i).setBlocked i,
      Function.update x.2 i ((x.2 i).erase signo)) := by
  have hset : ∀ n∈(x.1.mask i).erase signo,known n=true ∧ n∉unblockable := fun n hn =>
    h.plain i n (Finset.mem_of_mem_erase hn)
  have hdiff : (x.1.mask i).erase signo\unblockable=(x.1.mask i).erase signo := sdiff_plain fun n hn => (hset n hn).2
  refine sound_of_plain (fun n => ?_) ?_ ?_ ?_
  · simp only [Thread.setBlocked,Thread.signalfd,Thread.setMask,Function.update_self]
    rw [exists_update,hdiff,← h.sound.mask i]
    constructor
    · exact fun hn => .inr (.inl hn)
    · rintro (hn | hn | ⟨j,hji,hj⟩)
      · exact hfirst n hn
      · exact hn
      · exact hothers j hji hj
  · intro j
    simp only [Thread.setBlocked,Thread.signalfd,Thread.setMask]
    rw [h.sound.mask i]
    by_cases hji : j=i
    · subst hji
      rw [Function.update_self,Function.update_self]
    · rw [Function.update_of_ne hji,Function.update_of_ne hji,h.sound.mask j]
  · intro j
    simp only [Thread.setBlocked,Thread.signalfd,Thread.setMask,Function.update_self]
    rw [hdiff]
    by_cases hji : j=i
    · subst hji
      rw [Function.update_self,Function.update_self]
    · rw [Function.update_of_ne hji,Function.update_of_ne hji,h.sound.fd j]
  · exact forall_update (p := fun m _ => ∀ n∈m,known n=true ∧ n∉unblockable) hset fun j _ => h.plain j

/-- A call whose result leaves the thread as it was. -/
theorem unchanged (h : Inv first x) {r : Dpret} (hcall : call x.1 a=(x.1,r)) (hr : r<0) :
    Inv first (next x a) ∧ Kept x a := by
  have hask : ask x.2 r a=x.2 := by
    cases a <;> exact if_pos hr
  unfold next Kept
  rw [hcall]
  simp only [hask]
  exact ⟨h,fun _ => trivial⟩

/-- A call that fails after it has changed the stored mask. -/
theorem changed (h : Inv first x) {r : Dpret} {t : Thread ι} (hcall : call x.1 a=(t,r)) (hr : r<0)
    (hm : t.mask i≠x.1.mask i) : ¬Sound first (next x a) := by
  have hask : ask x.2 r a=x.2 := by
    cases a <;> exact if_pos hr
  unfold next
  rw [hcall]
  simp only [hask]
  exact not_sound h.sound hm

/-- The failures of a call, by the mask that it has stored. -/
theorem failed_iff (h : Inv first x) (hcall : call x.1 a=match fd,pm with
      | some e,_ => (x.1.setMask i m,-(e.1 : ℤ))
      | none,some e => ((x.1.setMask i m).signalfd i,-(e.1 : ℤ))
      | none,none => (s,dpeOk)) (hfail : ¬(fd=none ∧ pm=none)) :
    (Inv first (next x a) ∧ Kept x a ↔ m=x.1.mask i) ∧ (Sound first (next x a) → m=x.1.mask i) := by
  have hkeep (hm : m=x.1.mask i) : x.1.setMask i m=x.1 ∧ (x.1.setMask i m).signalfd i=x.1 := by
    have hset : x.1.setMask i m=x.1 := by
      rw [hm]
      exact setMask_same
    refine ⟨hset,?_⟩
    rw [hset]
    refine signalfd_same ?_
    rw [h.sound.fd i]
    exact sdiff_plain fun n hn => (h.plain i n hn).2
  have hboth : ∃ t r,call x.1 a=(t,r) ∧ r<0 ∧ t.mask i=m ∧ (m=x.1.mask i → t=x.1) := by
    cases fd with
    | some e => exact ⟨_,_,hcall,neg_errno e,Function.update_self ..,fun hm => (hkeep hm).1⟩
    | none =>
      cases pm with
      | some e => exact ⟨_,_,hcall,neg_errno e,Function.update_self ..,fun hm => (hkeep hm).2⟩
      | none => exact absurd ⟨rfl,rfl⟩ hfail
  obtain ⟨t,r,hrun,hr,hmask,hsame⟩ := hboth
  have hsound (hs : Sound first (next x a)) : m=x.1.mask i := by
    by_contra hm
    exact changed h hrun hr (by rw [hmask]; exact hm) hs
  refine ⟨⟨fun hx => hsound hx.1.sound,fun hm => ?_⟩,hsound⟩
  rw [hsame hm] at hrun
  exact unchanged h hrun hr

theorem next_of_ok (hcall : call x.1 a=(s,dpeOk)) : next x a=(s,ask x.2 dpeOk a) ∧ Kept x a := by
  unfold next Kept
  rw [hcall]
  exact ⟨rfl,fun hneg => absurd hneg (show ¬dpeOk<0 by decide)⟩

theorem ask_addno {f : ι → Mask} :
    ask f dpeOk (.addno i signo fd pm)=Function.update f i (insert signo (f i)) := by
  simp only [ask]
  rw [if_neg (show ¬dpeOk<0 by decide)]

theorem ask_delno {f : ι → Mask} : ask f dpeOk (.delno i signo fd pm)=Function.update f i ((f i).erase signo) := by
  simp only [ask]
  rw [if_neg (show ¬dpeOk<0 by decide)]

/-- One call keeps what holds, and changes nothing when it fails, just where it fits; and then masks stay plain. -/
theorem next_iff (h : Inv first x) (a : Act ι) :
    (fits first x a → Inv first (next x a) ∧ Kept x a) ∧ (Sound first (next x a) → fits first x a) := by
  cases a with
  | addno i signo fd pm =>
    cases hknown : known signo with
    | false =>
      have hcall : call x.1 (.addno i signo fd pm)=(x.1,dpeInval) := if_pos hknown
      refine ⟨fun _ => unchanged h hcall (by decide),fun _ hk => ?_⟩
      rw [hknown] at hk
      cases hk
    | true =>
      have hcall := @addno_eq ι _ x.1 i signo fd pm hknown
      by_cases hok : fd=none ∧ pm=none
      · obtain ⟨rfl,rfl⟩ := hok
        obtain ⟨hnext,hkept⟩ := @next_of_ok ι _ x _ (.addno i signo none none) hcall
        rw [ask_addno] at hnext
        constructor
        · intro hfits
          have hplain : signo∉unblockable := by
            have := hfits hknown
            rwa [if_pos ⟨rfl,rfl⟩] at this
          rw [hnext]
          exact ⟨inv_addno h ⟨hknown,hplain⟩,hkept⟩
        · intro hs _
          rw [if_pos ⟨rfl,rfl⟩]
          intro hbad
          have hfd := hs.fd i
          rw [hnext] at hfd
          simp only [Thread.block,Thread.signalfd,Thread.setMask,Function.update_self] at hfd
          have hin : signo∈insert signo (x.1.mask i)\unblockable := by
            rw [hfd]
            exact Finset.mem_insert_self _ _
          exact (Finset.mem_sdiff.mp hin).2 hbad
      · obtain ⟨hiff,hs⟩ := @failed_iff ι _ first x _ i fd pm (.addno i signo fd pm) (insert signo (x.1.mask i)) h hcall hok
        have hsame : insert signo (x.1.mask i)=x.1.mask i ↔ signo∈x.1.mask i := Finset.insert_eq_self
        refine ⟨fun hfits => hiff.mpr (hsame.mpr ?_),fun hsound _ => ?_⟩
        · have := hfits hknown
          rwa [if_neg hok] at this
        · rw [if_neg hok]
          exact hsame.mp (hs hsound)
  | delno i signo fd pm =>
    cases hknown : known signo with
    | false =>
      have hcall : call x.1 (.delno i signo fd pm)=(x.1,dpeInval) := if_pos hknown
      refine ⟨fun _ => unchanged h hcall (by decide),fun _ hk => ?_⟩
      rw [hknown] at hk
      cases hk
    | true =>
      have hcall := @delno_eq ι _ x.1 i signo fd pm hknown
      by_cases hok : fd=none ∧ pm=none
      · obtain ⟨rfl,rfl⟩ := hok
        obtain ⟨hnext,hkept⟩ := @next_of_ok ι _ x _ (.delno i signo none none) hcall
        rw [ask_delno] at hnext
        constructor
        · intro hfits
          have hall := hfits hknown
          rw [if_pos ⟨rfl,rfl⟩] at hall
          rw [hnext]
          exact ⟨inv_delno h hall.1 hall.2,hkept⟩
        · intro hs _
          rw [if_pos ⟨rfl,rfl⟩]
          have hblocked (n : ℤ) (hn : n∈first ∨ ∃ j,j≠i ∧ n∈x.2 j) : n∈(x.1.mask i).erase signo := by
            have hmem : n∈(next x (.delno i signo none none)).1.blocked := by
              rw [hs.blocked n,hnext]
              exact hn.imp id fun hn => exists_update.mpr (.inr hn)
            rw [hnext] at hmem
            simp only [Thread.setBlocked,Thread.signalfd,Thread.setMask,Function.update_self] at hmem
            exact (Finset.mem_sdiff.mp hmem).1
          exact ⟨fun n hn => hblocked n (.inl hn),fun j hji n hn => hblocked n (.inr ⟨j,hji,hn⟩)⟩
      · obtain ⟨hiff,hs⟩ := @failed_iff ι _ first x _ i fd pm (.delno i signo fd pm) ((x.1.mask i).erase signo) h hcall hok
        have hsame : (x.1.mask i).erase signo=x.1.mask i ↔ signo∉x.1.mask i := Finset.erase_eq_self
        refine ⟨fun hfits => hiff.mpr (hsame.mpr ?_),fun hsound _ => ?_⟩
        · have := hfits hknown
          rwa [if_neg hok] at this
        · rw [if_neg hok]
          exact hsame.mp (hs hsound)

omit [DecidableEq ι] in
theorem inv_start (first : Mask) : Inv first (start first : Thread ι × (ι → Mask)) :=
  sound_of_plain (fun n => ⟨.inl,fun hn => hn.elim id fun ⟨_,hj⟩ => absurd hj (Finset.notMem_empty n)⟩) (fun _ => rfl) (fun _ => rfl)
    fun _ n hn => absurd hn (Finset.notMem_empty n)

theorem masks_sound (first : Mask) (x : Thread ι × (ι → Mask)) (h : Reach step (fits first) (start first) x) :
    Sound first x ∧ ∀ a,Sound first (next x a) ∧ Kept x a ↔ fits first x a := by
  have hinv : Inv first x := h.invariant (inv_start first) fun x b y hx hok hu => by
    obtain rfl := Option.some.inj hu
    exact ((next_iff hx b).1 hok).1
  refine ⟨hinv.sound,fun a => ⟨fun hs => (next_iff hinv a).2 hs.1,fun hf => ?_⟩⟩
  obtain ⟨hnext,hkept⟩ := (next_iff hinv a).1 hf
  exact ⟨hnext.sound,hkept⟩

end Steps

/-- SIGPIPE, which dpapp_init blocks, and an element with SIGUSR1 and SIGUSR2. -/
theorem masks_sound_added : Sound {13} (next (next (start {13}) (.addno () 10 none none)) (.addno () 12 none none)) := by
  have hfirst : Reach step (fits {13}) (start {13}) (next (start {13}) (.addno () 10 none none)) :=
    .tail .refl (fun _ => by decide) rfl
  exact (masks_sound {13} _ (.tail hfirst (fun _ => by decide) rfl)).1

/-- The removal of a signal that was never added lets SIGPIPE through. -/
theorem masks_unblock : ¬∀ (first : Mask) (x : Thread Unit × (Unit → Mask)),Reach step anyStep (start first) x →
    Sound first x := by
  intro hall
  have hs := hall {13} (next (start {13}) (.delno () 10 none none)) (.tail .refl trivial rfl)
  have hin := (hs.blocked 13).mpr (.inl (by decide))
  exact absurd hin (by decide)

end Dpapp.SigMask
