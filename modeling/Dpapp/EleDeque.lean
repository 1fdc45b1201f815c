import Dpapp.Linked
import Dpapp.Machine

/-! # The deques of elements (os/linux/dpevp_epoll.c)

The links are in the elements, so that an element is in one deque at most. -/

set_option linter.unusedSectionVars false

namespace Dpapp.EleDeque
open Dpapp.Machine Dpapp.Linked

variable {κ δ : Type*} [DecidableEq κ] [DecidableEq δ]

/-! ### The functions -/

/-- The links of the elements, and the `dpele_deque_t`s. -/
structure Mem (κ δ : Type*) where
  prev : κ → Option κ := fun _ => none
  next : κ → Option κ := fun _ => none
  head : δ → Option κ := fun _ => none
  tail : δ → Option κ := fun _ => none

def Mem.setPrev (m : Mem κ δ) (e : κ) (x : Option κ) : Mem κ δ := {m with prev := Function.update m.prev e x}
def Mem.setNext (m : Mem κ δ) (e : κ) (x : Option κ) : Mem κ δ := {m with next := Function.update m.next e x}
def Mem.setHead (m : Mem κ δ) (d : δ) (x : Option κ) : Mem κ δ := {m with head := Function.update m.head d x}
def Mem.setTail (m : Mem κ δ) (d : δ) (x : Option κ) : Mem κ δ := {m with tail := Function.update m.tail d x}

/-- What `_dpele_deque_push_back` takes for an element of a deque. -/
def linked (m : Mem κ δ) (d : δ) (e : κ) : Prop := m.prev e≠none ∨ m.next e≠none ∨ m.head d=some e

instance (m : Mem κ δ) (d : δ) (e : κ) : Decidable (linked m d e) := inferInstanceAs (Decidable (_ ∨ _ ∨ _))

/-- `_dpele_deque_push_back` -/
def dpeleDequePushBack (m : Mem κ δ) (d : δ) (e : κ) : Mem κ δ :=
  if linked m d e then m
  else
    let m := (m.setNext e none).setPrev e (m.tail d)
    let m := match m.tail d with
      | some t => m.setNext t (some e)
      | none => m.setHead d (some e)
    m.setTail d (some e)

/-- `_dpele_deque_pop_front` -/
def dpeleDequePopFront (m : Mem κ δ) (d : δ) : Mem κ δ × Option κ :=
  match m.head d with
  | some e =>
      let m := m.setHead d (m.next e)
      let m := match m.head d with
        | some x => m.setPrev x none
        | none => m.setTail d none
      ((m.setPrev e none).setNext e none,some e)
  | none => (m,none)

/-- `_dpele_deque_remove` -/
def dpeleDequeRemove (m : Mem κ δ) (d : δ) (e : κ) : Mem κ δ :=
  let m := match m.prev e with
    | some x => m.setNext x (m.next e)
    | none => m.setHead d (m.next e)
  let m := match m.next e with
    | some x => m.setPrev x (m.prev e)
    | none => m.setTail d (m.prev e)
  (m.setPrev e none).setNext e none

/-- `_dpele_deque_pushq` -/
def dpeleDequePushq (m : Mem κ δ) (dst src : δ) : Mem κ δ :=
  match m.head src with
  | none => m
  | some x =>
      let m := m.setPrev x (m.tail dst)
      let m := match m.tail dst with
        | some t => (m.setNext t (m.head src)).setTail dst (m.tail src)
        | none => (m.setHead dst (m.head src)).setTail dst (m.tail src)
      (m.setHead src none).setTail src none

/-- `_dpele_deque_move` -/
def dpeleDequeMove (m : Mem κ δ) (dst src : δ) : Mem κ δ :=
  let m := (m.setHead dst (m.head src)).setTail dst (m.tail src)
  (m.setHead src none).setTail src none

/-! ### What they are for -/

def pushBack (ls : δ → List κ) (d : δ) (e : κ) : δ → List κ :=
  if e∈ls d then ls else Function.update ls d (ls d++[e])

def popFront (ls : δ → List κ) (d : δ) : (δ → List κ) × Option κ := (Function.update ls d (ls d).tail,(ls d).head?)

def remove (ls : δ → List κ) (d : δ) (e : κ) : δ → List κ := Function.update ls d ((ls d).erase e)

/-- The elements of `src` go behind those of `dst`. -/
def transfer (ls : δ → List κ) (dst src : δ) : δ → List κ :=
  if dst=src then ls else Function.update (Function.update ls src []) dst (ls dst++ls src)

/-- `list` is what the deques should be; `firsts` is what should have been popped. -/
structure Sys (κ δ : Type*) where
  mem : Mem κ δ := {}
  list : δ → List κ := fun _ => []
  popped : List (Option κ) := []
  firsts : List (Option κ) := []

inductive Act (κ δ : Type*)
  | pushBack (d : δ) (e : κ)
  | popFront (d : δ)
  | remove (d : δ) (e : κ)
  | pushq (dst src : δ)
  | move (dst src : δ)

def step (s : Sys κ δ) : Act κ δ → Option (Sys κ δ)
  | .pushBack d e => some {s with mem := dpeleDequePushBack s.mem d e, list := pushBack s.list d e}
  | .popFront d =>
      some ⟨(dpeleDequePopFront s.mem d).1,(popFront s.list d).1,s.popped++[(dpeleDequePopFront s.mem d).2],
        s.firsts++[(popFront s.list d).2]⟩
  | .remove d e => some {s with mem := dpeleDequeRemove s.mem d e, list := remove s.list d e}
  | .pushq dst src => some {s with mem := dpeleDequePushq s.mem dst src, list := transfer s.list dst src}
  | .move dst src => some {s with mem := dpeleDequeMove s.mem dst src, list := transfer s.list dst src}

structure Right (s : Sys κ δ) : Prop where
  elements : ∀ d,path s.mem.next (s.mem.head d) (s.list d)
  backwards : ∀ d,path s.mem.prev (s.mem.tail d) (s.list d).reverse
  once : ∀ d,(s.list d).Nodup
  apart : ∀ d d' e,e∈s.list d → e∈s.list d' → d=d'
  first : ∀ d e,s.mem.head d=some e → s.mem.prev e=none
  last : ∀ d e,s.mem.tail d=some e → s.mem.next e=none
  inverse : ∀ d,∀ e∈s.list d,∀ x∈s.list d,s.mem.next e=some x ↔ s.mem.prev x=some e
  empty : ∀ d,(s.list d=[] ↔ s.mem.head d=none) ∧ (s.list d=[] ↔ s.mem.tail d=none)
  popped : s.popped=s.firsts
  guards : ∀ d,∀ e∈s.list d,linked s.mem d e
  free : ∀ d e,(∀ d',e∉s.list d') → ¬linked s.mem d e

/-- An element is used with one deque at a time. -/
def oneDeque (s : Sys κ δ) : Act κ δ → Prop
  | .pushBack d e => ∀ d',e∈s.list d' → d'=d
  | .remove d e => e∈s.list d
  | .popFront _ | .pushq .. | .move .. => True

/-- The two deques are different ones, and a deque is moved to an empty one. -/
def proper (s : Sys κ δ) (a : Act κ δ) : Prop :=
  oneDeque s a ∧
    match a with
    | .pushq dst src => dst≠src
    | .move dst src => dst≠src ∧ s.mem.head dst=none
    | .pushBack .. | .popFront _ | .remove .. => True

/-! ### Shape -/

/-- The deques are these lists. -/
structure Shape (m : Mem κ δ) (ls : δ → List κ) : Prop where
  dll : ∀ d,Dll m.prev m.next (m.head d) (m.tail d) (ls d)
  apart : ∀ d d' e,e∈ls d → e∈ls d' → d=d'

structure Holds (m : Mem κ δ) (ls : δ → List κ) : Prop extends Shape m ls where
  free : ∀ e,(∀ d,e∉ls d) → m.prev e=none ∧ m.next e=none

section Ops
variable {m : Mem κ δ} {ls : δ → List κ} {d dst src : δ} {e : κ} {l : List κ}

/-- One deque has changed, and no links of the others. -/
theorem shape_update {prev next : κ → Option κ} {head tail : δ → Option κ} (h : Shape m ls)
    (hd : Dll prev next (head d) (tail d) l) (hends : ∀ d',d'≠d → head d'=m.head d' ∧ tail d'=m.tail d')
    (hlinks : ∀ d',d'≠d → ∀ e∈ls d',prev e=m.prev e ∧ next e=m.next e) (hl : ∀ e∈l,∀ d',d'≠d → e∉ls d') :
    Shape ⟨prev,next,head,tail⟩ (Function.update ls d l) := by
  refine ⟨fun d' => ?_,fun d' d'' e he he' => ?_⟩
  · by_cases heq : d'=d
    · subst heq
      rw [Function.update_self]
      exact hd
    · simp only [Function.update_of_ne heq,(hends d' heq).1,(hends d' heq).2]
      exact (h.dll d').congr (fun e he => (hlinks d' heq e he).1) fun e he => (hlinks d' heq e he).2
  · by_cases hd' : d'=d
    · by_cases hd'' : d''=d
      · rw [hd',hd'']
      · subst hd'
        rw [Function.update_self] at he
        rw [Function.update_of_ne hd''] at he'
        exact absurd he' (hl e he d'' hd'')
    · rw [Function.update_of_ne hd'] at he
      by_cases hd'' : d''=d
      · subst hd''
        rw [Function.update_self] at he'
        exact absurd he (hl e he' d' hd')
      · rw [Function.update_of_ne hd''] at he'
        exact h.apart d' d'' e he he'

/-- The guard of push_back knows its deque's elements, and an element of none. -/
theorem linked_iff (h : Holds m ls) (hone : ∀ d',e∈ls d' → d'=d) : linked m d e ↔ e∈ls d := by
  constructor
  · intro hlinked
    by_contra hout
    obtain ⟨hp,hn⟩ := h.free e fun d' hmem => hout (hone d' hmem ▸ hmem)
    rcases hlinked with hne | hne | hhead
    · exact hne hp
    · exact hne hn
    · rw [(h.dll d).head] at hhead
      exact hout (List.mem_of_mem_head? hhead)
  · intro hmem
    by_cases hp : m.prev e=none
    · exact .inr (.inr (((h.dll d).prev_eq_none hmem).mp hp))
    · exact .inl hp

theorem update_none {f : κ → Option κ} (hf : f e=none) : Function.update f e none=f := by
  rw [← hf,Function.update_eq_self]

/-! ### push_back -/

theorem pushBack_nil (hl : ¬linked m d e) (ht : m.tail d=none) : dpeleDequePushBack m d e =
    {m with head := Function.update m.head d (some e), tail := Function.update m.tail d (some e)} := by
  have hp : m.prev e=none := by_contra fun hne => hl (.inl hne)
  have hn : m.next e=none := by_contra fun hne => hl (.inr (.inl hne))
  unfold dpeleDequePushBack
  rw [if_neg hl]
  simp only [Mem.setNext,Mem.setPrev,Mem.setHead,Mem.setTail,ht,update_none hp,update_none hn]

theorem pushBack_snoc {t : κ} (hl : ¬linked m d e) (ht : m.tail d=some t) : dpeleDequePushBack m d e =
    {m with
      prev := Function.update m.prev e (some t)
      next := Function.update m.next t (some e)
      tail := Function.update m.tail d (some e)} := by
  have hn : m.next e=none := by_contra fun hne => hl (.inr (.inl hne))
  unfold dpeleDequePushBack
  rw [if_neg hl]
  simp only [Mem.setNext,Mem.setPrev,Mem.setTail,ht,update_none hn]

/-- An element of no deque is pushed. -/
theorem holds_pushed (h : Holds m ls) (hout : ∀ d',e∉ls d') :
    Holds (dpeleDequePushBack m d e) (Function.update ls d (ls d++[e])) := by
  obtain ⟨hp,hn⟩ := h.free e hout
  have hl : ¬linked m d e := fun hlinked => hout d ((linked_iff h fun d' he => absurd he (hout d')).mp hlinked)
  have hne : ∀ d',∀ k∈ls d',k≠e := fun d' k hk => ne_of_mem_of_not_mem hk (hout d')
  have hapart : ∀ k∈ls d++[e],∀ d',d'≠d → k∉ls d' := by
    intro k hk d' hd' hk'
    rcases List.mem_append.mp hk with hk | hk
    · exact hd' (h.apart d' d k hk' hk)
    · exact hne d' k hk' (List.mem_singleton.mp hk)
  have hfree : ∀ k,(∀ d',k∉Function.update ls d (ls d++[e]) d') → k≠e ∧ ∀ d',k∉ls d' := by
    intro k hk
    have hkd := hk d
    rw [Function.update_self,List.mem_append,not_or] at hkd
    refine ⟨fun hke => hkd.2 (List.mem_singleton.mpr hke),fun d' hk' => ?_⟩
    by_cases hd' : d'=d
    · exact hkd.1 (hd' ▸ hk')
    · exact hk d' (by rwa [Function.update_of_ne hd'])
  cases ht : m.tail d with
  | none =>
    have hnil : ls d=[] := by rw [← List.getLast?_eq_none_iff,← (h.dll d).tail,ht]
    rw [pushBack_nil hl ht]
    refine ⟨shape_update h.toShape ?_ (fun d' hd' => ?_) (fun _ _ _ _ => ⟨rfl,rfl⟩) hapart,fun k hk => h.free k
      (hfree k hk).2⟩
    · rw [Function.update_self,Function.update_self,hnil]
      exact Dll.single hp hn
    · exact ⟨Function.update_of_ne hd' ..,Function.update_of_ne hd' ..⟩
  | some t =>
    have htail : t∈ls d := List.mem_of_getLast? (by rw [← (h.dll d).tail,ht])
    have hother : ∀ d',d'≠d → ∀ k∈ls d',k≠t := fun d' hd' k hk hkt => hd' (h.apart d' d k hk (hkt ▸ htail))
    rw [pushBack_snoc hl ht]
    refine ⟨shape_update h.toShape ?_ (fun d' hd' => ?_) (fun d' hd' k hk => ?_) hapart,fun k hk => ?_⟩
    · rw [Function.update_self]
      have hdll := h.dll d
      rw [ht] at hdll
      exact hdll.append (Dll.single hp hn) fun k hk hke => hne d k hk (List.mem_singleton.mp hke)
    · exact ⟨rfl,Function.update_of_ne hd' ..⟩
    · exact ⟨Function.update_of_ne (hne d' k hk) ..,Function.update_of_ne (hother d' hd' k hk) ..⟩
    · obtain ⟨hke,hk'⟩ := hfree k hk
      obtain ⟨hkp,hkn⟩ := h.free k hk'
      have hkt : k≠t := fun hkt => hk' d (hkt ▸ htail)
      exact ⟨(Function.update_of_ne hke ..).trans hkp,(Function.update_of_ne hkt ..).trans hkn⟩

theorem holds_pushBack (h : Holds m ls) (hone : ∀ d',e∈ls d' → d'=d) :
    Holds (dpeleDequePushBack m d e) (pushBack ls d e) := by
  unfold pushBack
  by_cases hmem : e∈ls d
  · rw [if_pos hmem,dpeleDequePushBack,if_pos ((linked_iff h hone).mpr hmem)]
    exact h
  · rw [if_neg hmem]
    exact holds_pushed h fun d' he => hmem (hone d' he ▸ he)

/-! ### remove and pop_front -/

/-- The links of the element itself are cleared at the end. -/
theorem remove_eq {x y : Option κ} (hp : m.prev e=x) (hn : m.next e=y) (hx : x≠some e) : dpeleDequeRemove m d e =
    ⟨Function.update (relink m.prev y x) e none,Function.update (relink m.next x y) e none,
      Function.update m.head d (x.elim y fun _ => m.head d),Function.update m.tail d (y.elim x fun _ => m.tail d)⟩ := by
  have hnext : ∀ k,x=some k → Function.update m.next k y e=y := fun k hk => by
    rw [Function.update_of_ne fun hke => hx (by rw [hk,hke]),hn]
  unfold dpeleDequeRemove
  cases x with
  | none =>
    cases y with
    | none => simp only [hp,hn,Mem.setNext,Mem.setPrev,Mem.setHead,Mem.setTail,relink,Option.elim]
    | some j =>
      simp only [hp,hn,Mem.setNext,Mem.setPrev,Mem.setHead,relink,Option.elim,Function.update_eq_self]
  | some k =>
    cases y with
    | none =>
      simp only [hp,hn,hnext k rfl,Mem.setNext,Mem.setPrev,Mem.setTail,relink,Option.elim,Function.update_eq_self]
    | some j =>
      simp only [hp,hn,hnext k rfl,Mem.setNext,Mem.setPrev,relink,Option.elim,Function.update_eq_self]

/-- pop_front removes the head. -/
theorem popFront_eq (hh : m.head d=some e) (hp : m.prev e=none) :
    dpeleDequePopFront m d=(dpeleDequeRemove m d e,some e) := by
  unfold dpeleDequePopFront dpeleDequeRemove
  simp only [hh,hp,Mem.setHead,Function.update_self]

theorem holds_remove (h : Holds m ls) (hmem : e∈ls d) : Holds (dpeleDequeRemove m d e) (remove ls d e) := by
  obtain ⟨l₁,l₂,hl⟩ := List.append_of_mem hmem
  have hdll := h.dll d
  rw [hl] at hdll
  obtain ⟨hout,-⟩ := List.nodup_cons.mp (List.nodup_middle.mp hdll.nodup)
  rw [List.mem_append,not_or] at hout
  have hprev : ∀ k,m.prev e=some k → k∈l₁ := fun k hk =>
    List.mem_reverse.mp (List.mem_of_mem_head? (by rw [← path_head hdll.before,hk]; rfl))
  have hnext : ∀ k,m.next e=some k → k∈l₂ := fun k hk =>
    List.mem_of_mem_head? (by rw [← path_head (path_rest hdll.fwd),hk]; rfl)
  have hsub : ∀ k∈l₁++l₂,k∈ls d := by
    intro k hk
    rw [hl,List.mem_append,List.mem_cons]
    exact (List.mem_append.mp hk).imp_right .inr
  have hne : ∀ k∈l₁++l₂,k≠e := fun k hk hke => (List.mem_append.mp (hke ▸ hk)).elim hout.1 hout.2
  have hapart : ∀ k∈l₁++l₂,∀ d',d'≠d → k∉ls d' := fun k hk d' hd' hk' => hd' (h.apart d' d k hk' (hsub k hk))
  have hlinks : ∀ k,k≠e → k∉l₁++l₂ → Function.update (relink m.prev (m.next e) (m.prev e)) e none k=m.prev k ∧
      Function.update (relink m.next (m.prev e) (m.next e)) e none k=m.next k := by
    intro k hke hk
    rw [List.mem_append,not_or] at hk
    rw [Function.update_of_ne hke,Function.update_of_ne hke]
    exact ⟨relink_of_ne fun hn => hk.2 (hnext k hn),relink_of_ne fun hp => hk.1 (hprev k hp)⟩
  have herase : (ls d).erase e=l₁++l₂ := by rw [hl,List.erase_append_right _ hout.1,List.erase_cons_head]
  rw [remove_eq rfl rfl fun hp => hout.1 (hprev e hp),remove,herase]
  refine ⟨shape_update h.toShape ?_ (fun d' hd' => ?_) (fun d' hd' k hk => ?_) hapart,fun k hk => ?_⟩
  · rw [Function.update_self,Function.update_self]
    exact hdll.remove.congr (fun k hk => Function.update_of_ne (hne k hk) ..) fun k hk => Function.update_of_ne (hne k hk) ..
  · exact ⟨Function.update_of_ne hd' ..,Function.update_of_ne hd' ..⟩
  · exact hlinks k (fun hke => hd' (h.apart d' d k hk (hke ▸ hmem))) fun hk' => hapart k hk' d' hd' hk
  · by_cases hke : k=e
    · subst hke
      exact ⟨Function.update_self ..,Function.update_self ..⟩
    · have hkd := hk d
      rw [Function.update_self] at hkd
      have hfree := h.free k fun d' hk' => by
        by_cases hd' : d'=d
        · rw [hd',hl,List.mem_append,List.mem_cons] at hk'
          rw [List.mem_append] at hkd
          exact hkd (hk'.imp_right fun hor => hor.resolve_left hke)
        · exact hk d' (by rwa [Function.update_of_ne hd'])
      exact ⟨(hlinks k hke hkd).1.trans hfree.1,(hlinks k hke hkd).2.trans hfree.2⟩

theorem holds_popFront (h : Holds m ls) :
    Holds (dpeleDequePopFront m d).1 (popFront ls d).1 ∧ (dpeleDequePopFront m d).2=(popFront ls d).2 := by
  have hhead := (h.dll d).head
  cases hl : ls d with
  | nil =>
    rw [hl] at hhead
    have hsame : (popFront ls d).1=ls := by
      unfold popFront
      rw [hl,List.tail_nil,← hl,Function.update_eq_self]
    simp only [dpeleDequePopFront,show m.head d=none from hhead,hsame]
    exact ⟨h,by rw [popFront,hl]; rfl⟩
  | cons e l =>
    have hmem : e∈ls d := by rw [hl]; exact List.mem_cons_self
    rw [hl] at hhead
    rw [popFront_eq hhead (((h.dll d).prev_eq_none hmem).mpr hhead)]
    refine ⟨?_,by rw [popFront,hl]; rfl⟩
    have hremove := holds_remove h hmem
    rw [remove,hl,List.erase_cons_head] at hremove
    rw [popFront,hl]
    exact hremove

/-! ### pushq and move -/

/-- The elements of `src` and `dst` are linked into one list, which is the one of `dst` now. -/
theorem holds_transfer {prev next : κ → Option κ} {x y : Option κ} (h : Holds m ls) (hne : dst≠src)
    (hd : Dll prev next x y (ls dst++ls src))
    (hlinks : ∀ k,k∉ls dst → k∉ls src → prev k=m.prev k ∧ next k=m.next k) :
    Holds ⟨prev,next,Function.update (Function.update m.head dst x) src none,
      Function.update (Function.update m.tail dst y) src none⟩ (transfer ls dst src) := by
  have hemptied : Shape ⟨m.prev,m.next,Function.update m.head src none,Function.update m.tail src none⟩
      (Function.update ls src []) := by
    refine shape_update h.toShape ?_ (fun d' hd' => ?_) (fun _ _ _ _ => ⟨rfl,rfl⟩) fun k hk => by cases hk
    · rw [Function.update_self,Function.update_self]
      exact Dll.nil
    · exact ⟨Function.update_of_ne hd' ..,Function.update_of_ne hd' ..⟩
  have hout : ∀ d',d'≠dst → ∀ k∈Function.update ls src [] d',k∉ls dst ∧ k∉ls src := by
    intro d' hd' k hk
    by_cases hs : d'=src
    · subst hs
      rw [Function.update_self] at hk
      cases hk
    · rw [Function.update_of_ne hs] at hk
      exact ⟨fun hk' => hd' (h.apart d' dst k hk hk'),fun hk' => hs (h.apart d' src k hk hk')⟩
  rw [transfer,if_neg hne]
  refine ⟨shape_update hemptied ?_ (fun d' hd' => ?_) (fun d' hd' k hk => ?_) fun k hk d' hd' hk' => ?_,fun k hk => ?_⟩
  · rw [Function.update_of_ne hne,Function.update_of_ne hne,Function.update_self,Function.update_self]
    exact hd
  · by_cases hs : d'=src
    · subst hs
      simp only [Function.update_self,and_self]
    · simp only [Function.update_of_ne hs,Function.update_of_ne hd',and_self]
  · exact hlinks k (hout d' hd' k hk).1 (hout d' hd' k hk).2
  · exact (List.mem_append.mp hk).elim (hout d' hd' k hk').1 (hout d' hd' k hk').2
  · have hkd := hk dst
    rw [Function.update_self,List.mem_append,not_or] at hkd
    have hfree := h.free k fun d' hk' => by
      by_cases hd' : d'=dst
      · exact hkd.1 (hd' ▸ hk')
      by_cases hs : d'=src
      · exact hkd.2 (hs ▸ hk')
      · exact hk d' (by rwa [Function.update_of_ne hd',Function.update_of_ne hs])
    exact ⟨(hlinks k hkd.1 hkd.2).1.trans hfree.1,(hlinks k hkd.1 hkd.2).2.trans hfree.2⟩

theorem holds_move (h : Holds m ls) (hne : dst≠src) (hempty : m.head dst=none) :
    Holds (dpeleDequeMove m dst src) (transfer ls dst src) := by
  have hnil : ls dst=[] := by rw [← List.head?_eq_none_iff,← (h.dll dst).head,hempty]
  refine holds_transfer h hne ?_ fun _ _ _ => ⟨rfl,rfl⟩
  rw [hnil]
  exact h.dll src

theorem pushq_snoc {x t : κ} (hs : m.head src=some x) (ht : m.tail dst=some t) : dpeleDequePushq m dst src =
    ⟨Function.update m.prev x (some t),Function.update m.next t (some x),Function.update m.head src none,
      Function.update (Function.update m.tail dst (m.tail src)) src none⟩ := by
  simp only [dpeleDequePushq,hs,ht,Mem.setPrev,Mem.setNext,Mem.setHead,Mem.setTail]

/-- To an empty deque it is a move. -/
theorem pushq_nil {x : κ} (hs : m.head src=some x) (ht : m.tail dst=none) (hp : m.prev x=none) :
    dpeleDequePushq m dst src=dpeleDequeMove m dst src := by
  simp only [dpeleDequePushq,dpeleDequeMove,hs,ht,Mem.setPrev,Mem.setHead,Mem.setTail,update_none hp]

theorem holds_pushq (h : Holds m ls) (hne : dst≠src) : Holds (dpeleDequePushq m dst src) (transfer ls dst src) := by
  have hsrc := h.dll src
  have hdst := h.dll dst
  cases hs : m.head src with
  | none =>
    have hnil : ls src=[] := by rw [← List.head?_eq_none_iff,← hsrc.head,hs]
    have hsame : transfer ls dst src=ls := by
      rw [transfer,if_neg hne,hnil,List.append_nil,show [] = ls src from hnil.symm,Function.update_eq_self,
        Function.update_eq_self]
    rw [dpeleDequePushq,hs,hsame]
    exact h
  | some x =>
    have hx : x∈ls src := List.mem_of_mem_head? (by rw [← hsrc.head,hs]; rfl)
    cases ht : m.tail dst with
    | none =>
      rw [pushq_nil hs ht ((hsrc.prev_eq_none hx).mpr hs)]
      refine holds_move h hne ?_
      rw [hdst.head,List.head?_eq_none_iff,← List.getLast?_eq_none_iff,← hdst.tail,ht]
    | some t =>
      have htail : t∈ls dst := List.mem_of_getLast? (by rw [← hdst.tail,ht])
      rw [hs] at hsrc
      rw [ht] at hdst
      have happend := hdst.append hsrc fun k hk hk' => hne (h.apart dst src k hk hk')
      have htransfer := holds_transfer h hne happend fun k hk hk' =>
        ⟨Function.update_of_ne (fun hkx : k=x => hk' (hkx ▸ hx)) ..,Function.update_of_ne
          (fun hkt : k=t => hk (hkt ▸ htail)) ..⟩
      rw [pushq_snoc hs ht]
      rwa [Function.update_eq_self] at htransfer

end Ops

/-! ### Runs -/

section Runs
variable {s s' : Sys κ δ} {a : Act κ δ}

structure Inv (s : Sys κ δ) : Prop extends Holds s.mem s.list where
  popped : s.popped=s.firsts

theorem inv_start : Inv ({} : Sys κ δ) :=
  ⟨⟨⟨fun _ => Dll.nil,fun _ _ e he => by cases he⟩,fun _ _ => ⟨rfl,rfl⟩⟩,rfl⟩

theorem inv_step (h : Inv s) (hok : proper s a) (hu : step s a=some s') : Inv s' := by
  obtain ⟨hone,hok⟩ := hok
  cases a with
  | pushBack d e =>
    cases hu
    exact ⟨holds_pushBack h.toHolds hone,h.popped⟩
  | popFront d =>
    cases hu
    obtain ⟨hholds,hfirst⟩ := holds_popFront (d := d) h.toHolds
    exact ⟨hholds,congrArg₂ (fun l x => l++[x]) h.popped hfirst⟩
  | remove d e =>
    cases hu
    exact ⟨holds_remove h.toHolds hone,h.popped⟩
  | pushq dst src =>
    cases hu
    exact ⟨holds_pushq h.toHolds hok,h.popped⟩
  | move dst src =>
    cases hu
    exact ⟨holds_move h.toHolds hok.1 hok.2,h.popped⟩

theorem Inv.right (h : Inv s) : Right s := by
  refine ⟨fun d => (h.dll d).fwd,fun d => (h.dll d).bwd,fun d => (h.dll d).nodup,h.apart,fun d e hd => ?_,fun d e hd => ?_,
    fun d e he x hx => (h.dll d).inverse hx he,fun d => ⟨?_,?_⟩,h.popped,fun d e he => ?_,fun d e hout => ?_⟩
  · have he : e∈s.list d := List.mem_of_mem_head? (by rw [← (h.dll d).head,hd]; rfl)
    exact ((h.dll d).prev_eq_none he).mpr hd
  · have he : e∈s.list d := List.mem_of_getLast? (by rw [← (h.dll d).tail,hd])
    exact ((h.dll d).symm.prev_eq_none (List.mem_reverse.mpr he)).mpr hd
  · rw [(h.dll d).head,List.head?_eq_none_iff]
  · rw [(h.dll d).tail,List.getLast?_eq_none_iff]
  · exact (linked_iff h.toHolds fun d' he' => h.apart d' d e he' he).mpr he
  · exact fun hl => hout d ((linked_iff h.toHolds fun d' he => absurd he (hout d')).mp hl)

end Runs

theorem deques_right {s : Sys κ δ} (h : Reach step proper {} s) : Right s := by
  have hinv : Inv s := h.invariant inv_start fun _ _ _ hi hok hu => inv_step hi hok hu
  exact hinv.right

section Decide
variable [Fintype δ]

instance (s : Sys κ δ) (a : Act κ δ) : Decidable (oneDeque s a) := by
  unfold oneDeque
  split <;> infer_instance

instance (s : Sys κ δ) (a : Act κ δ) : Decidable (proper s a) := by
  unfold proper
  refine @instDecidableAnd _ _ _ ?_
  split <;> infer_instance

end Decide

/-- The elements 1, 2, 3 and 4 meet in deque 2; the first one leaves it and comes back, and 3 is taken out. -/
def meet : List (Act ℕ (Fin 3)) :=
  [.pushBack 0 1,.pushBack 0 1,.pushBack 0 2,.move 1 0,.pushBack 0 3,.pushBack 0 4,.pushq 2 1,.popFront 2,.pushq 2 0,
    .remove 2 3,.pushBack 2 1]

theorem deques_meet : ∃ s : Sys ℕ (Fin 3),(s.list 2=[2,4,1] ∧ s.popped=[some 1]) ∧ Right s := by
  have hrun : ((execOk step proper {} meet).any fun s => decide (s.list 2=[2,4,1] ∧ s.popped=[some 1]))=true := by
    decide +kernel
  obtain ⟨s,hs,hr⟩ := (Option.any_eq_true _ _).mp hrun
  exact ⟨s,of_decide_eq_true hr,deques_right (execOk_reach hs)⟩

/-- A move to a deque that has an element. -/
def moveUpon : List (Act ℕ (Fin 2)) := [.pushBack 0 1,.pushBack 1 2,.move 0 1]

/-- The element is in no deque any more. -/
theorem move_loses : ¬∀ s : Sys ℕ (Fin 2),Reach step oneDeque {} s → Right s := by
  intro hall
  have hrun : ((execOk step oneDeque {} moveUpon).any fun s => decide (s.mem.head 0=some 2 ∧ s.list 0=[1,2]))=true := by
    decide +kernel
  obtain ⟨s,hs,hr⟩ := (Option.any_eq_true _ _).mp hrun
  obtain ⟨hhead,hlist⟩ := of_decide_eq_true hr
  have helements := (hall s (execOk_reach hs)).elements 0
  rw [hhead,hlist] at helements
  cases helements.1

end Dpapp.EleDeque
