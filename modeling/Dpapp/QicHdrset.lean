import Dpapp.DpbufSpec
import Dpapp.Keyed
import Dpapp.Machine
import Dpapp.Ret

/-! # HTTP header sets (dpqic.c)

A header names its buffer, which may move. The lsxpack accessors give back what
was set: lengths and offsets are numbers here. -/

namespace Dpapp.QicHdrset
open Dpapp.Machine Dpapp.Segment Dpapp.Ret
open Dpapp.Dpbuf (Byte wrap intMax)

def dpeNomem : Dpret := -12

/-! ### Memory -/

abbrev Heap := ℕ → Option (List Byte)

/-- A block from realloc: in the old place, or in another; and what lies behind the old bytes. -/
structure Block where
  addr : Option ℕ
  fill : ℕ → Byte

/-- none is NULL. -/
abbrev Mem := Option Block

def resized (old : List Byte) (n : ℕ) (f : ℕ → Byte) : List Byte := old.take n++(List.range (n-old.length)).map f

/-- none where the block is not there any more; inner none is NULL. -/
def realloc (heap : Heap) (p : Option ℕ) (n : ℕ) (mem : Mem) : Option (Heap × Option ℕ) :=
  match mem with
  | none => some (heap,none)
  | some k =>
      match p with
      | none =>
          match k.addr with
          | none => some (heap,none)
          | some q => some (Function.update heap q (some (resized [] n k.fill)),some q)
      | some p => (heap p).map fun old =>
          let q := k.addr.getD p
          (Function.update (Function.update heap p none) q (some (resized old n k.fill)),some q)

/-- An int for a size: a negative one asks for more than there is. -/
def reallocInt (heap : Heap) (p : Option ℕ) (n : ℤ) (mem : Mem) : Option (Heap × Option ℕ) :=
  realloc heap p n.toNat (if n<0 then none else mem)

def store (heap : Heap) (p pos : ℕ) (x : List Byte) : Option Heap :=
  (heap p).bind fun b => if pos+x.length≤b.length then some (Function.update heap p (some (put b pos x))) else none

/-- The string a pointer leads to. -/
def cstr (p : List Byte) : Option (List Byte) := if 0∈p then some (p.takeWhile (·≠0)) else none

/-! ### Headers -/

/-- lsxpack_header -/
structure Header where
  buf : Option ℕ := none
  nameOffset : ℕ := 0
  nameLen : ℕ := 0
  valOffset : ℕ := 0
  valLen : ℕ := 0
  deriving DecidableEq

/-- What calloc and memset leave. -/
def Header.zero : Header := {}

def Header.string (h : Header) (heap : Heap) (off : ℕ) : Option (List Byte) :=
  h.buf.bind fun p => (heap p).bind fun b => cstr (b.drop off)

def getName (heap : Heap) (h : Header) : Option (List Byte) := h.string heap h.nameOffset
def getValue (heap : Heap) (h : Header) : Option (List Byte) := h.string heap h.valOffset

/-- dpqic_hdrset_t, and the memory its buffers are in. -/
structure Hdrset where
  heap : Heap := fun _ => none
  headers : List Header
  count : ℕ := 0

def fold (c : Byte) : Byte := if 65≤c ∧ c≤90 then c+32 else c

/-- strcasecmp finds no difference. -/
def strcasecmp (a b : List Byte) : Bool := decide (a.map fold=b.map fold)

/-- The loop over the headers in use: where the name is. -/
def search (heap : Heap) (name : List Byte) : List Header → Option (Option ℕ)
  | [] => some none
  | h::hs => (getName heap h).bind fun n =>
      if strcasecmp n name then some (some 0) else (search heap name hs).map fun o => o.map (·+1)

def hdrsetNew (preSize : ℤ) : Hdrset := {headers := List.replicate (if preSize≤0 then 2 else preSize.toNat) .zero}

def hdrsetGet (s : Hdrset) (name : Option (List Byte)) : Option (Option (List Byte)) :=
  match name with
  | none => some none
  | some n =>
      if n=[] then some none
      else (search s.heap n (s.headers.take s.count)).bind fun o =>
        match o with
        | none => some none
        | some i => (s.headers[i]?).bind fun h => (getValue s.heap h).map some

/-- The array with room for one more header, or NULL; where the new count wraps, realloc fails. -/
def grown (s : Hdrset) (more : Bool) : Option Hdrset :=
  if s.headers.length≤ s.count then
    if more=true ∧ (s.headers.length : ℤ)+2≤ intMax then some {s with headers := s.headers++[Header.zero,Header.zero]} else none
  else some s

/-- dpqic_hdrset_add: the header behind the ones in use. -/
def hdrsetAdd (s : Hdrset) (nlen vlen : ℤ) (more : Bool) (mem : Mem) : Option (Hdrset × Bool) :=
  match grown s more with
  | none => some (s,false)
  | some s => (s.headers[s.count]?).bind fun h =>
      (reallocInt s.heap h.buf (wrap (nlen+vlen+2)) mem).map fun (heap,p) =>
        match p with
        | none => ({s with heap := heap},false)
        | some p => ({s with
            heap := Function.update heap p (some (List.replicate (wrap (nlen+vlen+2)).toNat 0))
            headers := s.headers.set s.count ⟨some p,0,nlen.toNat,(nlen+1).toNat,vlen.toNat⟩},true)

/-- dpqic_hdrset_set of a header that is there, with a value. -/
def resetValue (s : Hdrset) (i : ℕ) (h : Header) (value : List Byte) (mem : Mem) : Option (Hdrset × Dpret) :=
  let vlen := value.length
  let nlen := h.nameLen
  (reallocInt s.heap h.buf (wrap ((vlen : ℤ)+nlen+2)) mem).bind fun (heap,p) =>
    match p with
    | none => some ({s with heap := heap},dpeNomem)
    | some p => (store heap p (nlen+1) value).bind fun heap => (store heap p nlen [0]).bind fun heap =>
        (store heap p (nlen+1+vlen) [0]).map fun heap =>
          ({s with heap := heap, headers := s.headers.set i ⟨some p,0,nlen,nlen+1,vlen⟩},dpeOk)

/-- And without one: the last header comes in its place. -/
def removeHeader (s : Hdrset) (i : ℕ) (h : Header) : Option (Hdrset × Dpret) :=
  if (i : ℤ)<s.count-1 then
    (s.headers[s.count-1]?).map fun last =>
      ({s with headers := (s.headers.set i last).set (s.count-1) h, count := s.count-1},dpeOk)
  else some ({s with count := s.count-1},dpeOk)

def insertHeader (s : Hdrset) (name value : List Byte) (more : Bool) (mem : Mem) : Option (Hdrset × Dpret) :=
  (hdrsetAdd s name.length value.length more mem).bind fun (s,ok) =>
    if ok then
      (s.headers[s.count]?).bind fun h => h.buf.bind fun p =>
        (store s.heap p h.nameOffset name).bind fun heap => (store heap p h.valOffset value).map fun heap =>
          ({s with heap := heap, count := s.count+1},dpeOk)
    else some (s,dpeNomem)

def hdrsetSet (s : Hdrset) (name value : Option (List Byte)) (more : Bool) (mem : Mem) : Option (Hdrset × Dpret) :=
  match name with
  | none => some (s,dpeInval)
  | some n =>
      if n=[] then some (s,dpeInval)
      else (search s.heap n (s.headers.take s.count)).bind fun o =>
        match o with
        | some i => (s.headers[i]?).bind fun h =>
            match value with
            | some v => resetValue s i h v mem
            | none => removeHeader s i h
        | none =>
            match value with
            | none => some (s,dpeOk)
            | some v => insertHeader s n v more mem

def hdrsetCount (s : Hdrset) : ℕ := s.count

/-- dpqic_hdrset_at: the name and the value. -/
def hdrsetAt (s : Hdrset) (index : ℤ) : Option (Option (List Byte × List Byte)) :=
  if index<0 ∨ s.count≤ index then some none
  else (s.headers[index.toNat]?).bind fun h =>
    (getName s.heap h).bind fun n => (getValue s.heap h).map fun v => some (n,v)

/-! ### Blocks -/

section Blocks
variable {heap heap' : Heap} {p : Option ℕ} {n : ℕ} {mem : Mem}

theorem length_resized (old : List Byte) (n : ℕ) (f : ℕ → Byte) : (resized old n f).length=n := by
  simp only [resized,List.length_append,List.length_take,List.length_map,List.length_range]
  omega

theorem take_resized {old : List Byte} {k : ℕ} (f : ℕ → Byte) (h1 : k≤n) (h2 : k≤old.length) :
    (resized old n f).take k=old.take k := by
  rw [resized,List.take_append_of_le_length (by rw [List.length_take]; omega),List.take_take]
  congr 1
  omega

/-- What realloc leaves: the old block as it was, or one that begins with its bytes, and the others as they were. -/
theorem realloc_spec (hp : ∀ a∈p,heap a≠none) (hf : ∀ k∈mem,∀ q∈k.addr,heap q=none) :
    realloc heap p n mem=some (heap,none) ∧ (∀ k∈mem,k.addr=none) ∨ ∃ heap' q b,realloc heap p n mem=some (heap',some q) ∧ heap' q=some b ∧
      b.length=n ∧ (∀ a∈p,∀ old∈heap a,∀ k≤n,k≤old.length → b.take k=old.take k) ∧ (q∈p ∨ heap q=none) ∧
      ∀ r,r≠q → r∉p → heap' r=heap r := by
  cases mem with
  | none => exact .inl ⟨rfl,fun k hk => by cases hk⟩
  | some k =>
    cases p with
    | none =>
      cases hk : k.addr with
      | none => exact .inl ⟨by simp only [realloc,hk],fun k' hk' => by cases hk'; exact hk⟩
      | some q =>
        refine .inr ⟨_,q,_,by simp only [realloc,hk]; rfl,Function.update_self ..,length_resized ..,?_,.inr (hf k rfl q hk),?_⟩
        · intro a ha
          cases ha
        · intro r hr _
          exact Function.update_of_ne hr ..
    | some a =>
      obtain ⟨old,hold⟩ := Option.ne_none_iff_exists'.mp (hp a rfl)
      refine .inr ⟨_,k.addr.getD a,_,by simp only [realloc,hold]; rfl,Function.update_self ..,length_resized ..,?_,?_,?_⟩
      · intro a' ha' old' hold' j hj1 hj2
        cases ha'
        rw [hold] at hold'
        cases hold'
        exact take_resized _ hj1 hj2
      · cases hk : k.addr with
        | none => exact .inl rfl
        | some q => exact .inr (hf k rfl q hk)
      · intro r hr hra
        rw [Function.update_of_ne hr,Function.update_of_ne]
        rintro rfl
        exact hra rfl

theorem reallocInt_spec {z : ℤ} (hp : ∀ a∈p,heap a≠none) (hf : ∀ k∈mem,∀ q∈k.addr,heap q=none) (hz : z=n) :
    reallocInt heap p z mem=some (heap,none) ∧ (∀ k∈mem,k.addr=none) ∨ ∃ heap' q b,reallocInt heap p z mem=some (heap',some q) ∧ heap' q=some b ∧
      b.length=n ∧ (∀ a∈p,∀ old∈heap a,∀ k≤n,k≤old.length → b.take k=old.take k) ∧ (q∈p ∨ heap q=none) ∧
      ∀ r,r≠q → r∉p → heap' r=heap r := by
  subst hz
  rw [reallocInt,Int.toNat_natCast,if_neg (by omega)]
  exact realloc_spec hp hf

theorem store_some {a pos : ℕ} {b x : List Byte} (ha : heap a=some b) (h : pos+x.length≤b.length) :
    store heap a pos x=some (Function.update heap a (some (put b pos x))) := by
  rw [store,ha,Option.bind_some,if_pos h]

theorem cstr_zero {x y : List Byte} (hx : 0∉x) : cstr (x++0::y)=some x := by
  have hall : ∀ c∈x,decide (c≠0)=true := by
    intro c hc
    rw [decide_eq_true_eq]
    rintro rfl
    exact hx hc
  rw [cstr,if_pos (by simp),List.takeWhile_append_of_pos hall]
  simp

end Blocks

/-! ### Slots -/

/-- Each header has a buffer of its own, if it has one. -/
structure Owned (heap : Heap) (headers : List Header) : Prop where
  nodup : (headers.filterMap (·.buf)).Nodup
  live : ∀ p∈headers.filterMap (·.buf),heap p≠none

/-- The headers in use, and those that wait behind them. -/
structure Shape (s : Hdrset) (use rest : List Header) : Prop where
  headers : s.headers=use++rest
  count : s.count=use.length
  owned : Owned s.heap s.headers
  int : s.headers.length≤ intMax

section Slots
variable {heap heap' : Heap} {A B : List Header} {h h' : Header} {q : ℕ}

theorem mem_bufs {l : List Header} {x : Header} {p : ℕ} (hx : x∈l) (hp : x.buf=some p) : p∈l.filterMap (·.buf) :=
  List.mem_filterMap.mpr ⟨x,hx,hp⟩

/-- One header's buffer moves, or it gets its first one. -/
theorem owned_replace (h' : Header) (heap' : Heap) (ho : Owned heap (A++h::B)) (hq : h'.buf=some q) (hnew : heap' q≠none)
    (hfrom : h.buf=some q ∨ heap q=none) (hsame : ∀ r,r≠q → h.buf≠some r → heap' r=heap r) :
    Owned heap' (A++h'::B) ∧ ∀ x∈A++B,∀ p∈x.buf,heap' p=heap p := by
  have hfilter (x : Header) : (A++x::B).filterMap (·.buf)=A.filterMap (·.buf)++(x.buf.toList++B.filterMap (·.buf)) := by
    rw [List.filterMap_append,List.filterMap_cons]
    cases x.buf <;> rfl
  have hlive (p : ℕ) (hp : p∈(A++B).filterMap (·.buf)) : heap p≠none := by
    apply ho.live
    rw [List.filterMap_append,List.mem_append] at hp
    rw [hfilter,List.mem_append,List.mem_append]
    exact hp.imp_right .inr
  have hnodup : ((A++B).filterMap (·.buf)).Nodup := by
    have := ho.nodup
    rw [hfilter] at this
    rw [List.filterMap_append]
    exact (List.Sublist.append_left (List.sublist_append_right ..) _).nodup this
  have hown (p : ℕ) (hp : p∈(A++B).filterMap (·.buf)) : h.buf≠some p := by
    intro hb
    have hd := ho.nodup
    rw [hfilter,hb,Option.toList_some,List.singleton_append,List.nodup_middle,List.nodup_cons,←List.filterMap_append] at hd
    exact hd.1 hp
  have hqn : q∉(A++B).filterMap (·.buf) := by
    intro hp
    obtain hb | hn := hfrom
    · exact hown q hp hb
    · exact hlive q hp hn
  have hkeep (p : ℕ) (hp : p∈(A++B).filterMap (·.buf)) : heap' p=heap p := by
    apply hsame p _ (hown p hp)
    rintro rfl
    exact hqn hp
  refine ⟨⟨?_,?_⟩,fun x hx p hp => hkeep p (mem_bufs hx hp)⟩
  · rw [hfilter,hq,Option.toList_some,List.singleton_append,List.nodup_middle,←List.filterMap_append]
    exact List.nodup_cons.mpr ⟨hqn,hnodup⟩
  · intro p hp
    rw [hfilter,hq,Option.toList_some,List.singleton_append,List.perm_middle.mem_iff,List.mem_cons,←List.filterMap_append] at hp
    obtain rfl | hp := hp
    · exact hnew
    · rw [hkeep p hp]
      exact hlive p hp

theorem owned_perm {hs hs' : List Header} (ho : Owned heap hs) (hp : hs.Perm hs') : Owned heap hs' := by
  have hb := hp.filterMap (·.buf)
  exact ⟨hb.nodup_iff.mp ho.nodup,fun p hp => ho.live p (hb.mem_iff.mpr hp)⟩

theorem owned_update {hs : List Header} {x : List Byte} (ho : Owned heap hs) : Owned (Function.update heap q (some x)) hs := by
  refine ⟨ho.nodup,fun p hp => ?_⟩
  by_cases hpq : p=q
  · subst hpq
    rw [Function.update_self]
    exact Option.some_ne_none _
  · rw [Function.update_of_ne hpq]
    exact ho.live p hp

theorem owned_ne {x : Header} {p : ℕ} (ho : Owned heap (A++h::B)) (hx : x∈A) (hp : x.buf=some p) (hq : h.buf=some q) : p≠q := by
  rintro rfl
  have hd := ho.nodup
  rw [List.filterMap_append,List.filterMap_cons_some hq,List.nodup_append] at hd
  exact hd.2.2 p (mem_bufs hx hp) p List.mem_cons_self rfl

/-- The array grows by headers without buffers. -/
theorem owned_more (ho : Owned heap A) : Owned heap (A++[Header.zero,Header.zero]) := by
  have hf : (A++[Header.zero,Header.zero]).filterMap (·.buf)=A.filterMap (·.buf) := by simp [Header.zero]
  constructor
  · rw [hf]
    exact ho.nodup
  · rw [hf]
    exact ho.live

variable {s : Hdrset} {use rest : List Header} {more : Bool} {mem : Mem}

/-- There is memory for the header array and for a buffer. -/
def supplied (s : Hdrset) (more : Bool) (mem : Mem) : Prop :=
  more=true ∧ (s.headers.length : ℤ)+2≤ intMax ∧ ∃ k∈mem,k.addr≠none

theorem grown_spec (hs : Shape s use rest) (more : Bool) : grown s more=none ∧ ¬(more=true ∧ (s.headers.length : ℤ)+2≤ intMax) ∨
    ∃ h rest',grown s more=some {s with headers := use++h::rest'} ∧ Shape {s with headers := use++h::rest'} use (h::rest') := by
  unfold grown
  split
  · rename_i hle
    split
    · rename_i hmore
      have hnil : rest=[] := by
        rw [hs.headers,hs.count,List.length_append] at hle
        exact List.eq_nil_of_length_eq_zero (by omega)
      have hu : s.headers=use := by rw [hs.headers,hnil,List.append_nil]
      refine .inr ⟨Header.zero,[Header.zero],by rw [hu],rfl,hs.count,?_,?_⟩
      · simp only
        rw [←hu]
        exact owned_more hs.owned
      · simp only [List.length_append,List.length_cons,List.length_nil]
        rw [←hu]
        push_cast
        omega
    · rename_i hno
      exact .inl ⟨rfl,hno⟩
  · rename_i hlt
    rw [hs.headers,hs.count,List.length_append] at hlt
    cases rest with
    | nil => exact absurd (by simp) hlt
    | cons h rest =>
      have he : s={s with headers := use++h::rest} := by rw [←hs.headers]
      refine .inr ⟨h,rest,congrArg some he,?_⟩
      rw [←he]
      exact hs

/-- dpqic_hdrset_add: the set as it was, maybe with a larger array, or a header with a buffer of its own behind it. -/
theorem hdrsetAdd_spec {nlen vlen : ℤ} {n : ℕ} (hs : Shape s use rest) (hf : ∀ k∈mem,∀ q∈k.addr,s.heap q=none)
    (hn : wrap (nlen+vlen+2)=n) (more : Bool) :
    (∃ s' rest',hdrsetAdd s nlen vlen more mem=some (s',false) ∧ Shape s' use rest' ∧ s'.heap=s.heap ∧
      ¬supplied s more mem) ∨
    ∃ s' q rest',hdrsetAdd s nlen vlen more mem=some (s',true) ∧
      Shape s' use (⟨some q,0,nlen.toNat,(nlen+1).toNat,vlen.toNat⟩::rest') ∧ s'.heap q=some (List.replicate n 0) ∧
      ∀ x∈use,∀ p∈x.buf,s'.heap p=s.heap p := by
  unfold hdrsetAdd
  obtain ⟨hg,hno⟩ | ⟨h,rest',hg,hsh⟩ := grown_spec hs more
  · rw [hg]
    exact .inl ⟨s,rest,rfl,hs,rfl,fun h => hno ⟨h.1,h.2.1⟩⟩
  · rw [hg,hn]
    have hat : (use++h::rest')[s.count]?=some h := by rw [hs.count]; simp
    simp only [hat,Option.bind_some]
    have hbuf (a : ℕ) (ha : a∈h.buf) : s.heap a≠none := hsh.owned.live a (mem_bufs (by simp) ha)
    obtain ⟨hr,hno⟩ | ⟨heap',q,b,hr,hb,-,-,hfrom,hsame⟩ := reallocInt_spec hbuf hf (rfl : (n : ℤ)=n)
    · rw [hr]
      refine .inl ⟨_,h::rest',rfl,hsh,rfl,?_⟩
      rintro ⟨-,-,k,hk,hka⟩
      exact hka (hno k hk)
    · rw [hr]
      have hrep := owned_replace ⟨some q,0,nlen.toNat,(nlen+1).toNat,vlen.toNat⟩
        (Function.update heap' q (some (List.replicate n 0))) hsh.owned rfl
        (by rw [Function.update_self]; exact Option.some_ne_none _) hfrom
        (fun r hr hne => by rw [Function.update_of_ne hr]; exact hsame r hr hne)
      refine .inr ⟨_,q,rest',rfl,⟨?_,hs.count,?_,?_⟩,?_,?_⟩
      · simp only [hs.count,List.set_append_right _ _ (le_refl _),Nat.sub_self,List.set_cons_zero]
      · simp only [hs.count,List.set_append_right _ _ (le_refl _),Nat.sub_self,List.set_cons_zero,Int.toNat_natCast]
        exact hrep.1
      · simp only [List.length_set]
        exact hsh.int
      · simp only [Int.toNat_natCast]
        exact Function.update_self ..
      · intro x hx p hp
        simp only [Int.toNat_natCast]
        exact hrep.2 x (List.mem_append_left _ hx) p hp

end Slots

/-! ### Headers in use -/

/-- A header: its buffer, and what it holds. -/
structure Entry where
  addr : ℕ
  name : List Byte
  value : List Byte

def Entry.header (e : Entry) : Header := ⟨some e.addr,0,e.name.length,e.name.length+1,e.value.length⟩
def Entry.bytes (e : Entry) : List Byte := e.name++0::(e.value++[0])
def Entry.key (e : Entry) : List Byte := e.name.map fold

/-- C strings that a length of 16 bits holds. -/
structure Fine (x : List Byte) : Prop where
  ended : 0∉x
  short : x.length≤65535

structure Entry.Fine (e : Entry) : Prop where
  named : e.name≠[]
  name : QicHdrset.Fine e.name
  value : QicHdrset.Fine e.value

/-- The entries are in the headers in use. -/
structure Rep (s : Hdrset) (es : List Entry) (rest : List Header) : Prop where
  shape : Shape s (es.map Entry.header) rest
  fine : ∀ e∈es,e.Fine
  bytes : ∀ e∈es,s.heap e.addr=some e.bytes

section Reads
variable {s : Hdrset} {es a b : List Entry} {rest : List Header} {e : Entry} {heap : Heap} {n : List Byte}

theorem getName_entry (hf : e.Fine) (hb : heap e.addr=some e.bytes) : getName heap e.header=some e.name := by
  simp only [getName,Header.string,Entry.header,Option.bind_some,hb,List.drop_zero]
  exact cstr_zero hf.name.ended

theorem getValue_entry (hf : e.Fine) (hb : heap e.addr=some e.bytes) : getValue heap e.header=some e.value := by
  have hd : e.bytes.drop (e.name.length+1)=e.value++0::[] := by
    rw [Entry.bytes,List.append_cons,List.drop_left' (by simp)]
  simp only [getValue,Header.string,Entry.header,Option.bind_some,hb,hd]
  exact cstr_zero hf.value.ended

theorem search_none (hf : ∀ e∈es,e.Fine) (hb : ∀ e∈es,heap e.addr=some e.bytes) (hk : n.map fold∉es.map Entry.key) :
    search heap n (es.map Entry.header)=some none := by
  induction es with
  | nil => rfl
  | cons e es ih =>
    rw [List.map_cons,List.mem_cons,not_or] at hk
    have hrest := ih (fun x hx => hf x (List.mem_cons_of_mem e hx)) (fun x hx => hb x (List.mem_cons_of_mem e hx)) hk.2
    have hne : strcasecmp e.name n=false := decide_eq_false fun h => hk.1 h.symm
    rw [List.map_cons,search,getName_entry (hf e List.mem_cons_self) (hb e List.mem_cons_self)]
    simp only [Option.bind_some,hne,Bool.false_eq_true,if_false,hrest,Option.map_some,Option.map_none]

theorem search_some (hf : ∀ x∈a++e::b,x.Fine) (hb : ∀ x∈a++e::b,heap x.addr=some x.bytes) (hk : n.map fold∉a.map Entry.key)
    (he : e.key=n.map fold) : search heap n ((a++e::b).map Entry.header)=some (some a.length) := by
  induction a with
  | nil =>
    have heq : strcasecmp e.name n=true := decide_eq_true he
    rw [List.nil_append,List.map_cons,search,getName_entry (hf e List.mem_cons_self) (hb e List.mem_cons_self)]
    simp only [Option.bind_some,heq,if_true,List.length_nil]
  | cons x a ih =>
    rw [List.map_cons,List.mem_cons,not_or] at hk
    have hrest := ih (fun y hy => hf y (List.mem_cons_of_mem x hy)) (fun y hy => hb y (List.mem_cons_of_mem x hy)) hk.2
    have hne : strcasecmp x.name n=false := decide_eq_false fun h => hk.1 h.symm
    rw [List.cons_append,List.map_cons,search,getName_entry (hf x List.mem_cons_self) (hb x List.mem_cons_self)]
    simp only [Option.bind_some,hne,Bool.false_eq_true,if_false,hrest,Option.map_some,List.length_cons]

theorem take_count (hr : Rep s es rest) : s.headers.take s.count=es.map Entry.header := by
  rw [hr.shape.headers,hr.shape.count,List.take_left' rfl]

theorem header_at (hr : Rep s (a++e::b) rest) : s.headers[a.length]?=some e.header := by
  rw [hr.shape.headers,List.map_append,List.append_assoc,List.getElem?_append_right (by simp)]
  simp

/-- The loop, over the entries in use. -/
theorem search_rep (hr : Rep s es rest) (n : List Byte) :
    Keyed.find Entry.key (n.map fold) es=none ∧ search s.heap n (s.headers.take s.count)=some none ∨
    ∃ a e b,es=a++e::b ∧ e.key=n.map fold ∧ Keyed.find Entry.key (n.map fold) es=some e ∧
      search s.heap n (s.headers.take s.count)=some (some a.length) ∧ s.headers[a.length]?=some e.header := by
  rw [take_count hr]
  cases hfind : Keyed.find Entry.key (n.map fold) es with
  | none => exact .inl ⟨rfl,search_none hr.fine hr.bytes (Keyed.find_eq_none.mp hfind)⟩
  | some e =>
    obtain ⟨a,b,rfl,ha⟩ := Keyed.find_split hfind
    have he := (Keyed.find_some hfind).2
    exact .inr ⟨a,e,b,rfl,he,rfl,search_some hr.fine hr.bytes ha he,header_at hr⟩

end Reads

/-! ### Setting and deleting -/

section Calls
variable {s : Hdrset} {es a b : List Entry} {rest : List Header} {e : Entry} {mem : Mem} {more : Bool} {n v : List Byte}

theorem split_block {l x v : List Byte} (hl : l.length=v.length+x.length+2) (ht : l.take x.length=x) :
    ∃ z w c,l=x++z::(w++[c]) ∧ w.length=v.length := by
  have hx := List.take_append_drop x.length l
  rw [ht] at hx
  cases hd : l.drop x.length with
  | nil =>
    have := congrArg List.length hd
    rw [List.length_drop,List.length_nil] at this
    omega
  | cons z r =>
    have hr := congrArg List.length hd
    rw [List.length_drop,List.length_cons] at hr
    obtain rfl | ⟨w,c,rfl⟩ := List.eq_nil_or_concat' r
    · rw [List.length_nil] at hr
      omega
    · rw [List.length_append,List.length_singleton] at hr
      exact ⟨z,w,c,by rw [←hd,hx],by omega⟩

/-- The value and the two NULs, in a block that has the name. -/
theorem store_value {heap : Heap} {q : ℕ} {l x v : List Byte} (hq : heap q=some l) (hl : l.length=v.length+x.length+2)
    (ht : l.take x.length=x) : ((store heap q (x.length+1) v).bind fun heap => (store heap q x.length [0]).bind fun heap =>
      store heap q (x.length+1+v.length) [0])=some (Function.update heap q (some (x++0::(v++[0])))) := by
  obtain ⟨z,w,c,rfl,hw⟩ := split_block hl ht
  have h1 : put (x++z::(w++[c])) (x.length+1) v=x++z::(v++[c]) := by
    have := put_mid (l := x++[z]) (z := [c]) hw
    simpa using this
  have h2 : put (x++z::(v++[c])) x.length [0]=x++0::(v++[c]) := by
    have := put_mid (l := x) (y := [z]) (x := [(0 : Byte)]) (z := v++[c]) rfl
    simpa using this
  have h3 : put (x++0::(v++[c])) (x.length+1+v.length) [0]=x++0::(v++[0]) := by
    have := put_mid (l := x++0::v) (y := [c]) (x := [(0 : Byte)]) (z := []) rfl
    simpa [Nat.add_right_comm,Nat.add_assoc,Nat.add_comm v.length] using this
  rw [store_some hq (by simp; omega),h1,Option.bind_some,store_some (Function.update_self ..) (by simp),h2,Option.bind_some,
    store_some (Function.update_self ..) (by simp; omega),h3,Function.update_idem,Function.update_idem]

theorem wrap_fine {x y : List Byte} (hx : Fine x) (hy : Fine y) :
    wrap ((x.length : ℤ)+y.length+2)=((x.length+y.length+2 : ℕ) : ℤ) := by
  have h1 := hx.short
  have h2 := hy.short
  rw [(DpbufSpec.wrap_cases _).2.2.1 (by omega) (by omega)]
  push_cast
  rfl

theorem resetValue_spec (hr : Rep s (a++e::b) rest) (hf : ∀ k∈mem,∀ q∈k.addr,s.heap q=none) (hv : Fine v)
    (more : Bool) : resetValue s a.length e.header v mem=some (s,dpeNomem) ∧ ¬supplied s more mem ∨ ∃ s' q,
      resetValue s a.length e.header v mem=some (s',dpeOk) ∧ Rep s' (a++⟨q,e.name,v⟩::b) rest := by
  have he : e∈a++e::b := by simp
  have hen := hr.fine e he
  have hshape := hr.shape.headers
  have ho := hr.shape.owned
  rw [List.map_append,List.map_cons,List.append_assoc,List.cons_append] at hshape
  have hbuf (p : ℕ) (hp : p∈(some e.addr)) : s.heap p≠none := by
    cases hp
    rw [hr.bytes e he]
    exact Option.some_ne_none _
  simp only [resetValue,Entry.header]
  obtain ⟨hre,hno⟩ | ⟨heap',q,l,hre,hl,hlen,hold,hfrom,hsame⟩ := reallocInt_spec hbuf hf (wrap_fine hv hen.name)
  · rw [hre]
    refine .inl ⟨rfl,?_⟩
    rintro ⟨-,-,k,hk,hka⟩
    exact hka (hno k hk)
  · have htake : l.take e.name.length=e.name := by
      rw [hold e.addr rfl e.bytes (hr.bytes e he) e.name.length (by omega) (by simp [Entry.bytes]),Entry.bytes,List.take_left]
    have hst := store_value hl hlen htake
    rw [hshape] at ho
    have hrep := owned_replace (h := e.header) (⟨q,e.name,v⟩ : Entry).header
      (Function.update heap' q (some (e.name++0::(v++[0])))) ho rfl
      (by rw [Function.update_self]; exact Option.some_ne_none _) (hfrom.imp_left fun h => by cases h; rfl)
      (fun r hr hne => by rw [Function.update_of_ne hr]; exact hsame r hr fun h => hne (by cases h; rfl))
    refine .inr ⟨{s with
      heap := Function.update heap' q (some (e.name++0::(v++[0])))
      headers := a.map Entry.header++(⟨q,e.name,v⟩ : Entry).header::(b.map Entry.header++rest)},q,?_,⟨⟨?_,?_,?_,?_⟩,?_,?_⟩⟩
    · have hsetr (x : Header) (l : List Header) : (a.map Entry.header++l).set a.length x=a.map Entry.header++l.set 0 x := by
        rw [List.set_append_right _ _ (by rw [List.length_map]),List.length_map,Nat.sub_self]
      rw [hre]
      simp only [Option.bind_some]
      obtain ⟨H1,hs1,hst⟩ := Option.bind_eq_some_iff.mp hst
      obtain ⟨H2,hs2,hs3⟩ := Option.bind_eq_some_iff.mp hst
      rw [hs1,Option.bind_some,hs2,Option.bind_some,hs3,Option.map_some,hshape]
      simp only [hsetr,List.set_cons_zero]
      rfl
    · simp only [List.map_append,List.map_cons,List.append_assoc,List.cons_append]
    · have := hr.shape.count
      simp only [List.length_map,List.length_append,List.length_cons] at this ⊢
      exact this
    · exact hrep.1
    · have := hr.shape.int
      rw [hshape] at this
      simp only [List.length_append,List.length_cons] at this ⊢
      exact this
    · intro x hx
      rw [List.perm_middle.mem_iff,List.mem_cons] at hx
      obtain rfl | hx := hx
      · exact ⟨hen.named,hen.name,hv⟩
      · exact hr.fine x (by rw [List.perm_middle.mem_iff]; exact List.mem_cons_of_mem e hx)
    · intro x hx
      rw [List.perm_middle.mem_iff,List.mem_cons] at hx
      obtain rfl | hx := hx
      · exact Function.update_self ..
      · have hxe : x∈a++e::b := by rw [List.perm_middle.mem_iff]; exact List.mem_cons_of_mem e hx
        refine (hrep.2 x.header ?_ x.addr rfl).trans (hr.bytes x hxe)
        rw [List.mem_append] at hx ⊢
        exact hx.imp (List.mem_map_of_mem ·) fun h => List.mem_append_left _ (List.mem_map_of_mem h)

/-- The header goes behind the ones in use; the last one comes in its place. -/
theorem removeHeader_spec (hr : Rep s (a++e::b) rest) : ∃ s' es',removeHeader s a.length e.header=some (s',dpeOk) ∧
    Rep s' es' (e.header::rest) ∧ es'.Perm (a++b) ∧ s'.heap=s.heap := by
  have hshape := hr.shape.headers
  have hcount := hr.shape.count
  have hint := hr.shape.int
  rw [List.map_append,List.map_cons,List.append_assoc,List.cons_append] at hshape
  simp only [List.length_map,List.length_append,List.length_cons] at hcount
  have hmem {x : Entry} (hx : x∈a++b) : x∈a++e::b := by
    rw [List.perm_middle.mem_iff]
    exact List.mem_cons_of_mem e hx
  unfold removeHeader
  obtain rfl | ⟨b,z,rfl⟩ := List.eq_nil_or_concat' b
  · rw [List.length_nil] at hcount
    rw [if_neg (by omega)]
    refine ⟨_,a,rfl,⟨⟨hshape,?_,hr.shape.owned,hint⟩,?_,?_⟩,by rw [List.append_nil],rfl⟩
    · simp only [List.length_map]
      omega
    · exact fun x hx => hr.fine x (hmem (List.mem_append_left _ hx))
    · exact fun x hx => hr.bytes x (hmem (List.mem_append_left _ hx))
  · rw [List.length_append,List.length_singleton] at hcount
    have hlast : s.count-1=(a.map Entry.header++e.header::b.map Entry.header).length := by
      simp only [List.length_append,List.length_map,List.length_cons]
      omega
    have hform : s.headers=(a.map Entry.header++e.header::b.map Entry.header)++z.header::rest := by
      rw [hshape]
      simp
    have hset : (s.headers.set a.length z.header).set (s.count-1) e.header=
        (a++z::b).map Entry.header++e.header::rest := by
      have h1 : s.headers.set a.length z.header=(a.map Entry.header++z.header::b.map Entry.header)++z.header::rest := by
        rw [hform,List.append_assoc,List.set_append_right _ _ (by simp)]
        simp
      have h2 : s.count-1=(a.map Entry.header++z.header::b.map Entry.header).length := by
        rw [hlast]
        simp
      rw [h1,h2,List.set_append_right _ _ le_rfl]
      simp
    have hperm : s.headers.Perm ((a++z::b).map Entry.header++e.header::rest) := by
      rw [hform]
      simp only [List.map_append,List.map_cons,List.append_assoc,List.cons_append]
      apply List.Perm.append_left
      exact (List.perm_middle.cons _).trans ((List.Perm.swap ..).trans (List.perm_middle.symm.cons _))
    have hsub : (a++z::b).Perm (a++(b++[z])) := (List.perm_append_comm : ([z]++b).Perm _).append_left a
    rw [if_pos (by omega),hlast,hform,List.getElem?_append_right le_rfl,Nat.sub_self,List.getElem?_cons_zero,Option.map_some,
      ←hform,←hlast,hset]
    refine ⟨_,a++z::b,rfl,⟨⟨rfl,?_,owned_perm hr.shape.owned hperm,?_⟩,?_,?_⟩,hsub,rfl⟩
    · simp only [List.length_map,List.length_append,List.length_cons]
      omega
    · rw [←hperm.length_eq]
      exact hint
    · exact fun x hx => hr.fine x (hmem (hsub.mem_iff.mp hx))
    · exact fun x hx => hr.bytes x (hmem (hsub.mem_iff.mp hx))

theorem insertHeader_spec (hr : Rep s es rest) (hf : ∀ k∈mem,∀ q∈k.addr,s.heap q=none) (hn : Fine n) (hne : n≠[])
    (hv : Fine v) (more : Bool) : (∃ s' rest',insertHeader s n v more mem=some (s',dpeNomem) ∧ Rep s' es rest' ∧ ¬supplied s more mem) ∨
    ∃ s' q rest',
      insertHeader s n v more mem=some (s',dpeOk) ∧ Rep s' (es++[⟨q,n,v⟩]) rest' := by
  unfold insertHeader
  obtain ⟨s1,rest1,hadd,hsh,hheap,hno⟩ | ⟨s1,q,rest1,hadd,hsh,hq,hsame⟩ :=
    hdrsetAdd_spec hr.shape hf (wrap_fine hn hv) more
  · rw [hadd]
    exact .inl ⟨s1,rest1,rfl,⟨hsh,hr.fine,fun e he => by rw [hheap]; exact hr.bytes e he⟩,hno⟩
  · simp only [Int.toNat_natCast] at hsh
    have hnl : ((n.length : ℤ)+1).toNat=n.length+1 := by omega
    rw [hnl] at hsh
    have hzero : List.replicate (n.length+v.length+2) (0 : Byte)=
        List.replicate n.length 0++0::(List.replicate v.length 0++[0]) := by
      rw [←List.replicate_one,←List.replicate_add,←List.replicate_succ,←List.replicate_add]
      congr 1
    rw [hzero] at hq
    have h1 : put (List.replicate n.length (0 : Byte)++0::(List.replicate v.length 0++[0])) 0 n=
        n++0::(List.replicate v.length 0++[0]) := by
      have := put_mid (l := []) (y := List.replicate n.length (0 : Byte)) (x := n)
        (z := 0::(List.replicate v.length 0++[0])) List.length_replicate
      simpa using this
    have h2 : put (n++0::(List.replicate v.length (0 : Byte)++[0])) (n.length+1) v=n++0::(v++[0]) := by
      have := put_mid (l := n++[0]) (y := List.replicate v.length (0 : Byte)) (x := v) (z := [0]) List.length_replicate
      simpa using this
    have hat : s1.headers[s1.count]?=some ⟨some q,0,n.length,n.length+1,v.length⟩ := by
      rw [hsh.headers,hsh.count]
      simp
    refine .inr ⟨{s1 with heap := Function.update s1.heap q (some (n++0::(v++[0]))), count := s1.count+1},q,rest1,?_,
      ⟨⟨?_,?_,owned_update hsh.owned,hsh.int⟩,?_,?_⟩⟩
    · rw [hadd]
      simp only [Option.bind_some,if_true,hat]
      rw [store_some hq (by simp),h1,Option.bind_some,store_some (Function.update_self ..) (by simp; omega),h2,
        Option.map_some,Function.update_idem]
    · rw [hsh.headers]
      simp [Entry.header]
    · simp only [hsh.count,List.length_map,List.length_append,List.length_singleton]
    · intro x hx
      rw [List.mem_append,List.mem_singleton] at hx
      obtain hx | rfl := hx
      · exact hr.fine x hx
      · exact ⟨hne,hn,hv⟩
    · intro x hx
      rw [List.mem_append,List.mem_singleton] at hx
      obtain hx | rfl := hx
      · have hm : x.header∈es.map Entry.header := List.mem_map_of_mem hx
        have ho := hsh.owned
        rw [hsh.headers] at ho
        refine (Function.update_of_ne (owned_ne ho hm rfl rfl) ..).trans ?_
        exact (hsame _ hm x.addr rfl).trans (hr.bytes x hx)
      · exact Function.update_self ..

end Calls

/-! ### The map -/

abbrev HeaderMap := Finmap fun _ : List Byte => List Byte

/-- The entries are those of the map. -/
structure Maps (es : List Entry) (m : HeaderMap) : Prop where
  nodup : (es.map Entry.key).Nodup
  lookup : ∀ k,m.lookup k=(Keyed.find Entry.key k es).map (·.value)

section Maps
variable {es a b : List Entry} {e e' : Entry} {m : HeaderMap} {k : List Byte}

theorem maps_reset (e' : Entry) (hm : Maps (a++e::b) m) (hk : e'.key=e.key) : Maps (a++e'::b) (m.insert e.key e'.value) := by
  refine ⟨?_,fun k => ?_⟩
  · have := hm.nodup
    rw [List.map_append,List.map_cons] at this ⊢
    rwa [hk]
  · rw [Keyed.find_modify hm.nodup hk]
    by_cases h : k=e.key
    · subst h
      rw [if_pos rfl,Finmap.lookup_insert]
      rfl
    · rw [if_neg h,Finmap.lookup_insert_of_ne _ h]
      exact hm.lookup k

theorem maps_remove (hm : Maps (a++e::b) m) (hp : es.Perm (a++b)) : Maps es (m.erase e.key) := by
  have hn := (hp.map Entry.key).nodup_iff.mpr (Keyed.nodup_unlink hm.nodup)
  refine ⟨hn,fun k => ?_⟩
  rw [Keyed.find_perm hn hp,Keyed.find_unlink hm.nodup]
  by_cases h : k=e.key
  · subst h
    rw [if_pos rfl,Finmap.lookup_erase]
    rfl
  · rw [if_neg h,Finmap.lookup_erase_ne h]
    exact hm.lookup k

theorem maps_insert (hm : Maps es m) (hn : Keyed.find Entry.key e.key es=none) : Maps (es++[e]) (m.insert e.key e.value) := by
  refine ⟨?_,fun k => ?_⟩
  · rw [List.map_append,List.nodup_append]
    refine ⟨hm.nodup,List.nodup_singleton _,fun x hx y hy => ?_⟩
    rw [List.map_singleton,List.mem_singleton] at hy
    rintro rfl
    exact Keyed.find_eq_none.mp hn (hy ▸ hx)
  · rw [Keyed.find_append,Keyed.find_cons]
    by_cases h : k=e.key
    · subst h
      rw [hn,if_pos rfl,Finmap.lookup_insert]
      rfl
    · rw [if_neg (Ne.symm h),Finmap.lookup_insert_of_ne _ h,Keyed.find_nil,Option.or_none]
      exact hm.lookup k

theorem maps_absent (hm : Maps es m) (hn : Keyed.find Entry.key k es=none) : Maps es (m.erase k) := by
  refine ⟨hm.nodup,fun j => ?_⟩
  by_cases h : j=k
  · subst h
    rw [hn,Finmap.lookup_erase]
    rfl
  · rw [Finmap.lookup_erase_ne h]
    exact hm.lookup j

theorem maps_keys (hm : Maps es m) : m.keys=(es.map Entry.key).toFinset := by
  ext k
  rw [Finmap.mem_keys,←Finmap.lookup_isSome,hm.lookup,List.mem_toFinset,Option.isSome_map]
  cases hf : Keyed.find Entry.key k es with
  | none => simp [Keyed.find_eq_none.mp hf]
  | some e =>
    obtain ⟨he,rfl⟩ := Keyed.find_some hf
    simp only [Option.isSome_some,true_iff]
    exact List.mem_map_of_mem he

end Maps

/-! ### Runs -/

/-- A string of the caller's. -/
structure CString where
  bytes : List Byte
  fine : Fine bytes

/-- A call of dpqic_hdrset_set, and what realloc finds during it. -/
structure Call where
  name : Option CString
  value : Option CString
  more : Bool
  mem : Mem

/-- The set, and the map of what has been set. -/
structure Hist where
  set : Hdrset
  map : HeaderMap

def assign (m : HeaderMap) (c : Call) (r : Dpret) : HeaderMap :=
  match c.name with
  | none => m
  | some n =>
      if r=dpeOk then
        match c.value with
        | some v => m.insert (n.bytes.map fold) v.bytes
        | none => m.erase (n.bytes.map fold)
      else m

def hstep (w : Hist) (c : Call) : Option Hist :=
  (hdrsetSet w.set (c.name.map (·.bytes)) (c.value.map (·.bytes)) c.more c.mem).map fun (s,r) => ⟨s,assign w.map c r⟩

/-- realloc gives no block that is in use. -/
def fresh (w : Hist) (c : Call) : Prop := ∀ k∈c.mem,∀ q∈k.addr,w.set.heap q=none

instance (w : Hist) (c : Call) : Decidable (fresh w c) := by unfold fresh; infer_instance

structure Inv (w : Hist) : Prop where
  rep : ∃ es rest,Rep w.set es rest ∧ Maps es w.map

theorem set_step {w : Hist} {c : Call} (hi : Inv w) (hf : fresh w c) : ∃ w' r,
    hdrsetSet w.set (c.name.map (·.bytes)) (c.value.map (·.bytes)) c.more c.mem=some (w'.set,r) ∧
    w'.map=assign w.map c r ∧ Inv w' ∧ (supplied w.set c.more c.mem → (∀ n∈c.name,n.bytes≠[]) → c.name≠none → r=dpeOk) := by
  obtain ⟨es,rest,hr,hm⟩ := hi.rep
  obtain ⟨name,value,more,mem⟩ := c
  cases name with
  | none => exact ⟨w,dpeInval,rfl,rfl,hi,fun _ _ h => absurd rfl h⟩
  | some n =>
    by_cases hne : n.bytes=[]
    · refine ⟨w,dpeInval,?_,rfl,hi,fun _ h _ => absurd hne (h n rfl)⟩
      simp only [Option.map_some,hdrsetSet,if_pos hne]
    · simp only [Option.map_some,hdrsetSet,if_neg hne]
      obtain ⟨hfind,hsearch⟩ | ⟨a,e,b,rfl,he,hfind,hsearch,hat⟩ := search_rep hr n.bytes
      · rw [hsearch]
        simp only [Option.bind_some]
        cases value with
        | none => exact ⟨⟨w.set,w.map.erase (n.bytes.map fold)⟩,dpeOk,rfl,rfl,⟨es,rest,hr,maps_absent hm hfind⟩,fun _ _ _ => rfl⟩
        | some v =>
          obtain ⟨s',rest',hins,hr',hno⟩ | ⟨s',q,rest',hins,hr'⟩ := insertHeader_spec hr hf n.fine hne v.fine more
          · exact ⟨⟨s',w.map⟩,dpeNomem,hins,rfl,⟨es,rest',hr',hm⟩,fun h _ _ => absurd h hno⟩
          · exact ⟨⟨s',w.map.insert (n.bytes.map fold) v.bytes⟩,dpeOk,hins,rfl,
              ⟨_,rest',hr',maps_insert (e := ⟨q,n.bytes,v.bytes⟩) hm hfind⟩,fun _ _ _ => rfl⟩
      · rw [hsearch]
        simp only [Option.bind_some,hat]
        cases value with
        | none =>
          obtain ⟨s',es',hrem,hr',hp,-⟩ := removeHeader_spec hr
          refine ⟨⟨s',w.map.erase (n.bytes.map fold)⟩,dpeOk,hrem,rfl,⟨es',_,hr',?_⟩,fun _ _ _ => rfl⟩
          rw [←he]
          exact maps_remove hm hp
        | some v =>
          obtain ⟨hres,hno⟩ | ⟨s',q,hres,hr'⟩ := resetValue_spec hr hf v.fine more
          · exact ⟨w,dpeNomem,hres,rfl,hi,fun h _ _ => absurd h hno⟩
          · refine ⟨⟨s',w.map.insert (n.bytes.map fold) v.bytes⟩,dpeOk,hres,rfl,⟨_,rest,hr',?_⟩,fun _ _ _ => rfl⟩
            rw [←he]
            exact maps_reset ⟨q,e.name,v.bytes⟩ hm rfl

/-- dpqic_hdrset_get, count and at read the map: what was set last under a name, in whatever case; how many names there
are; and each of them at one index. -/
structure Agrees (s : Hdrset) (m : HeaderMap) : Prop where
  get : ∀ n : List Byte,n≠[] → hdrsetGet s (some n)=some (m.lookup (n.map fold))
  count : hdrsetCount s=m.keys.card
  entry : ∀ j< hdrsetCount s,∃ n v,hdrsetAt s j=some (some (n,v)) ∧ m.lookup (n.map fold)=some v
  once : ∀ k∈m,∃! j,j<hdrsetCount s ∧ ∃ n v,hdrsetAt s j=some (some (n,v)) ∧ n.map fold=k
  beyond : ∀ j : ℤ,j<0 ∨ hdrsetCount s≤j → hdrsetAt s j=some none

section Agrees
variable {s : Hdrset} {es : List Entry} {rest : List Header} {m : HeaderMap}

theorem hdrsetAt_rep (hr : Rep s es rest) {j : ℕ} (hj : j<es.length) :
    hdrsetAt s j=some (some (es[j].name,es[j].value)) := by
  have hcount := hr.shape.count
  rw [List.length_map] at hcount
  have hat : s.headers[j]?=some es[j].header := by
    rw [hr.shape.headers,List.getElem?_append_left (by rw [List.length_map]; exact hj),List.getElem?_map,
      List.getElem?_eq_getElem hj]
    rfl
  have hmem : es[j]∈es := List.getElem_mem hj
  have hname := getName_entry (hr.fine _ hmem) (hr.bytes _ hmem)
  have hvalue := getValue_entry (hr.fine _ hmem) (hr.bytes _ hmem)
  rw [hdrsetAt,if_neg (by omega),Int.toNat_natCast,hat,Option.bind_some,hname,Option.bind_some,hvalue]
  rfl

theorem agrees (hr : Rep s es rest) (hm : Maps es m) : Agrees s m := by
  have hcount : hdrsetCount s=es.length := hr.shape.count.trans (List.length_map ..)
  refine ⟨fun n hn => ?_,?_,fun j hj => ?_,fun k hk => ?_,fun j hj => if_pos hj⟩
  · rw [hm.lookup,hdrsetGet]
    simp only [if_neg hn]
    obtain ⟨hfind,hsearch⟩ | ⟨a,e,b,rfl,-,hfind,hsearch,hat⟩ := search_rep hr n
    · rw [hsearch,hfind]
      rfl
    · have he : e∈a++e::b := by simp
      rw [hsearch,hfind]
      simp only [Option.bind_some,hat,getValue_entry (hr.fine e he) (hr.bytes e he),Option.map_some]
  · rw [hcount,maps_keys hm,List.toFinset_card_of_nodup hm.nodup,List.length_map]
  · rw [hcount] at hj
    refine ⟨_,_,hdrsetAt_rep hr hj,?_⟩
    have hfind := Keyed.find_mem hm.nodup (List.getElem_mem hj)
    exact (hm.lookup es[j].key).trans (by rw [hfind]; rfl)
  · rw [←Finmap.mem_keys,maps_keys hm,List.mem_toFinset,List.mem_iff_getElem] at hk
    obtain ⟨j,hj,rfl⟩ := hk
    have hj' := hj
    rw [List.length_map] at hj'
    rw [hcount]
    have hkj : (es.map Entry.key)[j]=es[j].name.map fold := List.getElem_map ..
    refine ⟨j,⟨hj',_,_,hdrsetAt_rep hr hj',hkj.symm⟩,?_⟩
    rintro i ⟨hi,n,v,hat,hkey⟩
    rw [hdrsetAt_rep hr hi] at hat
    cases hat
    have hi' : i<(es.map Entry.key).length := by rw [List.length_map]; exact hi
    have hsame : (es.map Entry.key)[i]=(es.map Entry.key)[j] := (List.getElem_map ..).trans hkey
    exact (List.Nodup.getElem_inj_iff hm.nodup).mp hsame

end Agrees

/-- No header is in use. -/
structure Empty (s : Hdrset) : Prop where
  count : s.count=0
  owned : Owned s.heap s.headers
  int : s.headers.length≤ intMax

theorem empty_new {preSize : ℤ} (h : preSize≤ intMax) : Empty (hdrsetNew preSize) := by
  have hnone : (hdrsetNew preSize).headers.filterMap (·.buf)=[] := by
    rw [List.filterMap_eq_nil_iff]
    intro x hx
    rw [List.eq_of_mem_replicate hx]
    rfl
  refine ⟨rfl,⟨by rw [hnone]; exact List.nodup_nil,fun p hp => ?_⟩,?_⟩
  · rw [hnone] at hp
    cases hp
  · simp only [hdrsetNew,List.length_replicate]
    unfold intMax at h ⊢
    split <;> omega

theorem inv_run {s : Hdrset} {w : Hist} (he : Empty s) (hr : Reach hstep fresh ⟨s,∅⟩ w) : Inv w := by
  apply hr.invariant
  · have hshape : Shape s (List.map Entry.header []) s.headers := ⟨rfl,he.count,he.owned,he.int⟩
    refine ⟨[],s.headers,⟨hshape,by simp,by simp⟩,List.nodup_nil,fun k => ?_⟩
    exact Finmap.lookup_empty k
  · intro t c u ht hf hu
    obtain ⟨w',r,hs,hmap,hi,-⟩ := set_step ht hf
    rw [hstep,hs,Option.map_some,Option.some.injEq] at hu
    simp only at hu
    rw [←hu,←hmap]
    exact hi

/-- From an empty set, after any calls: what get, count and at read is the map of what has been set. Each call comes
back, and sets or deletes if there is memory. -/
theorem hdrset_map {s : Hdrset} {w : Hist} (he : Empty s) (hr : Reach hstep fresh ⟨s,∅⟩ w) : Agrees w.set w.map ∧
    ∀ c,fresh w c → ∃ s' r,hdrsetSet w.set (c.name.map (·.bytes)) (c.value.map (·.bytes)) c.more c.mem=some (s',r) ∧
      Agrees s' (assign w.map c r) ∧
      (supplied w.set c.more c.mem → (∀ n∈c.name,n.bytes≠[]) → c.name≠none → r=dpeOk) := by
  have hi := inv_run he hr
  have hread {u : Hist} (hu : Inv u) : Agrees u.set u.map := by
    obtain ⟨es,rest,hrep,hm⟩ := hu.rep
    exact agrees hrep hm
  refine ⟨hread hi,fun c hc => ?_⟩
  obtain ⟨w',r,hs,hmap,hw,hok⟩ := set_step hi hc
  exact ⟨w'.set,r,hs,hmap ▸ hread hw,hok⟩

/-- A call with enough memory, for a block at `q`. -/
def call (name value : List Byte) (q : ℕ) (hn : Fine name) (hv : Fine value) : Call :=
  ⟨some ⟨name,hn⟩,some ⟨value,hv⟩,true,some ⟨some q,fun _ => 7⟩⟩

theorem fine_short {x : List Byte} (h : decide (0∉x ∧ x.length≤65535)=true) : Fine x :=
  have := of_decide_eq_true h
  ⟨this.1,this.2⟩

/-- "A: x", "b: y" and "a: zz". -/
theorem hdrset_map_two : ∃ w,Reach hstep fresh ⟨hdrsetNew 0,∅⟩ w ∧ Agrees w.set w.map ∧
    w.map.lookup [97]=some [122,122] ∧ hdrsetGet w.set (some [65])=some (some [122,122]) := by
  have hrun : (execOk hstep fresh ⟨hdrsetNew 0,∅⟩ [call [65] [120] 1 (fine_short rfl) (fine_short rfl),
      call [98] [121] 2 (fine_short rfl) (fine_short rfl),call [97] [122,122] 3 (fine_short rfl) (fine_short rfl)]).any
      (fun w => decide (w.map.lookup [97]=some [122,122]))=true := by decide +kernel
  obtain ⟨w,hw,hf⟩ := (Option.any_eq_true _ _).mp hrun
  have hr := execOk_reach hw
  have hl := of_decide_eq_true hf
  obtain ⟨ha,-⟩ := hdrset_map (empty_new (by decide)) hr
  exact ⟨w,hr,ha,hl,(ha.get [65] (by decide)).trans (congrArg some hl)⟩

end Dpapp.QicHdrset
