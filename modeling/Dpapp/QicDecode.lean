import Dpapp.QicHdrset

/-! # Header sets that lsquic decodes into (dpqic.c) -/

namespace Dpapp.QicDecode
open Dpapp.Machine Dpapp.Segment
open Dpapp.Dpbuf (Byte wrap)
open Dpapp.QicHdrset

/-- lsxpack_header.h, which is not part of the repository: what a lsxpack_strlen_t keeps of a number, and the val_len that
lsxpack_header_prepare_decode sets for a buffer of this length. -/
structure Lsxpack where
  fit : ℕ → ℕ
  room : ℕ → ℕ
  fit_le : ∀ n,fit n≤n
  room_le : ∀ n,room n≤n

/-- A size_t after an overflow. -/
def sizeT (n : ℕ) : ℕ := n%2^64

variable (L : Lsxpack)

/-- _dpqic_cb_hsi_predec; `hdr` is the index of the header, none for NULL. -/
def hsiPredec (s : Hdrset) (hdr : Option ℕ) (space : ℕ) (more : Bool) (mem : Mem) : Option (Hdrset × Bool) :=
  match hdr with
  | some j => (s.headers[j]?).bind fun h => (realloc s.heap h.buf (sizeT (space+2)) mem).map fun (heap,p) =>
      match p with
      | none => ({s with heap := heap},false)
      | some p => ({s with
          heap := heap
          headers := s.headers.set j {h with buf := some p, valLen := L.fit (sizeT (space+2))}},true)
  | none => (hdrsetAdd s 0 (wrap space) more mem).bind fun (s,ok) =>
      if ok then (s.headers[s.count]?).map fun h =>
        ({s with headers := s.headers.set s.count {buf := h.buf, valLen := L.room (sizeT (space+2))}},true)
      else some (s,false)

/-- buf[from + 1] = buf[from] -/
def copyUp (heap : Heap) (p k : ℕ) : Option Heap :=
  (heap p).bind fun b => (b[k]?).bind fun c => store heap p (k+1) [c]

/-- The loop in `_dpqic_cb_hsi_append`, from val_offset+n down to val_offset. -/
def shiftBack (heap : Heap) (p valOffset : ℕ) : ℕ → Option Heap
  | 0 => copyUp heap p valOffset
  | n+1 => (copyUp heap p (valOffset+(n+1))).bind fun heap => shiftBack heap p valOffset n

/-- _dpqic_cb_hsi_append of the header `j` -/
def hsiAppend (s : Hdrset) (j : ℕ) : Option Hdrset :=
  (s.headers[j]?).bind fun h => h.buf.bind fun p => (store s.heap p (h.valOffset+h.valLen) [0]).bind fun heap =>
    (if h.valOffset=h.nameOffset+h.nameLen then
        (shiftBack heap p h.valOffset h.valLen).map fun heap => (heap,{h with valOffset := L.fit (h.valOffset+1)})
      else some (heap,h)).bind fun (heap,h) =>
      (store heap p (h.nameOffset+h.nameLen) [0]).map fun heap =>
        {s with heap := heap, headers := s.headers.set j h, count := s.count+1}

/-! ### The decoder -/

/-- A header between hsi_predec and hsi_append: what was asked for last, and what the decoder has written. -/
structure Pending where
  space : ℕ
  wrote : ℕ → Option Byte

/-- The set, the header that is being decoded, and the names and values that have been. -/
structure Decode where
  set : Hdrset
  pending : Option Pending := none
  done : List (List Byte × List Byte) := []

inductive Act
  | predec (space : ℕ) (more : Bool) (mem : Mem)
  | again (space : ℕ) (mem : Mem)
  | fill (pos : ℕ) (x : List Byte)
  | append (nameOffset nameLen valOffset valLen : ℕ)

def Pending.fill (p : Pending) (pos : ℕ) (x : List Byte) : Pending :=
  {p with wrote := fun k => if k<pos then p.wrote k else if k<pos+x.length then x[k-pos]? else p.wrote k}

/-- What the decoder has written there. -/
def Pending.read (p : Pending) (off len : ℕ) : List Byte := (List.range len).map fun k => (p.wrote (off+k)).getD 0

def dstep (d : Decode) : Act → Option Decode
  | .predec space more mem => (hsiPredec L d.set none space more mem).map fun (s,ok) =>
      {d with set := s, pending := if ok then some ⟨space,fun _ => none⟩ else none}
  | .again space mem => (hsiPredec L d.set (some d.set.count) space false mem).map fun (s,ok) =>
      {d with set := s, pending := if ok then d.pending.map fun p => {p with space := space} else d.pending}
  | .fill pos x => (d.set.headers[d.set.count]?).bind fun h => h.buf.bind fun p => (store d.set.heap p pos x).map fun heap =>
      {d with set := {d.set with heap := heap}, pending := d.pending.map fun p => p.fill pos x}
  | .append no nl vo vl => d.pending.bind fun p => (d.set.headers[d.set.count]?).bind fun h =>
      (hsiAppend L {d.set with headers := d.set.headers.set d.set.count ⟨h.buf,no,nl,vo,vl⟩} d.set.count).map fun s =>
        {set := s, done := d.done++[(p.read no nl,p.read vo vl)]}

/-- The val_len the decoder has been told. -/
def told (d : Decode) : ℕ := ((d.set.headers[d.set.count]?).map (·.valLen)).getD 0

def offered (s : Hdrset) (mem : Mem) : Prop := ∀ k∈mem,∀ q∈k.addr,s.heap q=none

/-- What lsqpack promises: one header at a time, larger requests for the same one, and no byte behind val_len. -/
def decoder (d : Decode) : Act → Prop
  | .predec space _ mem => d.pending.isNone ∧ space<2^64 ∧ offered d.set mem
  | .again space mem => (∃ p∈d.pending,p.space<space) ∧ space<2^64 ∧ offered d.set mem
  | .fill pos x => d.pending.isSome ∧ pos+x.length≤told d
  | .append no nl vo vl => no+nl≤vo ∧ vo+vl≤told d ∧
      ∃ p∈d.pending,(∀ k< nl,(p.wrote (no+k)).isSome) ∧ ∀ k< vl,(p.wrote (vo+k)).isSome

/-- The int that dpqic_hdrset_add asks realloc for. -/
def asked (space : ℕ) : ℤ := wrap (0+wrap space+2)

/-- The block has what val_len says, and hsi_append finds room for its NULs. -/
def roomy (d : Decode) : Act → Prop
  | .predec space _ _ => asked space<0 ∨ asked space=space+2
  | .again space _ => space+2<2^64
  | .fill _ _ => True
  | .append no nl vo vl => ∀ p∈d.pending,
      if vo=no+nl then vo+vl≤p.space ∧ L.fit (vo+1)=vo+1 else vo+vl≤p.space+1

instance (d : Decode) (a : Act) : Decidable (decoder d a) := by
  cases a <;> (dsimp only [decoder,offered]; infer_instance)

instance (d : Decode) (a : Act) : Decidable (roomy L d a) := by
  cases a <;> (dsimp only [roomy]; infer_instance)

/-! ### One header's bytes -/

section Bytes
variable {heap : Heap} {p : ℕ} {b : List Byte}

theorem copyUp_spec {k : ℕ} (hb : heap p=some b) (hk : k+1<b.length) : ∃ c,b[k]?=some c ∧
    copyUp heap p k=some (Function.update heap p (some (put b (k+1) [c]))) := by
  have hc : b[k]?=some b[k] := List.getElem?_eq_getElem (by omega)
  refine ⟨b[k],hc,?_⟩
  rw [copyUp,hb,Option.bind_some,hc,Option.bind_some]
  exact store_some hb (by simpa using hk)

theorem getElem?_put_one {k j : ℕ} {c : Byte} (hk : k<b.length) : (put b k [c])[j]?=if j=k then some c else b[j]? := by
  rw [getElem?_put (by simpa using hk)]
  by_cases hj : j=k
  · subst hj
    simp
  · rw [if_neg hj,List.length_singleton]
    split
    · rfl
    · rw [if_neg (by omega)]

/-- The loop: what lies from `v` to `v+n` goes up by one. -/
theorem shiftBack_spec {v n : ℕ} (hb : heap p=some b) (hn : v+n+1<b.length) : ∃ b',
    shiftBack heap p v n=some (Function.update heap p (some b')) ∧ b'.length=b.length ∧
    ∀ j,b'[j]?=if v+1≤j ∧ j≤v+n+1 then b[j-1]? else b[j]? := by
  induction n generalizing heap b with
  | zero =>
    obtain ⟨c,hc,hcopy⟩ := copyUp_spec hb hn
    refine ⟨_,hcopy,length_put (by simpa using hn),fun j => ?_⟩
    rw [getElem?_put_one (by omega)]
    by_cases hj : j=v+1
    · subst hj
      rw [if_pos rfl,if_pos (by omega),Nat.add_sub_cancel,hc]
    · rw [if_neg hj,if_neg (by omega)]
  | succ n ih =>
    obtain ⟨c,hc,hcopy⟩ := copyUp_spec hb (k := v+(n+1)) (by omega)
    have hl : (put b (v+(n+1)+1) [c]).length=b.length := length_put (by simpa using hn)
    obtain ⟨b',hshift,hlen,hat⟩ := ih
      (Function.update_self p (some (put b (v+(n+1)+1) [c])) heap) (by omega)
    refine ⟨b',?_,hlen.trans hl,fun j => ?_⟩
    · rw [shiftBack,hcopy,Option.bind_some,hshift,Function.update_idem]
    · rw [hat]
      by_cases hj : v+1≤j ∧ j≤v+n+1
      · rw [if_pos hj,if_pos (by omega),getElem?_put_one (by omega),if_neg (by omega)]
      · rw [if_neg hj,getElem?_put_one (by omega)]
        by_cases hj2 : j=v+(n+1)+1
        · subst hj2
          rw [if_pos rfl,if_pos (by omega),Nat.add_sub_cancel,hc]
        · rw [if_neg hj2,if_neg (by omega)]

end Bytes

/-- The string `x` at `off`, and the NUL behind it. -/
structure Text (b : List Byte) (off : ℕ) (x : List Byte) : Prop where
  bytes : ∀ k< x.length,b[off+k]?=x[k]?
  ended : b[off+x.length]?=some 0

/-- The header has this name and this value. -/
structure Holds (heap : Heap) (h : Header) (name value : List Byte) : Prop where
  nameLen : h.nameLen=name.length
  valLen : h.valLen=value.length
  bytes : ∃ p∈h.buf,∃ b∈heap p,Text b h.nameOffset name ∧ Text b h.valOffset value

theorem holds_moved {heap heap' : Heap} {h : Header} {name value : List Byte} (hh : Holds heap h name value)
    (hsame : ∀ p∈h.buf,heap' p=heap p) : Holds heap' h name value := by
  obtain ⟨hn,hv,p,hp,b,hb,ht⟩ := hh
  exact ⟨hn,hv,p,hp,b,by rw [hsame p hp]; exact hb,ht⟩

section Append
variable {s : Hdrset} {use rest : List Header} {h : Header} {p no nl vo vl : ℕ} {b name value : List Byte}

/-- What hsi_append leaves in the block: the two strings and their NULs. -/
theorem hsiAppend_spec (hs : Shape s use (⟨some p,no,nl,vo,vl⟩::rest)) (hb : s.heap p=some b) (hle : no+nl≤vo)
    (hn : name.length=nl) (hv : value.length=vl)
    (hname : ∀ k< nl,b[no+k]?=name[k]?) (hvalue : ∀ k< vl,b[vo+k]?=value[k]?)
    (hroom : if vo=no+nl then vo+vl+2≤b.length ∧ L.fit (vo+1)=vo+1 else vo+vl+1≤b.length) :
    ∃ b' h',hsiAppend L s s.count=some ⟨Function.update s.heap p (some b'),use++h'::rest,s.count+1⟩ ∧
      h'.buf=some p ∧ Holds (Function.update s.heap p (some b')) h' name value := by
  have hat : s.headers[s.count]?=some ⟨some p,no,nl,vo,vl⟩ := by
    rw [hs.headers,hs.count]
    simp
  have hset (h' : Header) : s.headers.set s.count h'=use++h'::rest := by
    rw [hs.headers,hs.count,List.set_append_right _ _ le_rfl]
    simp
  have hend : vo+vl<b.length := by
    split at hroom <;> omega
  have h1 : store s.heap p (vo+vl) [0]=some (Function.update s.heap p (some (put b (vo+vl) [0]))) :=
    store_some hb (by simpa using hend)
  have hl1 : (put b (vo+vl) [(0 : Byte)]).length=b.length := length_put (by simpa using hend)
  simp only [hsiAppend,hat,Option.bind_some,h1]
  by_cases hadj : vo=no+nl
  · rw [if_pos hadj] at hroom
    obtain ⟨b2,hshift,hl2,hat2⟩ := shiftBack_spec (v := vo) (n := vl)
      (Function.update_self p (some (put b (vo+vl) [0])) s.heap) (by omega)
    have h3 : store (Function.update (Function.update s.heap p (some (put b (vo+vl) [0]))) p (some b2)) p (no+nl) [0]=
        some (Function.update s.heap p (some (put b2 (no+nl) [0]))) := by
      rw [store_some (Function.update_self ..) (by rw [List.length_singleton]; omega),Function.update_idem,Function.update_idem]
    have hfin (j : ℕ) : (put b2 (no+nl) [(0 : Byte)])[j]?=if j=vo then some 0 else if vo+1≤j ∧ j≤vo+vl+1 then
        (put b (vo+vl) [(0 : Byte)])[j-1]? else (put b (vo+vl) [(0 : Byte)])[j]? := by
      rw [getElem?_put_one (by omega),hat2,←hadj]
    have hN : Text (put b2 (no+nl) [0]) no name := by
      refine ⟨fun k hk => ?_,?_⟩
      · rw [hfin,if_neg (by omega),if_neg (by omega),getElem?_put_one hend,if_neg (by omega)]
        exact hname k (by omega)
      · rw [hfin,if_pos (by rw [hn,hadj])]
    have hV : Text (put b2 (no+nl) [0]) (vo+1) value := by
      refine ⟨fun k hk => ?_,?_⟩
      · rw [hfin,if_neg (by omega),if_pos (by omega),getElem?_put_one hend,if_neg (by omega),←hvalue k (by omega)]
        congr 1
        omega
      · rw [hfin,if_neg (by omega),if_pos (by omega),getElem?_put_one hend,if_pos (by omega)]
    refine ⟨put b2 (no+nl) [0],⟨some p,no,nl,vo+1,vl⟩,?_,rfl,hn.symm,hv.symm,p,rfl,_,Function.update_self ..,hN,hV⟩
    rw [if_pos hadj,hshift]
    simp only [Option.map_some,Option.bind_some,hroom.2,h3,hset]
  · rw [if_neg hadj] at hroom
    have h3 : store (Function.update s.heap p (some (put b (vo+vl) [0]))) p (no+nl) [0]=
        some (Function.update s.heap p (some (put (put b (vo+vl) [0]) (no+nl) [0]))) := by
      rw [store_some (Function.update_self ..) (by rw [List.length_singleton]; omega),Function.update_idem]
    have hfin (j : ℕ) : (put (put b (vo+vl) [(0 : Byte)]) (no+nl) [0])[j]?=if j=no+nl then some 0 else
        if j=vo+vl then some 0 else b[j]? := by
      rw [getElem?_put_one (by omega),getElem?_put_one hend]
    have hN : Text (put (put b (vo+vl) [0]) (no+nl) [0]) no name := by
      refine ⟨fun k hk => ?_,?_⟩
      · rw [hfin,if_neg (by omega),if_neg (by omega)]
        exact hname k (by omega)
      · rw [hfin,if_pos (by rw [hn])]
    have hV : Text (put (put b (vo+vl) [0]) (no+nl) [0]) vo value := by
      refine ⟨fun k hk => ?_,?_⟩
      · rw [hfin,if_neg (by omega),if_neg (by omega)]
        exact hvalue k (by omega)
      · rw [hfin,if_neg (by omega),if_pos (by omega)]
    refine ⟨_,⟨some p,no,nl,vo,vl⟩,?_,rfl,hn.symm,hv.symm,p,rfl,_,Function.update_self ..,hN,hV⟩
    rw [if_neg hadj]
    simp only [Option.bind_some,h3,Option.map_some,hset]

end Append

/-! ### Runs -/

/-- The header behind the ones in use: its block is as long as was asked for, val_len is no longer, and what the decoder
has written is in it. -/
def Reading (s : Hdrset) (rest : List Header) (P : Pending) : Prop :=
  ∃ h rest' p b,rest=h::rest' ∧ h.buf=some p ∧ s.heap p=some b ∧ b.length=P.space+2 ∧ h.valLen≤b.length ∧
    ∀ k c,P.wrote k=some c → b[k]?=some c

/-- The headers in use hold what has been decoded. -/
def Inv (d : Decode) : Prop :=
  ∃ (ds : List (Header × List Byte × List Byte)) (rest : List Header),Shape d.set (ds.map (·.1)) rest ∧ d.done=ds.map (·.2) ∧
    (∀ x∈ds,Holds d.set.heap x.1 x.2.1 x.2.2) ∧ ∀ P∈d.pending,Reading d.set rest P

section Steps
variable {s : Hdrset} {use rest : List Header} {h : Header} {d : Decode} {heap' : Heap} {q : ℕ}

/-- The header behind the ones in use gets other fields, or another block. -/
theorem shape_replace (heap' : Heap) (h' : Header) (hs : Shape s use (h::rest)) (hq : h'.buf=some q) (hnew : heap' q≠none)
    (hfrom : h.buf=some q ∨ s.heap q=none) (hsame : ∀ r,r≠q → h.buf≠some r → heap' r=s.heap r) :
    Shape ⟨heap',s.headers.set s.count h',s.count⟩ use (h'::rest) ∧ ∀ x∈use,∀ p∈x.buf,heap' p=s.heap p := by
  have hset : s.headers.set s.count h'=use++h'::rest := by
    rw [hs.headers,hs.count,List.set_append_right _ _ le_rfl]
    simp
  have ho := hs.owned
  rw [hs.headers] at ho
  obtain ⟨ho',hkeep⟩ := owned_replace h' heap' ho hq hnew hfrom hsame
  refine ⟨⟨hset,hs.count,?_,?_⟩,fun x hx => hkeep x (List.mem_append_left _ hx)⟩
  · simp only [hset]
    exact ho'
  · simp only [List.length_set]
    exact hs.int

theorem header_behind (hs : Shape s use (h::rest)) : s.headers[s.count]?=some h := by
  rw [hs.headers,hs.count]
  simp

theorem holds_kept {ds : List (Header × List Byte × List Byte)} (hh : ∀ x∈ds,Holds s.heap x.1 x.2.1 x.2.2)
    (hkeep : ∀ x∈ds.map (·.1),∀ p∈x.buf,heap' p=s.heap p) : ∀ x∈ds,Holds heap' x.1 x.2.1 x.2.2 :=
  fun x hx => holds_moved (hh x hx) (hkeep x.1 (List.mem_map_of_mem hx))

/-- A size that has wrapped to a negative one. -/
theorem hdrsetAdd_neg {nlen vlen : ℤ} (hs : Shape s use rest) (hn : wrap (nlen+vlen+2)<0) (more : Bool) (mem : Mem) :
    ∃ s' rest',hdrsetAdd s nlen vlen more mem=some (s',false) ∧ Shape s' use rest' ∧ s'.heap=s.heap := by
  unfold hdrsetAdd
  obtain ⟨hg,-⟩ | ⟨h,rest',hg,hsh⟩ := grown_spec hs more
  · rw [hg]
    exact ⟨s,rest,rfl,hs,rfl⟩
  · have hat : (use++h::rest')[s.count]?=some h := by
      rw [hs.count]
      simp
    simp only [hg,hat,Option.bind_some,reallocInt,if_pos hn,realloc,Option.map_some]
    exact ⟨_,h::rest',rfl,hsh,rfl⟩

theorem predec_step {space : ℕ} {more : Bool} {mem : Mem} (hi : Inv d) (hd : decoder d (.predec space more mem))
    (hr : roomy L d (.predec space more mem)) : ∃ d',dstep L d (.predec space more mem)=some d' ∧ Inv d' := by
  obtain ⟨ds,rest,hs,hdone,hh,-⟩ := hi
  have hfail {s' : Hdrset} {rest' : List Header} (hadd : hdrsetAdd d.set 0 (wrap space) more mem=some (s',false))
      (hsh : Shape s' (ds.map (·.1)) rest') (hheap : s'.heap=d.set.heap) :
      ∃ d',dstep L d (.predec space more mem)=some d' ∧ Inv d' := by
    refine ⟨{d with set := s', pending := none},?_,ds,rest',hsh,hdone,fun x hx => ?_,fun P hP => by cases hP⟩
    · simp only [dstep,hsiPredec,hadd,Option.bind_some,Bool.false_eq_true,if_false,Option.map_some]
    · simp only [hheap]
      exact hh x hx
  obtain hneg | heq := hr
  · obtain ⟨s',rest',hadd,hsh,hheap⟩ := hdrsetAdd_neg hs hneg more mem
    exact hfail hadd hsh hheap
  · have heq' : wrap (0+wrap space+2)=((space+2 : ℕ) : ℤ) := by
      rw [Nat.cast_add]
      exact heq
    obtain ⟨s',rest',hadd,hsh,hheap,-⟩ | ⟨s',q,rest',hadd,hsh,hq,hkeep⟩ := hdrsetAdd_spec hs hd.2.2 heq' more
    · exact hfail hadd hsh hheap
    · obtain ⟨hsh',-⟩ := shape_replace s'.heap {buf := some q, valLen := L.room (sizeT (space+2))} hsh rfl
        (by rw [hq]; exact Option.some_ne_none _) (.inl rfl) (fun _ _ _ => rfl)
      refine ⟨⟨⟨s'.heap,s'.headers.set s'.count {buf := some q, valLen := L.room (sizeT (space+2))},s'.count⟩,
        some ⟨space,fun _ => none⟩,d.done⟩,?_,ds,_,hsh',hdone,holds_kept hh hkeep,fun P hP => ?_⟩
      · simp only [dstep,hsiPredec,hadd,Option.bind_some,if_true,header_behind hsh,Option.map_some]
      cases hP
      refine ⟨_,rest',q,_,rfl,rfl,hq,List.length_replicate,?_,fun k c hk => by cases hk⟩
      rw [List.length_replicate]
      exact (L.room_le _).trans (Nat.mod_le ..)

theorem again_step {space : ℕ} {mem : Mem} (hi : Inv d) (hd : decoder d (.again space mem)) (hr : roomy L d (.again space mem)) :
    ∃ d',dstep L d (.again space mem)=some d' ∧ Inv d' := by
  obtain ⟨ds,rest,hs,hdone,hh,hpend⟩ := hi
  obtain ⟨⟨P,hP,hlarger⟩,-,hf⟩ := hd
  obtain ⟨h,rest',p,b,rfl,hp,hb,hlen,hval,hwrote⟩ := hpend P hP
  have hsize : sizeT (space+2)=space+2 := Nat.mod_eq_of_lt hr
  have hbuf (a : ℕ) (ha : a∈h.buf) : d.set.heap a≠none := by
    rw [hp] at ha
    cases ha
    rw [hb]
    exact Option.some_ne_none _
  obtain ⟨hre,-⟩ | ⟨heap',q,b',hre,hq,hlen',hold,hfrom,hsame⟩ := realloc_spec (n := space+2) hbuf hf
  · refine ⟨d,?_,ds,_,hs,hdone,hh,hpend⟩
    simp only [dstep,hsiPredec,header_behind hs,Option.bind_some,hsize,hre,Option.map_some,Bool.false_eq_true,if_false]
  · obtain ⟨hsh',hkeep⟩ := shape_replace heap' {h with buf := some q, valLen := L.fit (space+2)} hs rfl
      (by rw [hq]; exact Option.some_ne_none _) hfrom (fun r hr hne => hsame r hr hne)
    refine ⟨⟨⟨heap',d.set.headers.set d.set.count {h with buf := some q, valLen := L.fit (space+2)},d.set.count⟩,
      some {P with space := space},d.done⟩,?_,ds,_,hsh',hdone,holds_kept hh hkeep,fun P' hP' => ?_⟩
    · have hP'' : d.pending=some P := hP
      simp only [dstep,hsiPredec,header_behind hs,Option.bind_some,hsize,hre,Option.map_some,if_true,hP'']
    cases hP'
    refine ⟨_,rest',q,b',rfl,rfl,hq,hlen',?_,fun k c hk => ?_⟩
    · rw [hlen']
      exact L.fit_le _
    · have hk' := hwrote k c hk
      have hlt : k<b.length := (List.getElem?_eq_some_iff.mp hk').1
      have htake := hold p hp b hb b.length (by omega) le_rfl
      have := congrArg (·[k]?) htake
      simp only [List.getElem?_take,if_pos hlt] at this
      rw [this,hk']

theorem fill_step {pos : ℕ} {x : List Byte} (hi : Inv d) (hd : decoder d (.fill pos x)) :
    ∃ d',dstep L d (.fill pos x)=some d' ∧ Inv d' := by
  obtain ⟨ds,rest,hs,hdone,hh,hpend⟩ := hi
  obtain ⟨hsome,hin⟩ := hd
  obtain ⟨P,hP⟩ := Option.isSome_iff_exists.mp hsome
  obtain ⟨h,rest',p,b,rfl,hp,hb,hlen,hval,hwrote⟩ := hpend P hP
  have hat := header_behind hs
  have htold : told d=h.valLen := by rw [told,hat]; rfl
  have hstore := store_some (x := x) hb (show pos+x.length≤b.length by omega)
  have hset : d.set.headers.set d.set.count h=d.set.headers := by
    rw [hs.headers,hs.count]
    simp
  obtain ⟨hsh',hkeep⟩ := shape_replace (Function.update d.set.heap p (some (put b pos x))) h hs hp
    (by rw [Function.update_self]; exact Option.some_ne_none _) (.inl hp) (fun r hr _ => Function.update_of_ne hr ..)
  rw [hset] at hsh'
  refine ⟨⟨⟨Function.update d.set.heap p (some (put b pos x)),d.set.headers,d.set.count⟩,some (P.fill pos x),d.done⟩,?_,
    ds,_,hsh',hdone,holds_kept hh hkeep,fun P' hP' => ?_⟩
  · simp only [dstep,hat,Option.bind_some,hp,hstore,Option.map_some,hP]
  cases hP'
  have hl : (put b pos x).length=b.length := length_put (by omega)
  refine ⟨h,rest',p,_,rfl,hp,Function.update_self ..,hl.trans hlen,hval.trans hl.ge,fun k c hk => ?_⟩
  rw [getElem?_put (by omega)]
  simp only [Pending.fill] at hk
  by_cases h1 : k<pos
  · rw [if_pos h1] at hk ⊢
    exact hwrote k c hk
  · rw [if_neg h1] at hk ⊢
    split at hk
    · rename_i h2
      rw [if_pos h2]
      exact hk
    · rename_i h2
      rw [if_neg h2]
      exact hwrote k c hk

theorem append_step {no nl vo vl : ℕ} (hi : Inv d) (hd : decoder d (.append no nl vo vl))
    (hr : roomy L d (.append no nl vo vl)) : ∃ d',dstep L d (.append no nl vo vl)=some d' ∧ Inv d' := by
  obtain ⟨ds,rest,hs,hdone,hh,hpend⟩ := hi
  obtain ⟨hle,-,P,hP,hname,hvalue⟩ := hd
  obtain ⟨h,rest',p,b,rfl,hp,hb,hlen,-,hwrote⟩ := hpend P hP
  have hat := header_behind hs
  obtain ⟨hsh,-⟩ := shape_replace d.set.heap ⟨h.buf,no,nl,vo,vl⟩ hs hp
    (by rw [hb]; exact Option.some_ne_none _) (.inl hp) (fun _ _ _ => rfl)
  simp only [hp] at hsh
  have hread {off len k : ℕ} (hw : ∀ k< len,(P.wrote (off+k)).isSome) (hk : k<len) : b[off+k]?=(P.read off len)[k]? := by
    obtain ⟨c,hc⟩ := Option.isSome_iff_exists.mp (hw k hk)
    rw [hwrote _ c hc,Pending.read,List.getElem?_map,List.getElem?_range hk,Option.map_some,hc,Option.getD_some]
  have hlength (off len : ℕ) : (P.read off len).length=len := by rw [Pending.read,List.length_map,List.length_range]
  obtain ⟨b',h',happ,hq,hholds⟩ := hsiAppend_spec L hsh hb hle (hlength no nl) (hlength vo vl) (fun k hk => hread hname hk)
    (fun k hk => hread hvalue hk) (by
      have := hr P hP
      split at this
      · rw [if_pos (by assumption)]
        exact ⟨by omega,this.2⟩
      · rw [if_neg (by assumption)]
        omega)
  obtain ⟨hsh',hkeep⟩ := shape_replace (Function.update d.set.heap p (some b')) h' hs hq
    (by rw [Function.update_self]; exact Option.some_ne_none _) (.inl hp) (fun r hr _ => Function.update_of_ne hr ..)
  have hform := hsh'.headers
  simp only at hform
  refine ⟨⟨⟨Function.update d.set.heap p (some b'),ds.map (·.1)++h'::rest',d.set.count+1⟩,none,
    d.done++[(P.read no nl,P.read vo vl)]⟩,?_,ds++[(h',P.read no nl,P.read vo vl)],rest',⟨?_,?_,?_,?_⟩,?_,?_,?_⟩
  · have hP' : d.pending=some P := hP
    simp only [dstep,hP',Option.bind_some,hat,hp,happ,Option.map_some]
  · simp
  · have hcount := hs.count
    simp only [List.length_map,List.length_append,List.length_singleton] at hcount ⊢
    omega
  · have ho := hsh'.owned
    simp only [hform] at ho
    exact ho
  · have hint := hsh'.int
    simp only [hform] at hint
    exact hint
  · simp only [hdone,List.map_append,List.map_singleton]
  · intro x hx
    rw [List.mem_append,List.mem_singleton] at hx
    obtain hx | rfl := hx
    · exact holds_kept hh hkeep x hx
    · exact hholds
  · intro P' hP'
    cases hP'

theorem decode_step {a : Act} (hi : Inv d) (hd : decoder d a) (hr : roomy L d a) : ∃ d',dstep L d a=some d' ∧ Inv d' := by
  cases a with
  | predec space more mem => exact predec_step L hi hd hr
  | again space mem => exact again_step L hi hd hr
  | fill pos x => exact fill_step L hi hd
  | append no nl vo vl => exact append_step L hi hd hr

end Steps

/-- lsqpack at work, where the sizes work out. -/
def decoding (d : Decode) (a : Act) : Prop := decoder d a ∧ roomy L d a

instance (d : Decode) (a : Act) : Decidable (decoding L d a) := inferInstanceAs (Decidable (_ ∧ _))

/-- Into an empty set: no byte is stored outside of the header's block, and each header of the set has the name and the
value that were decoded, ended by NULs. -/
theorem decode_kept {s : Hdrset} {d : Decode} (he : Empty s) (hr : Reach (dstep L) (decoding L) {set := s} d) :
    (d.set.count=d.done.length ∧ ∀ j (hj : j<d.done.length),∃ h,d.set.headers[j]?=some h ∧
      Holds d.set.heap h d.done[j].1 d.done[j].2) ∧
    ∀ a,decoding L d a → dstep L d a≠none := by
  have hi : Inv d := by
    apply hr.invariant
    · exact ⟨[],s.headers,⟨rfl,he.count,he.owned,he.int⟩,rfl,by simp,fun P hP => by cases hP⟩
    · intro t a u ht ha hu
      obtain ⟨d',hd',hi⟩ := decode_step L ht ha.1 ha.2
      rw [hd'] at hu
      cases hu
      exact hi
  constructor
  · obtain ⟨ds,rest,hs,hdone,hh,-⟩ := hi
    have hlen := congrArg List.length hdone
    rw [List.length_map] at hlen
    refine ⟨by rw [hs.count,List.length_map,hlen],fun j hj => ⟨ds[j].1,?_,?_⟩⟩
    · rw [hs.headers,List.getElem?_append_left (by rw [List.length_map]; omega),List.getElem?_map,
        List.getElem?_eq_getElem (by omega)]
      rfl
    · have hx := hh ds[j] (List.getElem_mem (by omega))
      have hj' : d.done[j]=ds[j].2 := by
        simp only [hdone,List.getElem_map]
      rw [hj']
      exact hx
  · intro a ha
    obtain ⟨d',hd',-⟩ := decode_step L hi ha.1 ha.2
    rw [hd']
    exact Option.some_ne_none _

/-- Lengths of 16 bits. -/
def lsxpack16 : Lsxpack := ⟨fun n => n%65536,fun n => min n 65535,fun n => Nat.mod_le n _,fun n => min_le_left n _⟩

def block (q : ℕ) : Mem := some ⟨some q,fun _ => 7⟩

/-- "ab" is asked for with one byte, then with four; its value "cd" comes right behind. -/
theorem decode_kept_two : ∃ d,Reach (dstep lsxpack16) (decoding lsxpack16) {set := {headers := []}} d ∧
    d.done=[([97,98],[99,100])] ∧ ∃ h,d.set.headers[0]?=some h ∧ Holds d.set.heap h [97,98] [99,100] := by
  have hrun : (execOk (dstep lsxpack16) (decoding lsxpack16) {set := {headers := []}} [.predec 1 true (block 1),
      .fill 0 [97],.again 4 (block 2),.fill 1 [98,99,100],.append 0 2 2 2]).any
      (fun d => decide (d.done=[([97,98],[99,100])]))=true := by decide +kernel
  obtain ⟨d,hd,hf⟩ := (Option.any_eq_true _ _).mp hrun
  have hr := execOk_reach hd
  have hdone := of_decide_eq_true hf
  have hempty : Empty {headers := []} := ⟨rfl,⟨List.nodup_nil,fun p hp => by cases hp⟩,by decide⟩
  obtain ⟨⟨-,hall⟩,-⟩ := decode_kept lsxpack16 hempty hr
  obtain ⟨h,hat,hh⟩ := hall 0 (by rw [hdone]; decide)
  simp only [hdone,List.getElem_cons_zero] at hh
  exact ⟨d,hr,hdone,h,hat,hh⟩

/-- A header that fills the six bytes it was told to have: its NUL goes to the seventh. -/
theorem decode_outside : ¬∀ d a,Reach (dstep lsxpack16) decoder {set := {headers := []}} d → decoder d a →
    dstep lsxpack16 d a≠none := by
  intro hall
  have hrun : (execOk (dstep lsxpack16) decoder {set := {headers := []}} [.predec 4 true (block 1),
      .fill 0 [97,98,99,100,101,102]]).any
      (fun d => decide (decoder d (.append 0 3 3 3) ∧ (dstep lsxpack16 d (.append 0 3 3 3)).isNone))=true := by decide +kernel
  obtain ⟨d,hd,hf⟩ := (Option.any_eq_true _ _).mp hrun
  obtain ⟨ha,hn⟩ := of_decide_eq_true hf
  exact hall d _ (execOk_reach hd) ha (Option.isNone_iff_eq_none.mp hn)

end Dpapp.QicDecode
