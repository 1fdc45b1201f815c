import Dpapp.Segment

/-! # Control messages in a block of memory (struct cmsghdr, CMSG_FIRSTHDR, CMSG_NXTHDR) -/

namespace Dpapp.Cmsg
open Dpapp.Segment

/-- `k` bytes, the lowest first. -/
def little : ℕ → ℕ → List UInt8
  | 0,_ => []
  | k+1,n => UInt8.ofNat n::little k (n/256)

def value : List UInt8 → ℕ
  | [] => 0
  | c::l => c.toNat+256*value l

@[simp] theorem length_little (k n : ℕ) : (little k n).length=k := by
  induction k generalizing n with
  | zero => rfl
  | succ k ih => rw [little,List.length_cons,ih]

theorem value_little (k n : ℕ) : value (little k n)=n%256^k := by
  induction k generalizing n with
  | zero => simp [little,value,Nat.mod_one]
  | succ k ih =>
      have hbyte : (UInt8.ofNat n).toNat=n%256 := by simp
      rw [little,value,ih,hbyte,Nat.pow_succ',Nat.mod_mul]

structure Msg where
  level : ℕ
  type : ℕ
  data : List UInt8
  deriving DecidableEq

/- CMSG_ALIGN, CMSG_LEN, CMSG_SPACE -/
def align (n : ℕ) : ℕ := (n+7)/8*8
def Msg.len (m : Msg) : ℕ := 16+m.data.length
def Msg.space (m : Msg) : ℕ := align m.len

/-- What the fields of a cmsghdr can hold. -/
structure Msg.Valid (m : Msg) : Prop where
  level : m.level<2^32
  type : m.type<2^32
  len : m.len<2^64

def Msg.pad (m : Msg) : List UInt8 := List.replicate (m.space-m.len) 0

def Msg.encode (m : Msg) : List UInt8 := little 8 m.len++little 4 m.level++little 4 m.type++m.data++m.pad

theorem le_align (n : ℕ) : n≤align n := by
  unfold align
  omega

theorem Msg.length_encode (m : Msg) : m.encode.length=m.space := by
  have h := le_align m.len
  simp only [encode,pad,List.length_append,length_little,List.length_replicate]
  unfold space len at *
  omega

theorem Msg.encode_pos (m : Msg) : 16≤ m.encode.length := by
  rw [m.length_encode]
  exact Nat.le_trans (Nat.le_add_right 16 _) (le_align m.len)

/-- A cmsghdr, and the memory from CMSG_DATA on. -/
structure Header where
  level : ℕ
  type : ℕ
  len : ℕ
  rest : List UInt8

def lenAt (ctl : List UInt8) (pos : ℕ) : ℕ := value (seg ctl pos (pos+8))

def headerAt (ctl : List UInt8) (pos : ℕ) : Header :=
  ⟨value (seg ctl (pos+8) (pos+12)),value (seg ctl (pos+12) (pos+16)),lenAt ctl pos,ctl.drop (pos+16)⟩

/- The second test of CMSG_NXTHDR reads the length of the next message, which a block of zeros passes. -/
def first (controllen : ℕ) : Option ℕ := if 16≤controllen then some 0 else none

def next (ctl : List UInt8) (controllen pos : ℕ) : Option ℕ :=
  if lenAt ctl pos<16 then none
  else
    let q := pos+align (lenAt ctl pos)
    if controllen<q+16 ∨ controllen<q+align (lenAt ctl q) then none else some q

def walk (ctl : List UInt8) (controllen : ℕ) : ℕ → Option ℕ → List Header
  | k+1,some pos => headerAt ctl pos::walk ctl controllen k (next ctl controllen pos)
  | _,_ => []

/-- The messages that a loop with CMSG_FIRSTHDR and CMSG_NXTHDR visits; each takes 16 bytes at least. -/
def headers (ctl : List UInt8) (controllen : ℕ) : List Header := walk ctl controllen controllen (first controllen)

/-! ### Messages that have been encoded one after another -/

def encodeAll (l : List Msg) : List UInt8 := l.flatMap Msg.encode

/-- What a loop finds of these messages when `z` lies behind them. -/
def found (z : List UInt8) : List Msg → List Header
  | [] => []
  | m::l => ⟨m.level,m.type,m.len,m.data++m.pad++(encodeAll l++z)⟩::found z l

theorem seg_mid {x y z : List UInt8} {a b : ℕ} (ha : a=x.length) (hb : b=a+y.length) : seg (x++(y++z)) a b=y := by
  subst ha
  subst hb
  rw [seg,List.drop_left,Nat.add_sub_cancel_left,List.take_left]

variable {m : Msg} {l : List Msg} {x z : List UInt8}

theorem lenAt_encode (h : m.Valid) : lenAt (x++(m.encode++z)) x.length=m.len := by
  have hsplit : x++(m.encode++z)=x++(little 8 m.len++(little 4 m.level++little 4 m.type++m.data++m.pad++z)) := by
    simp [Msg.encode]
  rw [lenAt,hsplit,seg_mid rfl (by rw [length_little]),value_little]
  exact Nat.mod_eq_of_lt h.len

theorem headerAt_encode (h : m.Valid) :
    headerAt (x++(m.encode++z)) x.length=⟨m.level,m.type,m.len,m.data++m.pad++z⟩ := by
  have hlevel : x++(m.encode++z)=(x++little 8 m.len)++(little 4 m.level++(little 4 m.type++m.data++m.pad++z)) := by
    simp [Msg.encode]
  have htype : x++(m.encode++z)=(x++little 8 m.len++little 4 m.level)++(little 4 m.type++(m.data++m.pad++z)) := by
    simp [Msg.encode]
  have hdata : x++(m.encode++z)=(x++little 8 m.len++little 4 m.level++little 4 m.type)++(m.data++m.pad++z) := by
    simp [Msg.encode]
  have h1 : value (seg (x++(m.encode++z)) (x.length+8) (x.length+12))=m.level := by
    rw [hlevel,seg_mid (by simp) (by simp),value_little]
    exact Nat.mod_eq_of_lt h.level
  have h2 : value (seg (x++(m.encode++z)) (x.length+12) (x.length+16))=m.type := by
    rw [htype,seg_mid (by simp) (by simp),value_little]
    exact Nat.mod_eq_of_lt h.type
  have h3 : (x++(m.encode++z)).drop (x.length+16)=m.data++m.pad++z := by
    rw [hdata]
    exact List.drop_left' (by simp)
  rw [headerAt,h1,h2,h3,lenAt_encode h]

/-- The loop goes on behind a message when there is another one, and ends when the control data do. -/
theorem next_encode {q : Msg} (h : m.Valid) (hq : q.Valid) {n : ℕ} (hn : x.length+m.space+q.space≤n) :
    next (x++(m.encode++(q.encode++z))) n x.length=some (x++m.encode).length := by
  have hm := lenAt_encode (x := x) (z := q.encode++z) h
  have hlen : x.length+align m.len=(x++m.encode).length := by rw [List.length_append,m.length_encode]; rfl
  have hnext : lenAt (x++(m.encode++(q.encode++z))) (x++m.encode).length=q.len := by
    rw [← List.append_assoc]
    exact lenAt_encode hq
  have hpos : 16≤ m.len ∧ 16≤q.len := ⟨Nat.le_add_right _ _,Nat.le_add_right _ _⟩
  have hq' : q.len≤q.space := le_align _
  have hspace : (x++m.encode).length=x.length+m.space := by rw [List.length_append,m.length_encode]
  rw [next,hm,if_neg (by omega)]
  simp only [hlen,hnext]
  rw [if_neg]
  simp only [hspace,Msg.space] at *
  omega

theorem next_last (h : m.Valid) {n : ℕ} (hn : n≤x.length+m.space) : next (x++(m.encode++z)) n x.length=none := by
  have hm := lenAt_encode (x := x) (z := z) h
  rw [next,hm]
  split
  · rfl
  · rw [if_pos]
    unfold Msg.space at hn
    omega

theorem value_zeros (n : ℕ) : value (List.replicate n 0)=0 := by
  induction n with
  | zero => rfl
  | succ n ih => rw [List.replicate_succ,value,ih]; rfl

/-- Behind a message in a block of zeros there is room for another one. -/
theorem next_zeros (h : m.Valid) {n k : ℕ} (hn : x.length+m.space+16≤n) :
    next (x++(m.encode++List.replicate k 0)) n x.length=some (x++m.encode).length := by
  have hm := lenAt_encode (x := x) (z := List.replicate k 0) h
  have hlen : x.length+align m.len=(x++m.encode).length := by rw [List.length_append,m.length_encode]; rfl
  have hzero : lenAt (x++(m.encode++List.replicate k 0)) (x++m.encode).length=0 := by
    rw [← List.append_assoc,lenAt,seg,List.drop_left,List.take_replicate,value_zeros]
  have hpos : 16≤ m.len := Nat.le_add_right _ _
  have hspace : (x++m.encode).length=x.length+m.space := by rw [List.length_append,m.length_encode]
  rw [next,hm,if_neg (by omega)]
  simp only [hlen,hzero]
  rw [if_neg]
  simp only [hspace,align]
  omega

theorem encodeAll_cons : encodeAll (m::l)=m.encode++encodeAll l := by rw [encodeAll,List.flatMap_cons]; rfl

theorem length_le_encodeAll : l.length≤(encodeAll l).length := by
  induction l with
  | nil => exact Nat.zero_le _
  | cons m l ih =>
      have := m.encode_pos
      rw [encodeAll_cons,List.length_append,List.length_cons]
      omega

theorem walk_encode (hl : ∀ q∈m::l,q.Valid) {k : ℕ} (hk : l.length<k) :
    walk (x++(encodeAll (m::l)++z)) (x.length+(encodeAll (m::l)).length) k (some x.length)=found z (m::l) := by
  induction l generalizing m x k with
  | nil =>
      obtain ⟨k,rfl⟩ := Nat.exists_eq_succ_of_ne_zero (Nat.pos_iff_ne_zero.1 hk)
      have hm : m.Valid := hl m List.mem_cons_self
      have hnil : encodeAll [m]=m.encode := by simp [encodeAll]
      rw [hnil,walk,headerAt_encode hm,next_last hm (by rw [m.length_encode])]
      cases k <;> simp [walk,found,encodeAll]
  | cons q l ih =>
      obtain ⟨k,rfl⟩ := Nat.exists_eq_succ_of_ne_zero (Nat.pos_iff_ne_zero.1 (Nat.zero_lt_of_lt hk))
      have hm : m.Valid := hl m List.mem_cons_self
      have hq : q.Valid := hl q (by simp)
      have hblock : x++(encodeAll (m::q::l)++z)=x++(m.encode++(encodeAll (q::l)++z)) := by
        rw [encodeAll_cons,List.append_assoc]
      have hgo : next (x++(m.encode++(encodeAll (q::l)++z))) (x.length+(encodeAll (m::q::l)).length) x.length=
          some (x++m.encode).length := by
        have hq2 : encodeAll (q::l)++z=q.encode++(encodeAll l++z) := by rw [encodeAll_cons,List.append_assoc]
        rw [hq2]
        apply next_encode hm hq
        rw [encodeAll_cons,encodeAll_cons,List.length_append,List.length_append,m.length_encode,q.length_encode]
        omega
      have hlen : x.length+(encodeAll (m::q::l)).length=(x++m.encode).length+(encodeAll (q::l)).length := by
        rw [encodeAll_cons,List.length_append,List.length_append]
        omega
      have hrest := ih (m := q) (x := x++m.encode) (fun r hr => hl r (List.mem_cons_of_mem m hr)) (k := k)
        (by simp only [List.length_cons] at hk; omega)
      rw [List.append_assoc] at hrest
      rw [hblock,walk,headerAt_encode hm,hgo,hlen,hrest]
      simp only [found,List.append_assoc]

/-- A loop over control data visits the messages that have been put there, in order. -/
theorem headers_encode (hl : ∀ q∈l,q.Valid) : headers (encodeAll l++z) (encodeAll l).length=found z l := by
  have hsize := length_le_encodeAll (l := l)
  cases l with
  | nil => rfl
  | cons m l =>
      have hpos : 16≤(encodeAll (m::l)).length := by
        have := m.encode_pos
        rw [encodeAll_cons,List.length_append]
        omega
      have hwalk := walk_encode (x := []) (z := z) hl (k := (encodeAll (m::l)).length)
        (by simp only [List.length_cons] at hsize; omega)
      rw [headers,first,if_pos hpos]
      simpa using hwalk

end Dpapp.Cmsg
