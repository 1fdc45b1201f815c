import Dpapp.Radix

/-! # Records behind a header

A header has a fixed size and tells how many bytes follow it. -/

namespace Dpapp.Headed

abbrev Byte := UInt8

/-! ### Words -/

/-- A word of four bytes, the low byte first. -/
def word (w : BitVec 32) : List Byte := (Radix.digits 256 4 w.toNat).reverse.map UInt8.ofNat

def ofWord (bs : List Byte) : BitVec 32 := BitVec.ofNat 32 (Radix.value 256 (bs.reverse.map UInt8.toNat))

theorem length_word (w : BitVec 32) : (word w).length=4 := by
  rw [word,List.length_map,List.length_reverse,Radix.length_digits]

theorem ofWord_word (w : BitVec 32) : ofWord (word w)=w := by
  have hmap : ((word w).reverse.map UInt8.toNat)=Radix.digits 256 4 w.toNat := by
    rw [word,← List.map_reverse,List.reverse_reverse,List.map_map]
    refine (List.map_congr_left fun d hd => ?_).trans (List.map_id _)
    exact (UInt8.toNat_ofNat').trans (Nat.mod_eq_of_lt (Radix.digits_lt (by decide) 4 _ d hd))
  rw [ofWord,hmap,Radix.value_digits,Nat.mod_eq_of_lt (show w.toNat<256^4 from w.isLt),BitVec.ofNat_toNat,BitVec.setWidth_eq]

theorem take_word (w : BitVec 32) (bs : List Byte) : (word w++bs).take 4=word w := List.take_left' (length_word w)

theorem drop_word (w : BitVec 32) (bs : List Byte) : (word w++bs).drop 4=bs := List.drop_left' (length_word w)

/-! ### Headers -/

structure Header (η : Type*) where
  size : ℕ
  put : η → List Byte
  get : List Byte → η
  len : η → ℕ
  pos : 0<size
  length_put : ∀ h,(put h).length=size
  get_put : ∀ h,get (put h)=h

variable {η : Type*} (f : Header η)

def Header.encode (xs : List (η × List Byte)) : List Byte := xs.flatMap fun x => f.put x.1++x.2

/-- Record by record, with nothing left over. A header has at least one byte, so that the number of bytes is enough fuel. -/
def Header.parse : ℕ → List Byte → Option (List (η × List Byte))
  | _,[] => some []
  | 0,_ => none
  | n+1,bs =>
      let h := f.get (bs.take f.size)
      if bs.length<f.size+f.len h then none
      else (parse n (bs.drop (f.size+f.len h))).map ((h,(bs.drop f.size).take (f.len h))::·)

def Header.decode (bs : List Byte) : Option (List (η × List Byte)) := f.parse bs.length bs

variable {f} {xs : List (η × List Byte)} {x : η × List Byte} {bs : List Byte} {n : ℕ}

theorem encode_append (xs ys : List (η × List Byte)) : f.encode (xs++ys)=f.encode xs++f.encode ys := List.flatMap_append

/-- The first record comes off the front. -/
theorem parse_record (h : f.len x.1=x.2.length) : f.parse (n+1) (f.put x.1++x.2++bs)=(f.parse n bs).map (x::·) := by
  have hput := f.length_put x.1
  have hpos := f.pos
  obtain ⟨b,rest,hb⟩ : ∃ b rest,f.put x.1++x.2++bs=b::rest := by
    refine List.exists_cons_of_ne_nil fun hnil => ?_
    have hlen := congrArg List.length hnil
    simp only [List.length_append,List.length_nil] at hlen
    omega
  have htake : (f.put x.1++x.2++bs).take f.size=f.put x.1 := by
    rw [List.append_assoc,← hput,List.take_left]
  have hdrop : (f.put x.1++x.2++bs).drop f.size=x.2++bs := by
    rw [List.append_assoc,← hput,List.drop_left]
  have hrest : (f.put x.1++x.2++bs).drop (f.size+x.2.length)=bs := by
    rw [← List.drop_drop,hdrop,List.drop_left]
  have hlen : ¬(f.put x.1++x.2++bs).length<f.size+x.2.length := by
    simp only [List.length_append]
    omega
  have hstep : f.parse (n+1) (f.put x.1++x.2++bs)=
      (let h := f.get ((f.put x.1++x.2++bs).take f.size)
      if (f.put x.1++x.2++bs).length<f.size+f.len h then none
      else (f.parse n ((f.put x.1++x.2++bs).drop (f.size+f.len h))).map
        ((h,((f.put x.1++x.2++bs).drop f.size).take (f.len h))::·)) := by
    rw [hb]
    rfl
  rw [hstep]
  simp only [htake,f.get_put,h,hdrop,hrest,List.take_left]
  exact if_neg hlen

theorem parse_encode (h : ∀ x∈xs,f.len x.1=x.2.length) (hn : (f.encode xs).length≤n) : f.parse n (f.encode xs)=some xs := by
  induction xs generalizing n with
  | nil => cases n <;> rfl
  | cons x xs ih =>
    have hcons : f.encode (x::xs)=f.put x.1++x.2++f.encode xs := List.flatMap_cons
    have hput := f.length_put x.1
    have hpos := f.pos
    rw [hcons,List.length_append,List.length_append] at hn
    obtain ⟨m,rfl⟩ : ∃ m,n=m+1 := ⟨n-1,by omega⟩
    rw [hcons,parse_record (h x List.mem_cons_self),ih (fun y hy => h y (List.mem_cons_of_mem x hy)) (by omega)]
    rfl

theorem decode_encode (h : ∀ x∈xs,f.len x.1=x.2.length) : f.decode (f.encode xs)=some xs := parse_encode h (Nat.le_refl _)

end Dpapp.Headed
