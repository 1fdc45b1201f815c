import Mathlib.Data.List.Basic
import Mathlib.Tactic.Common

/-! # Lists of names, each behind a byte with its length

The names have 1 to 255 bytes. -/

namespace Dpapp.Framed

abbrev Byte := UInt8

def frame (x : List Byte) : List Byte := UInt8.ofNat x.length::x

def encode (xs : List (List Byte)) : List Byte := xs.flatMap frame

/-- Frame by frame, with nothing left over. A frame has at least one byte, so that the number of bytes is enough fuel. -/
def parse : ℕ → List Byte → Option (List (List Byte))
  | _,[] => some []
  | 0,_ => none
  | n+1,b::bs =>
      if b.toNat=0 ∨ bs.length<b.toNat then none
      else (parse n (bs.drop b.toNat)).map (bs.take b.toNat::·)

def decode (bs : List Byte) : Option (List (List Byte)) := parse bs.length bs

/-- A length that its byte can tell. -/
def Sized (x : List Byte) : Prop := 0<x.length ∧ x.length≤255

variable {xs : List (List Byte)} {x bs : List Byte} {n : ℕ}

theorem encode_append (xs ys : List (List Byte)) : encode (xs++ys)=encode xs++encode ys := List.flatMap_append

theorem toNat_ofNat (h : Sized x) : (UInt8.ofNat x.length).toNat=x.length := by
  rw [UInt8.toNat_ofNat']
  exact Nat.mod_eq_of_lt (Nat.lt_succ_of_le h.2)

/-- The first frame comes off the front. -/
theorem parse_frame (h : Sized x) : parse (n+1) (frame x++bs)=(parse n bs).map (x::·) := by
  have hpos := h.1
  rw [frame,List.cons_append,parse,toNat_ofNat h,if_neg]
  · rw [List.drop_left,List.take_left]
  · rw [List.length_append]
    omega

theorem parse_encode (h : ∀ x∈xs,Sized x) (hn : (encode xs).length≤n) : parse n (encode xs)=some xs := by
  induction xs generalizing n with
  | nil => cases n <;> rfl
  | cons x xs ih =>
    have hlen : (encode (x::xs)).length=x.length+1+(encode xs).length := by
      rw [encode,List.flatMap_cons,List.length_append]
      rfl
    obtain ⟨m,rfl⟩ : ∃ m,n=m+1 := ⟨n-1,by omega⟩
    rw [encode,List.flatMap_cons,parse_frame (h x List.mem_cons_self)]
    change (parse m (encode xs)).map _=_
    rw [ih (fun y hy => h y (List.mem_cons_of_mem x hy)) (by omega)]
    rfl

theorem decode_encode (h : ∀ x∈xs,Sized x) : decode (encode xs)=some xs := parse_encode h (Nat.le_refl _)

end Dpapp.Framed
