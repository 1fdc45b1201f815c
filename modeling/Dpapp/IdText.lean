import Dpapp.Dpbuf
import Dpapp.Radix

/-! # Ids as texts of eleven base-62 digits (dpcwc_aux.c, dpcpp_aux.cc, dplua_ext.c) -/

namespace Dpapp.IdText
open Dpapp.Dpbuf

def base62Chars : List Byte :=
  "0123456789ABCDEFGHIJKLMNOPQRSTUVWXYZabcdefghijklmnopqrstuvwxyz".toList.map fun c => UInt8.ofNat c.toNat

def charOf (k : ℕ) : Byte := base62Chars.getD k 0

/-- The loop of `_to_base62`; the argument is `i+1`. -/
def fill : ℕ → BitVec 64 → List Byte → List Byte
  | 0,_,buffer => buffer
  | i+1,value,buffer =>
      if value>0 then fill i (value/62) (buffer.set i (charOf (value%62).toNat)) else buffer

/-- `_to_base62` of dpcwc and dplua and `to_base62` of dpcpp, on the bytes that the caller's pointer leads to. -/
def toBase62 (value : BitVec 64) (buffer : List Byte) : List Byte :=
  fill 11 value (List.replicate 11 48++buffer.drop 11)

/-- The if chain on a character as an int. -/
def digit (c : ℤ) : Option ℤ :=
  if 48≤c ∧ c≤57 then some (c-48)
  else if 65≤c ∧ c≤90 then some (10+(c-65))
  else if 97≤c ∧ c≤122 then some (36+(c-97))
  else none

/-- `int c = b62[i]`: a char is signed. -/
def signed (b : Byte) : ℤ := b.toBitVec.toInt

/-- `int l = strlen(b62); if (l > 11) l = 11;` -/
def intLen (s : List Byte) : ℤ := if wrap s.length>11 then 11 else wrap s.length

/-- The loop of dpcwc: a foreign character sets v to 0 and breaks. -/
def cwcLoop : List Byte → BitVec 64 → BitVec 64
  | [],v => v
  | b::bs,v => match digit (signed b) with
      | some c => cwcLoop bs (v*62+BitVec.ofInt 64 c)
      | none => 0

/-- The loop of dpcpp and dplua: a foreign character returns from the function, here as `none`. -/
def returnLoop : List Byte → BitVec 64 → Option (BitVec 64)
  | [],v => some v
  | b::bs,v => (digit (signed b)).bind fun c => returnLoop bs (v*62+BitVec.ofInt 64 c)

/-- `_to_uint64` of dpcwc; `none` is NULL. -/
def cwcToUint64 : Option (List Byte) → BitVec 64
  | none => 0
  | some s => cwcLoop (s.take (intLen s).toNat) 0

/-- `from_base62` of dpcpp -/
def cppFromBase62 : Option (List Byte) → BitVec 64
  | none => 0
  | some s => (returnLoop (s.take (intLen s).toNat) 0).getD 0

/-- `_to_uint64` of dplua -/
def luaToUint64 : Option (List Byte) → BitVec 64
  | none => 0
  | some s => (returnLoop (s.take (intLen s).toNat) 0).getD 0

/-! ### What a text stands for -/

/-- The place of a character in the alphabet. -/
def rank (b : Byte) : Option ℕ := base62Chars.idxOf? b

/-- 0 where a character is foreign, else the base-62 number. -/
def number (s : List Byte) : ℕ := ((s.mapM rank).map (Radix.value 62)).getD 0

def reading (s : List Byte) : BitVec 64 := BitVec.ofNat 64 (number (s.take 11))

/-- The eleven low digits. -/
def text (value : BitVec 64) : List Byte := (Radix.digits 62 11 value.toNat).map charOf

theorem digit_signed (b : Byte) : digit (signed b)=(rank b).map Nat.cast := by
  have hall : ∀ b : BitVec 8,digit b.toInt=(base62Chars.idxOf? ⟨b⟩).map Nat.cast := by decide +kernel
  exact hall b.toBitVec

theorem rank_charOf : ∀ k<62,rank (charOf k)=some k := by decide

theorem charOf_succ : ∀ k<61,charOf k<charOf (k+1) := by decide +kernel

/-- The alphabet is in the order of the bytes. -/
theorem charOf_mono {j k : ℕ} (hjk : j<k) (hk : k<62) : charOf j<charOf k := by
  induction k,hjk using Nat.le_induction with
  | base => exact charOf_succ j (by omega)
  | succ i hji ih => exact UInt8.lt_trans (ih (by omega)) (charOf_succ i (by omega))

theorem charOf_lt (k : ℕ) (hk : k<62) (j : ℕ) (hj : j<62) : charOf j<charOf k ↔ j<k := by
  refine ⟨fun h => ?_,fun hjk => charOf_mono hjk hk⟩
  rcases Nat.lt_trichotomy j k with hjk | rfl | hkj
  · exact hjk
  · exact absurd h (UInt8.lt_irrefl _)
  · exact absurd h (UInt8.lt_asymm (charOf_mono hkj hj))

/-! ### Writing -/

theorem set_replicate (n : ℕ) (a c : Byte) (rest : List Byte) :
    (List.replicate (n+1) a++rest).set n c=List.replicate n a++c::rest := by
  rw [List.replicate_succ',List.append_assoc,List.set_append_right n c (by rw [List.length_replicate])]
  rw [List.length_replicate,Nat.sub_self]
  rfl

theorem toNat_div62 (value : BitVec 64) : (value/62).toNat=value.toNat/62 := BitVec.toNat_udiv

theorem toNat_mod62 (value : BitVec 64) : (value%62).toNat=value.toNat%62 := BitVec.toNat_umod

/-- What the loop has left alone is '0', so that its end at value 0 does not show. -/
theorem fill_replicate (n : ℕ) (value : BitVec 64) (rest : List Byte) :
    fill n value (List.replicate n 48++rest)=(Radix.digits 62 n value.toNat).map charOf++rest := by
  induction n generalizing value rest with
  | zero => rfl
  | succ n ih =>
    rw [fill]
    by_cases hpos : value>0
    · rw [if_pos hpos,set_replicate,ih,toNat_div62,toNat_mod62,Radix.digits,List.map_append,List.append_assoc]
      rfl
    · have hzero : value=0 := BitVec.le_zero_iff.mp (BitVec.not_lt.mp hpos)
      have hnat : (0 : BitVec 64).toNat=0 := rfl
      rw [if_neg hpos,hzero,hnat,Radix.digits_zero,List.map_replicate]
      rfl

theorem toBase62_eq (value : BitVec 64) (buffer : List Byte) : toBase62 value buffer=text value++buffer.drop 11 :=
  fill_replicate 11 value (buffer.drop 11)

theorem length_text (value : BitVec 64) : (text value).length=11 := by
  rw [text,List.length_map,Radix.length_digits]

theorem value_text (value : BitVec 64) : Radix.value 62 (Radix.digits 62 11 value.toNat)=value.toNat := by
  rw [Radix.value_digits]
  have hfit : 2^64≤62^11 := by decide
  exact Nat.mod_eq_of_lt (Nat.lt_of_lt_of_le value.isLt hfit)

theorem map_charOf_lt {xs ys : List ℕ} (hx : ∀ d∈xs,d<62) (hy : ∀ d∈ys,d<62) :
    xs.map charOf<ys.map charOf ↔ xs<ys := by
  induction xs generalizing ys with
  | nil => cases ys <;> simp
  | cons x xs ih =>
    cases ys with
    | nil => simp
    | cons y ys =>
      have hxlt := hx x List.mem_cons_self
      have hylt := hy y List.mem_cons_self
      have hinj : charOf x=charOf y ↔ x=y := by
        have h1 := charOf_lt y hylt x hxlt
        have h2 := charOf_lt x hxlt y hylt
        constructor
        · intro h
          rw [h] at h1 h2
          have hxy : ¬x<y := fun hlt => UInt8.lt_irrefl _ (h1.mpr hlt)
          have hyx : ¬y<x := fun hlt => UInt8.lt_irrefl _ (h2.mpr hlt)
          omega
        · exact congrArg charOf
      rw [List.map_cons,List.map_cons,List.cons_lt_cons_iff,List.cons_lt_cons_iff,charOf_lt y hylt x hxlt,hinj]
      rw [ih (fun d hd => hx d (List.mem_cons_of_mem x hd)) fun d hd => hy d (List.mem_cons_of_mem y hd)]

theorem text_lt_iff (v w : BitVec 64) : text v<text w ↔ v<w := by
  have hv := Radix.digits_lt (b := 62) (by decide) 11 v.toNat
  have hw := Radix.digits_lt (b := 62) (by decide) 11 w.toNat
  rw [text,text,map_charOf_lt hv hw]
  rw [Radix.value_lt_iff (by decide) (by rw [Radix.length_digits,Radix.length_digits]) hv hw]
  rw [value_text,value_text,BitVec.lt_def]

/-! ### Reading -/

theorem mapM_charOf {ds : List ℕ} (h : ∀ d∈ds,d<62) : (ds.map charOf).mapM rank=some ds := by
  induction ds with
  | nil => rfl
  | cons d ds ih =>
    rw [List.map_cons,List.mapM_cons,rank_charOf d (h d List.mem_cons_self)]
    rw [ih fun d hd => h d (List.mem_cons_of_mem _ hd)]
    rfl

theorem reading_text (value : BitVec 64) (rest : List Byte) : reading (text value++rest)=value := by
  have htake : (text value++rest).take 11=text value := by
    rw [List.take_append_of_le_length (by rw [length_text]),List.take_of_length_le (by rw [length_text])]
  rw [reading,htake,number,text,mapM_charOf (Radix.digits_lt (by decide) 11 value.toNat)]
  rw [Option.map_some,Option.getD_some,value_text,BitVec.ofNat_toNat,BitVec.setWidth_eq]

/-- The loops multiply and add modulo 2^64, which the number modulo 2^64 does not notice. -/
theorem returnLoop_eq (bs : List Byte) (v : ℕ) : returnLoop bs (BitVec.ofNat 64 v)=
    (bs.mapM rank).map fun ds => BitVec.ofNat 64 (ds.foldl (fun v d => v*62+d) v) := by
  induction bs generalizing v with
  | nil => rfl
  | cons b bs ih =>
    rw [returnLoop,digit_signed,List.mapM_cons]
    cases hr : rank b with
    | none => rfl
    | some d =>
      have hstep : BitVec.ofNat 64 v*62+BitVec.ofInt 64 (d : ℤ)=BitVec.ofNat 64 (v*62+d) := by
        rw [BitVec.ofInt_natCast,BitVec.ofNat_add,BitVec.ofNat_mul]
        rfl
      rw [Option.map_some,Option.bind_some,hstep,ih]
      cases bs.mapM rank <;> rfl

theorem returnLoop_zero (bs : List Byte) : (returnLoop bs 0).getD 0=BitVec.ofNat 64 (number bs) := by
  have h := returnLoop_eq bs 0
  rw [show BitVec.ofNat 64 0=0 from rfl] at h
  rw [h,number]
  cases bs.mapM rank with
  | none => rfl
  | some ds =>
    rw [Option.map_some,Option.map_some,Option.getD_some,Option.getD_some,Radix.foldl_eq,Nat.zero_mul,Nat.zero_add]

theorem cwcLoop_eq (bs : List Byte) (v : BitVec 64) : cwcLoop bs v=(returnLoop bs v).getD 0 := by
  induction bs generalizing v with
  | nil => rfl
  | cons b bs ih =>
    rw [cwcLoop,returnLoop]
    cases digit (signed b) with
    | none => rfl
    | some c => exact ih _

theorem cwcToUint64_eq_lua (s : Option (List Byte)) : cwcToUint64 s=luaToUint64 s := by
  cases s with
  | none => rfl
  | some s => exact cwcLoop_eq _ 0

theorem cppFromBase62_eq_lua (s : Option (List Byte)) : cppFromBase62 s=luaToUint64 s := by
  cases s <;> rfl

theorem luaToUint64_eq (s : List Byte) : luaToUint64 (some s)=BitVec.ofNat 64 (number (s.take (intLen s).toNat)) := by
  rw [luaToUint64,returnLoop_zero]

/-- The int that strlen goes into is the length, or is cut to 11 as the length would be; else the characters that it
leaves out, of a text from 2^31 bytes on, make no difference to the number. -/
def measured (s : List Byte) : Prop :=
  wrap s.length=s.length ∨ 11≤ wrap s.length ∨
    number (s.take (wrap s.length).toNat) % 2^64=number (s.take 11) % 2^64

theorem take_intLen {s : List Byte} (h : wrap s.length=s.length ∨ 11≤ wrap s.length) :
    s.take (intLen s).toNat=s.take 11 := by
  unfold intLen
  split
  · rfl
  · rcases h with h | h
    · have hle : s.length≤11 := by omega
      rw [h,Int.toNat_natCast,List.take_of_length_le le_rfl,List.take_of_length_le hle]
    · rw [show wrap s.length=11 by omega]
      rfl

theorem reads_iff_measured (s : List Byte) : luaToUint64 (some s)=reading s ↔ measured s := by
  rw [luaToUint64_eq,reading]
  by_cases h : wrap s.length=s.length ∨ 11≤ wrap s.length
  · rw [take_intLen h]
    exact ⟨fun _ => h.elim .inl fun h => .inr (.inl h),fun _ => rfl⟩
  · have hlen : intLen s=wrap s.length := by
      unfold intLen
      split
      · omega
      · rfl
    rw [hlen,← BitVec.toNat_inj,BitVec.toNat_ofNat,BitVec.toNat_ofNat]
    exact ⟨fun he => .inr (.inr he),fun hm => hm.elim (fun hl => absurd (.inl hl) h) fun hm =>
      hm.elim (fun hl => absurd (.inr hl) h) id⟩

theorem charOf_ne_zero : ∀ k<62,charOf k≠0 := by decide

theorem zero_notin_text (value : BitVec 64) : 0∉text value := by
  intro h
  obtain ⟨d,hd,hz⟩ := List.mem_map.mp h
  exact charOf_ne_zero d (Radix.digits_lt (by decide) 11 value.toNat d hd) hz

theorem take_toBase62 (value : BitVec 64) (buffer : List Byte) : (toBase62 value buffer).take 11=text value := by
  rw [toBase62_eq,List.take_append_of_le_length (by rw [length_text]),List.take_of_length_le (by rw [length_text])]

theorem luaToUint64_text (value : BitVec 64) : luaToUint64 (some (text value))=value := by
  have hread := reading_text value []
  rw [List.append_nil] at hread
  have hlen : wrap (text value).length=(text value).length := by
    rw [length_text]
    rfl
  rw [(reads_iff_measured (text value)).mpr (.inl hlen),hread]

/-- Eleven digits go before what the buffer has there, read back as the value and sort as the values do. The three
readers agree, and on a string (its bytes before the NUL) they give the number modulo 2^64 if its length has been
measured. -/
theorem base62_id (value other : BitVec 64) (buffer : List Byte) (hroom : 11≤buffer.length) (s : List Byte) :
    ((toBase62 value buffer).length=buffer.length ∧ (toBase62 value buffer).drop 11=buffer.drop 11 ∧
      0∉(toBase62 value buffer).take 11) ∧
    (cwcToUint64 (some ((toBase62 value buffer).take 11))=value ∧
      cppFromBase62 (some ((toBase62 value buffer).take 11))=value ∧
      luaToUint64 (some ((toBase62 value buffer).take 11))=value) ∧
    ((toBase62 value buffer).take 11=(toBase62 other buffer).take 11 ↔ value=other) ∧
    ((toBase62 value buffer).take 11<(toBase62 other buffer).take 11 ↔ value<other) ∧
    (cwcToUint64 (some s)=luaToUint64 (some s) ∧ cppFromBase62 (some s)=luaToUint64 (some s)) ∧
    (cwcToUint64 (some s)=reading s ∧ cppFromBase62 (some s)=reading s ∧ luaToUint64 (some s)=reading s ↔
      measured s) := by
  have hback := luaToUint64_text value
  rw [take_toBase62,take_toBase62,cwcToUint64_eq_lua,cppFromBase62_eq_lua,cwcToUint64_eq_lua (some s),
    cppFromBase62_eq_lua (some s)]
  refine ⟨⟨?_,?_,zero_notin_text value⟩,⟨hback,hback,hback⟩,?_,text_lt_iff value other,⟨rfl,rfl⟩,?_⟩
  · rw [toBase62_eq,List.length_append,length_text,List.length_drop]
    omega
  · rw [toBase62_eq,List.drop_append_of_le_length (by rw [length_text])]
    rw [List.drop_of_length_le (by rw [length_text]),List.nil_append]
  · constructor
    · intro h
      rw [← hback,h,luaToUint64_text]
    · exact congrArg text
  · rw [← reads_iff_measured]
    exact ⟨fun h => h.1,fun h => ⟨h,h,h⟩⟩

theorem base62_id_one : measured [49] ∧ cwcToUint64 (some [49])=reading [49] := by
  have h := (base62_id 1 1 (List.replicate 12 0) (by decide) [49]).2.2.2.2.2
  have hlen : measured [49] := .inl rfl
  exact ⟨hlen,(h.mpr hlen).1⟩

/-- The length of 2^31 characters is a negative int: none of them is read. -/
theorem long_text_unread : ¬∀ s : List Byte,0∉s → cwcToUint64 (some s)=reading s := by
  intro h
  have hs := h (List.replicate (2^31) 49) (by
    intro hz
    exact absurd (List.eq_of_mem_replicate hz) (by decide))
  have hwrap : wrap (List.replicate (2^31) (49 : Byte)).length=-2147483648 := by
    rw [List.length_replicate]
    rfl
  have hint : intLen (List.replicate (2^31) (49 : Byte))=-2147483648 := by
    rw [intLen,hwrap]
    rfl
  have hval : reading (List.replicate (2^31) 49)≠0 := by
    rw [reading,List.take_replicate,show min 11 (2^31)=11 from rfl]
    decide
  rw [cwcToUint64_eq_lua,luaToUint64_eq,hint] at hs
  exact hval hs.symm

end Dpapp.IdText
