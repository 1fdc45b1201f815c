import Dpapp.LuaWrite

/-! # A line of the log, whatever the formatting calls return (dplog.c) -/

namespace Dpapp.LogLine
open Dpapp.Segment Dpapp.Dpbuf Dpapp.DpbufSpec Dpapp.LuaWrite

/-- What snprintf and vsnprintf do with a text: they write as much of it as there is room for and return its length, or
they fail with a negative result and leave something in the room. -/
inductive Outcome (x : List Byte)
  | written (fits : x.length≤2147483647)
  | failed (ret : ℤ) (neg : -2147483648≤ret ∧ ret<0) (left : List Byte)

def Outcome.ret {x : List Byte} : Outcome x → ℤ
  | .written _ => x.length
  | .failed ret _ _ => ret

def Outcome.text {x : List Byte} : Outcome x → List Byte
  | .written _ => x
  | .failed .. => []

/-- strftime: the length of the date, or 0 and something in the buffer. -/
inductive Date
  | written (x : List Byte) (fits : x.length<2048)
  | failed (left : List Byte)

def Date.text : Date → List Byte
  | .written x _ => x
  | .failed _ => []

def bufsz : ℤ := 2048

/-- A formatting call at `txt + off`. `none`: the room is not in the buffer, as where a negative size has become a large
size_t. -/
def format {x : List Byte} (txt : List Byte) (off size : ℤ) (o : Outcome x) : Option (List Byte) :=
  if 0≤off ∧ 0≤ size ∧ off+size≤bufsz then
    some (match o with
      | .written _ => if size=0 then txt else put txt off.toNat (x.take (size.toNat-1)++[0])
      | .failed _ _ left => put txt off.toNat (left.take size.toNat))
  else none

/-- `txt[i] = '\n'` -/
def newline (txt : List Byte) (i : ℤ) : Option (List Byte) :=
  if 0≤ i ∧ i<bufsz then some (put txt i.toNat [10]) else none

/-- What write gets; the length goes through size_t. -/
def emitted (txt : List Byte) (sz : ℤ) : Option (List Byte) :=
  if 0≤ sz ∧ sz≤txt.length then some (txt.take sz.toNat) else none

def dplogPrint {x : List Byte} (o : Outcome x) : Option (List Byte) :=
  (format (zeros 2048) 0 bufsz o).bind fun txt =>
    let sz := if o.ret<bufsz then o.ret+1 else bufsz
    (newline txt (sz-1)).bind fun txt => emitted txt sz

/-- The logger's level and precision, the level of the call, the id of the thread's engine (0 for none), the time, the
domain (`none` for NULL) and the formatted message (`none` for a NULL format). -/
structure Call where
  level : ℤ
  ta : ℤ
  l : ℤ
  id : ℕ
  ts : ℕ
  domain : Option (List Byte)
  text : Option (List Byte)

def Call.frac (c : Call) : List Byte :=
  if c.ta=1 then ascii "."++decimal 3 (c.ts%1000) else ascii "."++decimal 6 (c.ts%1000000)

def Call.head (c : Call) : List Byte := tag ⟨c.level,⟨[],none,by decide⟩,c.id⟩ c.l c.domain

/-- What the calls for one line do. -/
structure Results (c : Call) where
  date : Date
  frac : Outcome c.frac
  head : Outcome c.head
  text : Outcome (c.text.getD [])

def strftime : Date → List Byte×ℤ
  | .written x _ => (put (zeros 2048) 0 (x++[0]),x.length)
  | .failed left => (put (zeros 2048) 0 (left.take 2048),0)

/-- `tsz += snprintf(txt + tsz, DPLOG_BUFSZ - tsz, ...)` -/
def append {x : List Byte} (t : List Byte×ℤ) (o : Outcome x) : Option (List Byte×ℤ) :=
  (format t.1 t.2 (bufsz-t.2) o).map fun txt => (txt,wrap (t.2+o.ret))

def dplogVprint (c : Call) (r : Results c) : Option (Option (List Byte)) :=
  if c.l<c.level ∨ c.text=none then some none
  else
    (if c.ta≠0 then append (strftime r.date) r.frac else some (strftime r.date)).bind fun t =>
      (append t r.head).bind fun t => (format t.1 t.2 (bufsz-t.2) r.text).bind fun txt =>
        let tsz := if r.text.ret≥bufsz-t.2 then bufsz-1 else wrap (t.2+r.text.ret)
        (newline txt tsz).bind fun txt => (emitted txt (tsz+1)).map some

/-! ### What the buffer holds -/

/-- A text of which the buffer holds what it has room for, before its last byte. -/
structure Holds (t : List Byte×ℤ) (a : List Byte) : Prop where
  size : t.1.length=2048
  len : t.2=a.length
  room : a.length≤2048
  held : ∃ z,t.1=a.take 2047++z

/-- The text behind a call: a failed one steps back. -/
def back {x : List Byte} (a : List Byte) : Outcome x → List Byte
  | .written _ => a++x
  | .failed ret _ _ => a.take (a.length+ret).toNat

section Buffer
variable {t u : List Byte×ℤ} {a x z txt : List Byte} {o : Outcome x} {n : ℕ}

theorem ret_bounds (o : Outcome x) : -2147483648≤o.ret ∧ o.ret≤2147483647 := by
  cases o with
  | written fits =>
    simp only [Outcome.ret]
    omega
  | failed ret neg left =>
    simp only [Outcome.ret]
    omega

theorem length_back (h : 0≤(a.length : ℤ)+o.ret) : ((back a o).length : ℤ)=a.length+o.ret := by
  cases o with
  | written fits =>
    simp only [back,Outcome.ret,List.length_append]
    omega
  | failed ret neg left =>
    simp only [back,Outcome.ret,List.length_take] at h ⊢
    omega

theorem put_zeros (h : x.length≤2048) : (put (zeros 2048) 0 x).length=2048 ∧ ∃ z,put (zeros 2048) 0 x=x++z := by
  refine ⟨?_,_,by rw [put,List.take_zero,List.nil_append]⟩
  have hz : (zeros 2048).length=2048 := List.length_replicate
  rw [length_put (by rw [hz,Nat.zero_add]; exact h),hz]

theorem holds_strftime (d : Date) : Holds (strftime d) d.text := by
  cases d with
  | written x fits =>
    obtain ⟨hlen,z,hz⟩ := put_zeros (x := x++[0]) (by simpa using fits)
    refine ⟨hlen,rfl,fits.le,[0]++z,?_⟩
    have hwhole : x.take 2047=x := List.take_of_length_le (by omega)
    change put (zeros 2048) 0 (x++[0])=x.take 2047++_
    rw [hz,hwhole,List.append_assoc]
  | failed left =>
    obtain ⟨hlen,z,hz⟩ := put_zeros (x := left.take 2048) (List.length_take_le _ _)
    exact ⟨hlen,rfl,Nat.zero_le _,_,hz⟩

/-- The room of a call lies behind what the buffer holds. -/
theorem holds_format (h : Holds t a) (o : Outcome x) : ∃ txt,format t.1 t.2 (bufsz-t.2) o=some txt ∧ txt.length=2048 ∧
    (∃ z,txt=(back a o).take 2047++z) := by
  obtain ⟨txt,tsz⟩ := t
  have hlen := h.len
  have hroom := h.room
  have hsize := h.size
  obtain ⟨z,hz⟩ := h.held
  simp only at hlen hsize hz
  subst hlen
  have hb : bufsz=2048 := rfl
  have hin : (0 : ℤ)≤a.length ∧ 0≤bufsz-a.length ∧ (a.length : ℤ)+(bufsz-a.length)≤bufsz := by omega
  have hnat : (bufsz-(a.length : ℤ)).toNat=2048-a.length := by omega
  refine ⟨_,if_pos hin,?_⟩
  cases o with
  | written fits =>
    simp only [Int.toNat_natCast,hnat,back]
    by_cases hfull : bufsz-(a.length : ℤ)=0
    · rw [if_pos hfull]
      exact ⟨hsize,z,by rw [hz,List.take_append_of_le_length (by omega)]⟩
    · have hwhole : a.take 2047=a := List.take_of_length_le (by omega)
      have hx : a.length+(x.take (2048-a.length-1)++[0]).length≤txt.length := by
        rw [List.length_append,List.length_take,List.length_singleton]
        omega
      rw [if_neg hfull,length_put hx]
      refine ⟨hsize,[0]++txt.drop (a.length+(x.take (2048-a.length-1)++[0]).length),?_⟩
      have hsub : 2047-a.length=2048-a.length-1 := by omega
      rw [put,List.take_append,hwhole,hsub,hz,hwhole,List.take_left,List.append_assoc,List.append_assoc,List.append_assoc]
  | failed ret neg left =>
    simp only [Int.toNat_natCast,hnat,back]
    have hx : a.length+(left.take (2048-a.length)).length≤txt.length := by
      rw [List.length_take]
      omega
    refine ⟨by rw [length_put hx,hsize],?_⟩
    have hpre : (a.take (a.length+ret).toNat).take 2047<+:(put txt a.length (left.take (2048-a.length))) := by
      refine List.IsPrefix.trans ?_ (List.prefix_append_of_prefix (List.prefix_append (txt.take a.length) _))
      rw [hz,List.take_take,List.take_append]
      have : a.take (min 2047 (a.length+ret).toNat)<+:(a.take 2047).take a.length := by
        rw [List.take_take]
        exact List.take_prefix_take_left (by omega)
      exact this.trans (List.prefix_append _ _)
    obtain ⟨w,hw⟩ := hpre
    exact ⟨w,hw.symm⟩

theorem holds_append (h : Holds t a) (o : Outcome x) : ∃ u,append t o=some u ∧
    (0≤(a.length : ℤ)+o.ret ∧ (a.length : ℤ)+o.ret≤bufsz → Holds u (back a o)) ∧
    (¬(0≤(a.length : ℤ)+o.ret ∧ (a.length : ℤ)+o.ret≤bufsz) → ¬(0≤u.2 ∧ u.2≤bufsz)) := by
  obtain ⟨txt,hf,hlen,hheld⟩ := holds_format h o
  have hret := ret_bounds o
  have hroom := h.room
  have hb : bufsz=2048 := rfl
  obtain ⟨-,-,hsame,hneg⟩ := wrap_cases ((a.length : ℤ)+o.ret)
  have hrun : append t o=some (txt,wrap ((a.length : ℤ)+o.ret)) := by
    rw [append,hf,h.len]
    rfl
  refine ⟨_,hrun,fun hin => ?_,fun hout hin => ?_⟩
  · have hback := length_back hin.1
    exact ⟨hlen,by rw [hback]; exact hsame (by omega) (by omega),by omega,hheld⟩
  · simp only at hin
    by_cases hbig : (a.length : ℤ)+o.ret≤2147483647
    · rw [hsame (by omega) hbig] at hin
      exact hout hin
    · have := hneg (by omega) (by omega)
      omega

/-- An offset out of the buffer, or behind which there is less than nothing. -/
theorem append_out (h : ¬(0≤t.2 ∧ t.2≤bufsz)) (o : Outcome x) : format t.1 t.2 (bufsz-t.2) o=none :=
  if_neg fun hin => h (by omega)

theorem newline_emitted (hlen : txt.length=2048) (hn : n<2048) (hz : txt=a++z) (ha : a.length=n) :
    ((newline txt n).bind fun txt => emitted txt ((n : ℤ)+1))=some (a++[10]) := by
  have hb : bufsz=2048 := rfl
  have hput : put txt n [10]=a++([10]++txt.drop (n+1)) := by
    rw [put,hz,← ha,List.take_left,List.append_assoc]
    rfl
  have hsize : (put txt n [10]).length=2048 := by
    rw [length_put (by rw [hlen]; exact hn),hlen]
  rw [newline,if_pos (by omega),Option.bind_some,emitted,Int.toNat_natCast,if_pos (by omega)]
  have hnat : ((n : ℤ)+1).toNat=(a++[(10 : Byte)]).length := by
    rw [List.length_append,ha,List.length_singleton]
    omega
  rw [hput,← List.append_assoc,hnat,List.take_left]

end Buffer

/-! ### Lines -/

/-- What a line has to be. -/
def lineOf (whole : List Byte) (line : List Byte) : Prop := ∃ p,p<+:whole ∧ line=p++[10]

section Print
variable {x : List Byte}

theorem dplogPrint_written (o : Outcome x) (h : 0≤o.ret) : dplogPrint o=some (x.take 2047++[10]) := by
  cases o with
  | failed ret neg left =>
    simp only [Outcome.ret] at h
    omega
  | written fits =>
    have hb : bufsz=2048 := rfl
    obtain ⟨txt,hf,hlen,z,hz⟩ := holds_format (t := (zeros 2048,0)) (a := [])
      ⟨List.length_replicate,rfl,Nat.zero_le _,zeros 2048,rfl⟩ (.written fits : Outcome x)
    simp only [sub_zero,back,List.nil_append] at hf hz
    obtain ⟨n,hn,hsz⟩ : ∃ n : ℕ,n=min x.length 2047 ∧
        (if (Outcome.written fits : Outcome x).ret<bufsz then (Outcome.written fits : Outcome x).ret+1 else bufsz)=n+1 := by
      refine ⟨_,rfl,?_⟩
      have hret : (Outcome.written fits : Outcome x).ret=x.length := rfl
      rcases lt_or_ge (Outcome.written fits : Outcome x).ret bufsz with hlt | hge
      · rw [if_pos hlt]
        omega
      · rw [if_neg (not_lt.mpr hge)]
        omega
    rw [dplogPrint,hf,Option.bind_some]
    simp only [hsz,add_sub_cancel_right]
    exact newline_emitted hlen (by omega) hz (by rw [List.length_take,hn,Nat.min_comm])

theorem dplogPrint_failed (o : Outcome x) (h : o.ret<0) : dplogPrint o=none := by
  have hb : bufsz=2048 := rfl
  rw [dplogPrint]
  simp only [if_pos (show o.ret<bufsz by omega),add_sub_cancel_right]
  have hnone : ∀ txt,newline txt o.ret=none := fun txt => if_neg fun hin => absurd hin.1 (not_le.mpr h)
  simp only [hnone]
  cases format (zeros 2048) 0 bufsz o <;> rfl

end Print

section Vprint
variable {c : Call} (r : Results c)

def quiet (c : Call) : Prop := c.l<c.level ∨ c.text=none

/-- The offsets at which the head and the text are written. -/
def headAt : ℤ := r.date.text.length+if c.ta≠0 then r.frac.ret else 0
def textAt : ℤ := headAt r+r.head.ret

/-- The text behind the last call, in a buffer without an end. -/
def stamped : List Byte := if c.ta≠0 then back r.date.text r.frac else r.date.text
def assembled : List Byte := back (back (stamped r) r.head) r.text

/-- The texts of the calls that do not fail. -/
def whole : List Byte := r.date.text++(if c.ta≠0 then r.frac.text else [])++r.head.text++r.text.text

/-- No call steps back in front of the buffer or leaves less than no room. -/
def inside : Prop := 0≤headAt r ∧ headAt r≤bufsz ∧ 0≤textAt r ∧ textAt r≤bufsz ∧ 0≤textAt r+r.text.ret

/-- The calls before that for the text do not fail. -/
def steady : Prop := (c.ta≠0 → 0≤r.frac.ret) ∧ 0≤r.head.ret

variable {r}

theorem back_of_nonneg {a x : List Byte} {o : Outcome x} (h : 0≤o.ret) : back a o=a++o.text ∧ o.text=x := by
  cases o with
  | written fits => exact ⟨rfl,rfl⟩
  | failed ret neg left => exact absurd h (not_le.mpr neg.2)

theorem assembled_begins (h : steady r) : assembled r<+:whole r := by
  have hstamped : stamped r=r.date.text++if c.ta≠0 then r.frac.text else [] := by
    unfold stamped
    split
    · exact (back_of_nonneg (h.1 ‹_›)).1
    · exact (List.append_nil _).symm
  rw [assembled,(back_of_nonneg h.2).1,hstamped,whole]
  cases r.text with
  | written fits => exact List.prefix_rfl
  | failed ret neg left => exact (List.take_prefix _ _).trans (List.prefix_append _ _)

theorem stamped_spec : ∃ t,(if c.ta≠0 then append (strftime r.date) r.frac else some (strftime r.date))=some t ∧
    (0≤headAt r ∧ headAt r≤bufsz → Holds t (stamped r) ∧ ((stamped r).length : ℤ)=headAt r) ∧
    (¬(0≤headAt r ∧ headAt r≤bufsz) → ¬(0≤t.2 ∧ t.2≤bufsz)) := by
  have hdate := holds_strftime r.date
  unfold stamped headAt
  by_cases hta : c.ta≠0
  · simp only [if_pos hta]
    obtain ⟨u,hu,hin,hout⟩ := holds_append hdate r.frac
    exact ⟨u,hu,fun h => ⟨hin h,length_back h.1⟩,hout⟩
  · simp only [if_neg hta,add_zero]
    have hroom := hdate.room
    have hb : bufsz=2048 := rfl
    exact ⟨_,rfl,fun _ => ⟨hdate,trivial⟩,fun h => absurd ⟨by omega,by omega⟩ h⟩

/-- The last call and the newline. -/
theorem text_spec {t : List Byte×ℤ} {a x : List Byte} (h : Holds t a) (o : Outcome x) :
    ((format t.1 t.2 (bufsz-t.2) o).bind fun txt =>
      let tsz := if o.ret≥bufsz-t.2 then bufsz-1 else wrap (t.2+o.ret)
      (newline txt tsz).bind fun txt => (emitted txt (tsz+1)).map some)=
    if 0≤(a.length : ℤ)+o.ret then some (some ((back a o).take 2047++[10])) else none := by
  obtain ⟨txt,hf,hlen,z,hz⟩ := holds_format h o
  have hb : bufsz=2048 := rfl
  have hret := ret_bounds o
  have hroom := h.room
  rw [hf,Option.bind_some,h.len]
  simp only
  by_cases hin : 0≤(a.length : ℤ)+o.ret
  · have hback := length_back (x := x) (o := o) hin
    obtain ⟨n,hn,hsz⟩ : ∃ n : ℕ,n=min (back a o).length 2047 ∧
        (if o.ret≥bufsz-(a.length : ℤ) then bufsz-1 else wrap ((a.length : ℤ)+o.ret))=n := by
      refine ⟨_,rfl,?_⟩
      split
      · omega
      · rw [(wrap_cases _).2.2.1 (by omega) (by omega)]
        omega
    rw [hsz,if_pos hin]
    have hend := newline_emitted (n := n) hlen (by omega) hz (by rw [List.length_take,hn,Nat.min_comm])
    cases hw : newline txt n with
    | none =>
      rw [hw] at hend
      cases hend
    | some w =>
      rw [hw] at hend
      exact congrArg (Option.map some) hend
  · have hnone : newline txt ((a.length : ℤ)+o.ret)=none := if_neg fun h => hin h.1
    rw [if_neg (show ¬o.ret≥bufsz-(a.length : ℤ) by omega),(wrap_cases _).2.2.1 (by omega) (by omega),hnone,if_neg hin]
    rfl

open Classical in
theorem dplogVprint_eq (hq : ¬quiet c) : dplogVprint c r=
    if inside r then some (some ((assembled r).take 2047++[10])) else none := by
  obtain ⟨t,ht,hin,hout⟩ := stamped_spec (r := r)
  rw [dplogVprint,if_neg (show ¬(c.l<c.level ∨ c.text=none) from hq),ht,Option.bind_some]
  by_cases h1 : 0≤headAt r ∧ headAt r≤bufsz
  · obtain ⟨hholds,hlen⟩ := hin h1
    obtain ⟨u,hu,hin',hout'⟩ := holds_append hholds r.head
    rw [hlen] at hin' hout'
    rw [hu,Option.bind_some]
    by_cases h2 : 0≤textAt r ∧ textAt r≤bufsz
    · have hback := length_back (a := stamped r) (o := r.head) (by rw [hlen]; exact h2.1)
      rw [text_spec (hin' h2),hback,hlen]
      by_cases h3 : 0≤textAt r+r.text.ret
      · exact (if_pos h3).trans (if_pos ⟨h1.1,h1.2,h2.1,h2.2,h3⟩).symm
      · exact (if_neg h3).trans (if_neg fun h => h3 h.2.2.2.2).symm
    · rw [append_out (hout' h2)]
      exact (if_neg fun h : inside r => h2 ⟨h.2.2.1,h.2.2.2.1⟩).symm
  · have hnone : append t r.head=none := by rw [append,append_out (hout h1)]; rfl
    rw [hnone]
    exact (if_neg fun h : inside r => h1 ⟨h.1,h.2.1⟩).symm

end Vprint

/-- What the call for a line has to do: nothing where it is quiet, else a line of the whole text. -/
def vprinted (c : Call) (r : Results c) : Prop :=
  ∃ w,dplogVprint c r=some w ∧ (quiet c → w=none) ∧ (¬quiet c → ∃ line,w=some line ∧ lineOf (whole r) line)

/-- A line that nothing is written out of the buffer for, if and only if all the offsets lie in the buffer and, where a
call before that for the text has failed and what it steps back over is written over, the bytes come to the same. -/
theorem log_line (c : Call) (r : Results c) (x : List Byte) (o : Outcome x) :
    (vprinted c r ↔ quiet c ∨ inside r ∧ (steady r ∨ (assembled r).take 2047<+:whole r)) ∧
    (¬quiet c → inside r → steady r → 0≤r.text.ret → dplogVprint c r=some (some ((whole r).take 2047++[10]))) ∧
    ((∃ line,dplogPrint o=some line ∧ lineOf x line) ↔ 0≤o.ret) := by
  refine ⟨?_,?_,?_⟩
  · by_cases hq : quiet c
    · have hrun : dplogVprint c r=some none := if_pos hq
      exact ⟨fun _ => .inl hq,fun _ => ⟨none,hrun,fun _ => rfl,fun h => absurd hq h⟩⟩
    · rw [vprinted,dplogVprint_eq hq]
      by_cases hin : inside r
      · rw [if_pos hin]
        constructor
        · rintro ⟨w,hw,-,hline⟩
          cases hw
          obtain ⟨line,he,p,hp,hl⟩ := hline hq
          cases he
          rw [List.append_left_inj] at hl
          exact .inr ⟨hin,.inr (hl ▸ hp)⟩
        · rintro (h | ⟨-,h⟩)
          · exact absurd h hq
          · refine ⟨_,rfl,fun h' => absurd h' hq,fun _ => ⟨_,rfl,_,?_,rfl⟩⟩
            rcases h with h | h
            · exact (List.take_prefix _ _).trans (assembled_begins h)
            · exact h
      · rw [if_neg hin]
        constructor
        · rintro ⟨w,hw,-⟩
          cases hw
        · rintro (h | h)
          · exact absurd h hq
          · exact absurd h.1 hin
  · intro hq hin hs htext
    have heq : assembled r=whole r := by
      have hstamped : stamped r=r.date.text++if c.ta≠0 then r.frac.text else [] := by
        unfold stamped
        split
        · exact (back_of_nonneg (hs.1 ‹_›)).1
        · exact (List.append_nil _).symm
      rw [assembled,(back_of_nonneg htext).1,(back_of_nonneg hs.2).1,hstamped,whole]
    rw [dplogVprint_eq hq,if_pos hin,heq]
  · by_cases h : 0≤o.ret
    · rw [dplogPrint_written o h]
      exact ⟨fun _ => h,fun _ => ⟨_,rfl,_,List.take_prefix _ _,rfl⟩⟩
    · rw [dplogPrint_failed o (not_le.mp h)]
      exact ⟨fun ⟨_,he,_⟩ => by (cases he),fun h' => absurd h' h⟩

/-- A notice in a domain of 3000 letters. -/
def longDomain : Call :=
  {level := 2, ta := 0, l := 2, id := 0, ts := 0, domain := some (List.replicate 3000 100), text := some []}

theorem longDomain_head : longDomain.head.length=3010 := by
  have hstr : cString (List.replicate 3000 100)=List.replicate 3000 100 := by
    unfold cString
    exact List.takeWhile_eq_self_iff.mpr fun b hb => by rw [List.eq_of_mem_replicate hb]; decide
  have hpre : (ascii "["++decimal 3 0++ascii "-"++dplogSname 2++ascii "](").length=8 := by decide
  have hend : (ascii ") ").length=2 := by decide
  change (ascii "["++decimal 3 0++ascii "-"++dplogSname 2++ascii "]("++cString (List.replicate 3000 100)++ascii ") ").length=_
  rw [List.length_append,List.length_append,hpre,hend,hstr,List.length_replicate]

/-- The size for the text is 2048 - 3029. -/
theorem long_domain_overruns : ¬∀ (c : Call) (r : Results c),vprinted c r := by
  intro h
  have hfrac : longDomain.frac.length≤2147483647 := by
    change (ascii "."++decimal 6 0).length≤2147483647
    decide
  have hhead : longDomain.head.length≤2147483647 := by rw [longDomain_head]; decide
  obtain ⟨w,hw,-⟩ := h longDomain ⟨.written (ascii "2025-01-01T00:00:00") (by decide),.written hfrac,.written hhead,
    .written (Nat.zero_le _)⟩
  have hq : ¬quiet longDomain := fun hq => hq.elim (by decide) (Option.some_ne_none _)
  rw [dplogVprint_eq hq,if_neg] at hw
  · cases hw
  · intro hin
    have hsum := hin.2.2.2.1
    simp only [textAt,headAt,Date.text,Outcome.ret,longDomain_head] at hsum
    exact absurd hsum (by decide)

end Dpapp.LogLine
