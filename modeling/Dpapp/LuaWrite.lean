import Dpapp.DpbufSpec

/-! # Strings that Lua code writes to buffers and to the log (dplua/dpbuf.lua, dplua/dplog.lua, dplog.c) -/

namespace Dpapp.LuaWrite
open Dpapp.Segment Dpapp.Dpbuf Dpapp.DpbufSpec

/-! ### vsnprintf without arguments -/

/-- What vsnprintf makes of a format up to its NUL when there are no arguments; a directive other than %% is undefined. -/
def vformat : List Byte → Option (List Byte)
  | [] => some []
  | [c] => if c=0 then some [] else if c=37 then none else some [c]
  | c::d::l =>
      if c=0 then some []
      else if c=37 then if d=37 then (vformat l).map (37::·) else none
      else (vformat (d::l)).map (c::·)

/-- No NUL and no percent sign. -/
def Plain (s : List Byte) : Prop := ∀ c∈s,c≠0 ∧ c≠37

instance (s : List Byte) : Decidable (Plain s) := inferInstanceAs (Decidable (∀ c∈s,_))

/-- Plain up to the limit, or up to percent signs that are still as many as there is room for when they have been halved. -/
def Shown (k : ℕ) (s : List Byte) : Prop :=
  ∃ p r,s=p++r ∧ Plain p ∧ (r=[] ∨ List.replicate (2*(k-p.length)) 37 <+: r)

variable {s x p r y : List Byte} {k : ℕ} {c : Byte}

theorem vformat_cons (h : c≠0 ∧ c≠37) : vformat (c::s)=(vformat s).map (c::·) := by
  cases s with
  | nil => simp [vformat,h]
  | cons d l => rw [vformat,if_neg h.1,if_neg h.2]

theorem vformat_percent : vformat (37::37::s)=(vformat s).map (37::·) := by
  rw [vformat,if_neg (by decide),if_pos rfl,if_pos rfl]

theorem vformat_plain (h : Plain p) : vformat (p++r)=(vformat r).map (p++·) := by
  induction p with
  | nil => simp
  | cons c p ih =>
      rw [List.cons_append,vformat_cons (h c List.mem_cons_self),ih fun d hd => h d (List.mem_cons_of_mem c hd),Option.map_map]
      rfl

theorem vformat_percents (k : ℕ) : vformat (List.replicate (2*k) 37++r)=(vformat r).map (List.replicate k 37++·) := by
  induction k with
  | zero => simp
  | succ k ih =>
      have hk : 2*(k+1)=2*k+1+1 := rfl
      rw [hk,List.replicate_succ,List.replicate_succ,List.cons_append,List.cons_append,vformat_percent,ih,Option.map_map]
      rfl

/-- The first byte of a text is that of its format, and a percent sign only where there are two. -/
theorem vformat_head (h : vformat s=some (c::y)) :
    (c≠0 ∧ c≠37 ∧ ∃ l,s=c::l ∧ vformat l=some y) ∨ (c=37 ∧ ∃ l,s=37::37::l ∧ vformat l=some y) := by
  cases s with
  | nil => simp [vformat] at h
  | cons d l =>
      by_cases h0 : d=0
      · subst h0
        cases l <;> simp [vformat] at h
      by_cases h37 : d=37
      · subst h37
        cases l with
        | nil => simp [vformat] at h
        | cons e l =>
            by_cases he : e=37
            · subst he
              rw [vformat_percent] at h
              obtain ⟨z,hz,heq⟩ := Option.map_eq_some_iff.1 h
              obtain ⟨rfl,rfl⟩ := List.cons.inj heq
              exact .inr ⟨rfl,l,rfl,hz⟩
            · simp [vformat,he] at h
      · rw [vformat_cons ⟨h0,h37⟩] at h
        obtain ⟨z,hz,heq⟩ := Option.map_eq_some_iff.1 h
        obtain ⟨rfl,rfl⟩ := List.cons.inj heq
        exact .inl ⟨h0,h37,l,rfl,hz⟩

/-- A text that agrees with its format behind percent signs has percent signs as far as it agrees. -/
theorem percents_agree {a : ℕ} (ha : 0<a) (h : vformat s=some x) (hk : x.take k=(List.replicate a 37++s).take k) :
    List.replicate (2*k) 37 <+: s := by
  induction k generalizing a s x with
  | zero => exact List.nil_prefix
  | succ k ih =>
      obtain ⟨a,rfl⟩ := Nat.exists_eq_succ_of_ne_zero (Nat.pos_iff_ne_zero.1 ha)
      rw [List.replicate_succ,List.cons_append,List.take_succ_cons] at hk
      cases x with
      | nil => simp at hk
      | cons c y =>
          rw [List.take_succ_cons] at hk
          obtain ⟨rfl,hk'⟩ := List.cons.inj hk
          obtain ⟨_,hne,_⟩ | ⟨_,l,rfl,hl⟩ := vformat_head h
          · exact absurd rfl hne
          · have hmore : List.replicate a 37++37::37::l=List.replicate (a+2) (37 : Byte)++l := by
              rw [List.replicate_add,List.append_assoc]
              rfl
            rw [hmore] at hk'
            have hrest := ih (Nat.succ_pos (a+1)) hl hk'
            have htwo : 2*(k+1)=2*k+1+1 := rfl
            rw [htwo,List.replicate_succ,List.replicate_succ]
            exact List.cons_prefix_cons.2 ⟨rfl,List.cons_prefix_cons.2 ⟨rfl,hrest⟩⟩

theorem shown_zero : Shown 0 s := ⟨[],s,rfl,by simp [Plain],.inr (by simp)⟩

theorem shown_cons (hc : c≠0 ∧ c≠37) (h : Shown k s) : Shown (k+1) (c::s) := by
  obtain ⟨p,r,rfl,hp,hr⟩ := h
  refine ⟨c::p,r,rfl,?_,?_⟩
  · intro d hd
    rcases List.mem_cons.1 hd with rfl | hd
    · exact hc
    · exact hp d hd
  · rwa [List.length_cons,Nat.add_sub_add_right]

/-- As much of the format as there is room for is what comes out. -/
theorem take_vformat (h : vformat s=some x) : x.take k=s.take k ↔ Shown k s := by
  constructor
  · intro hk
    induction k generalizing s x with
    | zero => exact shown_zero
    | succ k ih =>
        cases s with
        | nil => exact ⟨[],[],rfl,by simp [Plain],.inl rfl⟩
        | cons d l =>
            cases x with
            | nil => simp at hk
            | cons c y =>
                rw [List.take_succ_cons,List.take_succ_cons] at hk
                obtain ⟨rfl,hk'⟩ := List.cons.inj hk
                obtain ⟨h0,h37,l',hs,hl⟩ | ⟨rfl,l',hs,hl⟩ := vformat_head h
                · obtain ⟨-,rfl⟩ := List.cons.inj hs
                  exact shown_cons ⟨h0,h37⟩ (ih hl hk')
                · obtain ⟨-,rfl⟩ := List.cons.inj hs
                  have hrest : List.replicate (2*k) 37 <+: l' := percents_agree (a := 1) Nat.one_pos hl hk'
                  have htwo : 2*(k+1)=2*k+1+1 := rfl
                  refine ⟨[],_,rfl,by simp [Plain],.inr ?_⟩
                  rw [List.length_nil,Nat.sub_zero,htwo,List.replicate_succ,List.replicate_succ]
                  exact List.cons_prefix_cons.2 ⟨rfl,List.cons_prefix_cons.2 ⟨rfl,hrest⟩⟩
  · intro ⟨p,r,hs,hp,hr⟩
    subst hs
    rw [vformat_plain hp] at h
    obtain ⟨y,hy,rfl⟩ := Option.map_eq_some_iff.1 h
    rw [List.take_append,List.take_append]
    congr 1
    rcases hr with rfl | ⟨z,rfl⟩
    · cases hy
      rfl
    · rw [vformat_percents] at hy
      obtain ⟨w,-,rfl⟩ := Option.map_eq_some_iff.1 hy
      have htwo : 2*(k-p.length)=(k-p.length)+(k-p.length) := Nat.two_mul _
      rw [htwo,List.replicate_add,List.append_assoc,List.take_left' (by simp),List.take_left' (by simp)]

theorem vformat_length (h : vformat s=some x) : x.length≤ s.length := by
  induction x generalizing s with
  | nil => exact Nat.zero_le _
  | cons c y ih =>
      obtain ⟨_,_,l,rfl,hl⟩ | ⟨_,l,rfl,hl⟩ := vformat_head h
      · exact Nat.succ_le_succ (ih hl)
      · exact Nat.succ_le_succ (Nat.le_succ_of_le (ih hl))

/-- All of the format comes out only when it is plain. -/
theorem vformat_whole (h : vformat s=some x) : x.length=s.length ↔ Plain s := by
  constructor
  · intro hlen
    induction x generalizing s with
    | nil =>
        have hs : s=[] := List.length_eq_zero_iff.1 hlen.symm
        simp [hs,Plain]
    | cons c y ih =>
        obtain ⟨h0,h37,l,rfl,hl⟩ | ⟨_,l,rfl,hl⟩ := vformat_head h
        · intro d hd
          rcases List.mem_cons.1 hd with rfl | hd
          · exact ⟨h0,h37⟩
          · exact ih hl (Nat.succ.inj hlen) d hd
        · have := vformat_length hl
          simp only [List.length_cons] at hlen
          omega
  · intro hp
    have hself := vformat_plain (r := []) hp
    rw [List.append_nil,vformat,Option.map_some,List.append_nil,h] at hself
    rw [Option.some.inj hself]

theorem vformat_self (h : Plain s) : vformat s=some s := by
  have hself := vformat_plain (r := []) h
  rwa [List.append_nil,vformat,Option.map_some,List.append_nil] at hself

/-! ### The Lua side -/

/-- A Lua string; the limit is that of LuaJIT. -/
abbrev LuaString := {s : List Byte // s.length≤ 2147483392}

/-- string.format, which raises an error where it returns nothing. -/
abbrev Format (α : Type*) := LuaString → α → Option LuaString

variable {α β σ : Type*} [DecidableEq β] [DecidableEq σ] (format : Format α)

/-- The string that is handed to the C function: it is formatted where there are further arguments. -/
def fmt (s : LuaString) : Option α → Option LuaString
  | none => some s
  | some a => format s a

/-- MF.wstr; none where string.format raises an error, or the behaviour is undefined. -/
def mfWstr (h : Heap β σ) (i : β) (s : LuaString) (args : Option α) (mem : Mem) : Option (Heap β σ × ℤ) :=
  (fmt format s args).bind fun t => (vformat t.1).bind fun x => h.on i fun b d => wstrv b d (some x) mem

/-- The argument of MF.write. -/
inductive Val (β : Type*)
  | buf (j : β)
  | str (s : LuaString)
  | cdata (p : List Byte)
  | other

def paramtype : ℤ := -160

/-- MF.write; `num` is tonumber of the argument that follows. -/
def mfWrite (h : Heap β σ) (i : β) (v : Val β) (args : Option α) (num : Option CInt) (mem : Mem) : Option (Heap β σ × ℤ) :=
  match v with
  | .buf j => wbuf h i j ((num.map (·.1)).getD (-1)) false mem
  | .str s => (fmt format s args).bind fun t => (vformat t.1).bind fun x => h.on i fun b d => wstrv b d (some x) mem
  | .cdata p => h.on i fun b d => wdata b d (some p) ((num.map (·.1)).getD 0) mem
  | .other => some (h,paramtype)

/-- The bytes lie behind those that have been written before, and nothing else has changed. -/
def Appends (h : Heap β σ) (i : β) (b : Buf σ) (d : Data) (x : List Byte) (o : Option (Heap β σ × ℤ)) : Prop :=
  ∃ b' d',o=some ({buf := Function.update h.buf i (some b'), store := Function.update h.store b.data (some d')},(x.length : ℤ)) ∧
    Becomes b d b' d' (readable b d) (slack b d++x)

/-- The buffer has room, or can grow, for the string and a NUL. -/
def CanGrow (b : Buf σ) (d : Data) (t : List Byte) (mem : Mem) : Prop :=
  t≠[] → ∃ b' d',wcheck b d (t.length+1) mem=some (b',d',true)

section Written
variable {h : Heap β σ} {i : β} {b : Buf σ} {d : Data} {t : LuaString} {mem : Mem}

omit [DecidableEq β] [DecidableEq σ] in
/-- A write that finds room does not fail. -/
theorem wstrv_returns (hx : x.length≤2147483392) (hg : CanGrow b d x mem) {o : Buf σ × Data × ℤ}
    (ho : wstrv b d (some x) mem=some o) : o.2.2=x.length := by
  rw [wstrv] at ho
  dsimp only at ho
  split at ho
  · cases ho
    simp only
    omega
  · rename_i hne
    have hwrap : wrap ((x.length : ℤ)+1)=x.length+1 := (wrap_cases _).2.2.1 (by omega) (by omega)
    obtain ⟨b',d',hw⟩ := hg (by rintro rfl; simp at hne)
    rw [hwrap,hw,Option.bind_some] at ho
    simp only [if_true,append] at ho
    obtain ⟨d'',-,rfl⟩ := Option.map_eq_some_iff.1 ho
    rfl

/-- What gets into the buffer is the string itself, if and only if it is plain. -/
theorem wstrv_appends (hi : h.buf i=some b) (hd : h.store b.data=some d) (hf : Fits b d) (hb : Block d)
    (hg : CanGrow b d t.1 mem) :
    Appends h i b d t.1 ((vformat t.1).bind fun x => h.on i fun b d => wstrv b d (some x) mem) ↔ Plain t.1 := by
  have hon : ∀ x,h.on i (fun b d => wstrv b d (some x) mem)=(wstrv b d (some x) mem).map fun y =>
      ({buf := Function.update h.buf i (some y.1), store := Function.update h.store b.data (some y.2.1)},y.2.2) := fun x => by
    rw [Heap.on,hi,Option.bind_some,hd,Option.bind_some]
  have hwrites : ∀ x : List Byte,x.length≤t.1.length → Writes b d x x.length (wstrv b d (some x) mem) := fun x hx => by
    have ht := t.2
    refine wstrv_spec hf hb (fun y hy => ?_) (fun y hy hne hr => ?_) mem
    · cases hy
      unfold intMax
      omega
    · cases hy
      have hne' : t.1≠[] := by
        intro h0
        rw [h0] at hx
        exact hne (List.length_eq_zero_iff.1 (Nat.le_zero.1 hx))
      obtain ⟨b',d',hw⟩ := hg hne'
      exact wcheck_roomy hf hw ⟨by have := hr.1; omega,hr.2⟩
  constructor
  · rintro ⟨b',d',ho,-⟩
    obtain ⟨x,hx,ho⟩ := Option.bind_eq_some_iff.1 ho
    have hle := vformat_length hx
    rw [hon] at ho
    apply (vformat_whole hx).1
    obtain ⟨⟨b1,d1,r⟩,hw,heq⟩ := Option.map_eq_some_iff.1 ho
    have hr : r=(t.1.length : ℤ) := congrArg Prod.snd heq
    rcases hwrites x hle with ⟨b2,d2,hw2,_⟩ | ⟨b2,d2,r2,hw2,hbad,_⟩
    · rw [hw] at hw2
      have : r=(x.length : ℤ) := congrArg (fun o => o.2.2) (Option.some.inj hw2)
      omega
    · rw [hw] at hw2
      have hr2 : r=r2 := congrArg (fun o => o.2.2) (Option.some.inj hw2)
      rcases hbad with hneg | ⟨hz,rfl⟩
      · omega
      · simp only [List.length_nil]
        omega
  · intro hp
    rw [vformat_self hp,Option.bind_some,hon]
    rcases hwrites t.1 (Nat.le_refl _) with ⟨b1,d1,hw,hbc⟩ | ⟨b1,d1,r,hw,hbad,hk⟩
    · exact ⟨b1,d1,by rw [hw]; rfl,hbc⟩
    · have hret := wstrv_returns t.2 hg hw
      simp only at hret
      rcases hbad with hneg | ⟨hz,hnil⟩
      · omega
      · refine ⟨b1,d1,by rw [hw,← hret]; rfl,?_⟩
        rw [hnil,List.append_nil]
        exact hk

end Written

/-! ### dplog.c -/

def dplogBufsz : ℕ := 2048
def zeros (n : ℕ) : List Byte := List.replicate n 0
def ascii (s : String) : List Byte := s.toList.map fun c => UInt8.ofNat c.toNat

/- `%03d` and `%02d` of a number that is not negative -/
def decimal (width n : ℕ) : List Byte :=
  let x := (Nat.toDigits 10 n).map fun c => UInt8.ofNat c.toNat
  List.replicate (width-x.length) 48++x

def cString (s : List Byte) : List Byte := s.takeWhile (·≠0)

def dplogSname (l : ℤ) : List Byte :=
  if l≤0 then ascii "D" else if l=1 then ascii "I" else if l=2 then ascii "N" else if l=3 then ascii "W"
  else if l=4 then ascii "E" else ascii "A"

/-- What strftime writes, and the fraction when the logger has one. -/
structure Stamp where
  date : List Byte
  frac : Option (List Byte)
  short : date.length+(frac.getD []).length≤ dplogBufsz

/-- The level of the logger, the time, and the id of the thread's engine, 0 when it has none. -/
structure Logger where
  level : ℤ
  now : Stamp
  id : ℕ

/-- What stands between the time and the text. -/
def tag (L : Logger) (l : ℤ) : Option (List Byte) → List Byte
  | some domain => ascii "["++decimal 3 L.id++ascii "-"++dplogSname l++ascii "]("++cString domain++ascii ") "
  | none => ascii "["++decimal 2 L.id++ascii "-"++dplogSname l++ascii "] "

/-- A snprintf at txt+tsz, and the length that it returns; undefined when the room that is left is negative, which a size_t
takes for a large number. -/
def emit (t : List Byte × ℕ) (x : List Byte) : Option (List Byte × ℕ) :=
  if dplogBufsz< t.2 then none
  else some (if t.2=dplogBufsz then t.1 else put t.1 t.2 (x.take (dplogBufsz-t.2-1)++[0]),t.2+x.length)

/-- dplog_print -/
def dplogPrint (fmt : List Byte) : Option (List Byte) :=
  (vformat fmt).bind fun x => (emit (zeros dplogBufsz,0) x).map fun (txt,_) =>
    let sz := if x.length< dplogBufsz then x.length+1 else dplogBufsz
    (put txt (sz-1) [10]).take sz

/-- dplog_vprint: the line, or none where the level is below that of the logger. -/
def dplogVprint (L : Logger) (l : ℤ) (domain : Option (List Byte)) (fmt : List Byte) : Option (Option (List Byte)) :=
  if l<L.level then some none
  else
    (emit (zeros dplogBufsz,0) L.now.date).bind fun t => (L.now.frac.elim (some t) (emit t)).bind fun t =>
      (emit t (tag L l domain)).bind fun t => (vformat fmt).bind fun x => (emit t x).map fun (txt,_) =>
        let tsz := if dplogBufsz-t.2≤x.length then dplogBufsz-1 else t.2+x.length
        some ((put txt tsz [10]).take (tsz+1))

/-- The functions of dplog.lua that write a line. -/
inductive LogFn
  | print
  | level (l : ℤ) (domain : Option LuaString)

namespace LogFn
def debug (domain : Option LuaString) : LogFn := .level 0 domain
def info (domain : Option LuaString) : LogFn := .level 1 domain
def notice (domain : Option LuaString) : LogFn := .level 2 domain
def warn (domain : Option LuaString) : LogFn := .level 3 domain
def error (domain : Option LuaString) : LogFn := .level 4 domain
def alert (domain : Option LuaString) : LogFn := .level 5 domain
def eDebug : LogFn := .level 0 none
def eInfo : LogFn := .level 1 none
def eNotice : LogFn := .level 2 none
def eWarn : LogFn := .level 3 none
def eError : LogFn := .level 4 none
def eAlert : LogFn := .level 5 none
def eLevel (l : ℤ) : LogFn := .level l none
end LogFn

/-- The C function that is called, and what it writes: a line, or nothing. -/
def LogFn.call (L : Logger) : LogFn → List Byte → Option (Option (List Byte))
  | .print,t => (dplogPrint t).map some
  | .level l domain,t => dplogVprint L l (domain.map (·.1)) t

def logCall (L : Logger) (f : LogFn) (s : LuaString) (args : Option α) : Option (Option (List Byte)) :=
  (fmt format s args).bind fun t => f.call L t.1

/-- What stands before the text in a line. -/
def head (L : Logger) : LogFn → List Byte
  | .print => []
  | .level l domain => L.now.date++L.now.frac.getD []++tag L l (domain.map (·.1))

def quiet (L : Logger) : LogFn → Bool
  | .print => false
  | .level l _ => decide (l<L.level)

/-- The text as it is, up to the limit of a line. -/
def lineOf (L : Logger) (f : LogFn) (t : List Byte) : Option (List Byte) :=
  if quiet L f then none else some ((head L f++t).take (dplogBufsz-1)++[10])

/-- The text before the limit has no NUL and no percent sign, or only percent signs that are many enough; behind it there
are no directives other than %%; and what stands before the text fits in the line. -/
def Legible (L : Logger) (f : LogFn) (t : List Byte) : Prop :=
  quiet L f ∨ (head L f).length≤ dplogBufsz ∧ (vformat t).isSome ∧ Shown (dplogBufsz-1-(head L f).length) t

/-- The buffer holds `a` as far as it fits. -/
structure Line (t : List Byte × ℕ) (a : List Byte) : Prop where
  len : t.2=a.length
  held : ∃ z,t.1=a.take (dplogBufsz-1)++z
  size : t.1.length=dplogBufsz

theorem line_emit {t : List Byte × ℕ} {a : List Byte} (h : Line t a) (ha : a.length≤ dplogBufsz) (x : List Byte) :
    ∃ t',emit t x=some t' ∧ Line t' (a++x) := by
  obtain ⟨txt,tsz⟩ := t
  have hlen : tsz=a.length := h.len
  subst hlen
  obtain ⟨z,hz⟩ := h.held
  have hsize := h.size
  simp only at hz hsize
  have hb : dplogBufsz=2048 := rfl
  refine ⟨_,if_neg (Nat.not_lt.2 ha),by simp,?_,?_⟩
  · by_cases hfull : a.length=dplogBufsz
    · simp only [if_pos hfull]
      refine ⟨z,?_⟩
      rw [hz,List.take_append_of_le_length (by omega)]
    · simp only [if_neg hfull]
      have hwhole : a.take (dplogBufsz-1)=a := List.take_of_length_le (by omega)
      refine ⟨[0]++txt.drop (a.length+(x.take (dplogBufsz-a.length-1)++[0]).length),?_⟩
      have hsub : dplogBufsz-1-a.length=dplogBufsz-a.length-1 := by omega
      rw [put,hz,hwhole,List.take_left,List.take_append,hwhole,hsub]
      simp only [List.append_assoc]
  · by_cases hfull : a.length=dplogBufsz
    · simp only [if_pos hfull,hsize]
    · simp only [if_neg hfull]
      rw [length_put,hsize]
      rw [hsize,List.length_append,List.length_take,List.length_singleton]
      omega

theorem line_start : Line (zeros dplogBufsz,0) [] := ⟨rfl,⟨zeros dplogBufsz,rfl⟩,by simp [zeros]⟩

/-- The newline goes behind the text, or in the last place. -/
theorem line_end {t : List Byte × ℕ} {a : List Byte} (h : Line t a) {n : ℕ} (hn : n=min a.length (dplogBufsz-1)) :
    (put t.1 n [10]).take (n+1)=a.take (dplogBufsz-1)++[10] := by
  obtain ⟨z,hz⟩ := h.held
  have hlen : (a.take (dplogBufsz-1)).length=n := by rw [List.length_take,hn,Nat.min_comm]
  have hput : put t.1 n [10]=a.take (dplogBufsz-1)++([10]++t.1.drop (n+1)) := by
    rw [put,hz,← hlen,List.take_left,List.append_assoc]
    rfl
  rw [hput,← List.append_assoc]
  exact List.take_left' (by rw [List.length_append,hlen,List.length_singleton])

section Line
variable {L : Logger} {l : ℤ} {domain : Option (List Byte)} {t : List Byte}

theorem dplogPrint_line (h : vformat t=some x) : dplogPrint t=some (x.take (dplogBufsz-1)++[10]) := by
  obtain ⟨u,hu,hline⟩ := line_emit line_start (Nat.zero_le _) x
  have hb : dplogBufsz=2048 := rfl
  have hsz : (if x.length< dplogBufsz then x.length+1 else dplogBufsz)=min x.length (dplogBufsz-1)+1 := by
    split <;> omega
  rw [dplogPrint,h,Option.bind_some,hu,Option.map_some]
  simp only [hsz,Nat.add_sub_cancel]
  rw [line_end hline (by simp),List.nil_append]

/-- The buffer before the text, when what stands there fits. -/
theorem dplogVprint_head (domain : Option (List Byte)) (t : List Byte) (hq : ¬l<L.level) :
    ∃ u,Line u (L.now.date++L.now.frac.getD []++tag L l domain) ∧ dplogVprint L l domain t=
      (vformat t).bind fun x => (emit u x).map fun (txt,_) =>
        let tsz := if dplogBufsz-u.2≤x.length then dplogBufsz-1 else u.2+x.length
        some ((put txt tsz [10]).take (tsz+1)) := by
  have hshort := L.now.short
  obtain ⟨u,hu,hline⟩ := line_emit line_start (Nat.zero_le _) L.now.date
  rw [List.nil_append] at hline
  obtain ⟨v,hv,hline'⟩ : ∃ v,L.now.frac.elim (some u) (emit u)=some v ∧ Line v (L.now.date++L.now.frac.getD []) := by
    cases hf : L.now.frac with
    | none => exact ⟨u,rfl,by simpa using hline⟩
    | some f => exact line_emit hline (by omega) f
  obtain ⟨w,hw,hline''⟩ := line_emit hline' (by rw [List.length_append]; exact hshort) (tag L l domain)
  refine ⟨w,hline'',?_⟩
  rw [dplogVprint,if_neg hq,hu,Option.bind_some,hv,Option.bind_some,hw,Option.bind_some]

theorem dplogVprint_line {a : List Byte} (ha : a=L.now.date++L.now.frac.getD []++tag L l domain) (hq : ¬l<L.level)
    (hfit : a.length≤ dplogBufsz) (h : vformat t=some x) :
    dplogVprint L l domain t=some (some ((a++x).take (dplogBufsz-1)++[10])) := by
  obtain ⟨u,hline,hrun⟩ := dplogVprint_head domain t hq
  rw [← ha] at hline
  obtain ⟨v,hv,hline'⟩ := line_emit hline hfit x
  have hb : dplogBufsz=2048 := rfl
  have hlen := hline.len
  have htsz : (if dplogBufsz-u.2≤x.length then dplogBufsz-1 else u.2+x.length)=min (a++x).length (dplogBufsz-1) := by
    rw [List.length_append]
    split <;> omega
  rw [hrun,h,Option.bind_some,hv,Option.map_some]
  simp only [htsz]
  rw [line_end hline' rfl]

/-- A head that does not fit makes the length of the room negative. -/
theorem dplogVprint_long (hq : ¬l<L.level)
    (hlong : dplogBufsz<(L.now.date++L.now.frac.getD []++tag L l domain).length) : dplogVprint L l domain t=none := by
  obtain ⟨u,hline,hrun⟩ := dplogVprint_head domain t hq
  have hnone : ∀ x,emit u x=none := fun x => if_pos (by rw [hline.len]; exact hlong)
  rw [hrun]
  cases vformat t with
  | none => rfl
  | some x => rw [Option.bind_some,hnone]; rfl

theorem line_agrees {a : List Byte} :
    (a++x).take (dplogBufsz-1)++[10]=(a++t).take (dplogBufsz-1)++[(10 : Byte)] ↔
      x.take (dplogBufsz-1-a.length)=t.take (dplogBufsz-1-a.length) := by
  rw [List.append_left_inj,List.take_append,List.take_append,List.append_right_inj]

end Line

/-- A call to the log writes the text as it is, up to the limit of a line, if and only if the text is legible. -/
theorem logCall_legible {L : Logger} {f : LogFn} {s t : LuaString} {args : Option α} (h : fmt format s args=some t) :
    logCall format L f s args=some (lineOf L f t.1) ↔ Legible L f t.1 := by
  rw [logCall,h,Option.bind_some]
  by_cases hq : quiet L f=true
  · have hcall : f.call L t.1=some none := by
      cases f with
      | print => exact absurd hq (by simp [quiet])
      | level l domain => exact if_pos (of_decide_eq_true hq)
    rw [hcall,lineOf,if_pos hq]
    exact ⟨fun _ => .inl hq,fun _ => rfl⟩
  · have hwant : lineOf L f t.1=some ((head L f++t.1).take (dplogBufsz-1)++[10]) := if_neg hq
    have hlegible : Legible L f t.1 ↔
        (head L f).length≤ dplogBufsz ∧ (vformat t.1).isSome ∧ Shown (dplogBufsz-1-(head L f).length) t.1 :=
      ⟨fun h => h.resolve_left hq,.inr⟩
    rw [hwant,hlegible]
    cases hx : vformat t.1 with
    | none =>
        have hcall : f.call L t.1=none := by
          cases f with
          | print => simp [LogFn.call,dplogPrint,hx]
          | level l domain =>
              obtain ⟨u,-,hrun⟩ := dplogVprint_head (domain.map (·.1)) t.1 (fun hl => hq (decide_eq_true hl))
              rw [LogFn.call,hrun,hx]
              rfl
        rw [hcall]
        exact ⟨fun hs => absurd hs (by simp),fun hs => absurd hs.2.1 (by simp)⟩
    | some x =>
        by_cases hfit : (head L f).length≤ dplogBufsz
        · have hcall : f.call L t.1=some (some ((head L f++x).take (dplogBufsz-1)++[10])) := by
            cases f with
            | print => simp [LogFn.call,dplogPrint_line hx,head]
            | level l domain => exact dplogVprint_line rfl (fun hl => hq (decide_eq_true hl)) hfit hx
          rw [hcall,Option.some.injEq,Option.some.injEq,line_agrees,take_vformat hx]
          exact ⟨fun hs => ⟨hfit,rfl,hs⟩,fun hs => hs.2.2⟩
        · have hcall : f.call L t.1=none := by
            cases f with
            | print => exact absurd (Nat.zero_le _) hfit
            | level l domain => exact dplogVprint_long (fun hl => hq (decide_eq_true hl)) (Nat.not_le.1 hfit)
          rw [hcall]
          exact ⟨fun hs => absurd hs (by simp),fun hs => absurd hs.1 hfit⟩

/-- Strings that Lua code writes: the bytes that get into a buffer that can grow are those of the string, or those of
string.format, if and only if none of them is a NUL or a percent sign, and so it is with a line of the log up to its limit. -/
theorem lua_text_written (h : Heap β σ) (i : β) (b : Buf σ) (d : Data) (mem : Mem) (L : Logger) (f : LogFn) (s t : LuaString)
    (args : Option α) (num : Option CInt) (ht : fmt format s args=some t) (hi : h.buf i=some b) (hd : h.store b.data=some d)
    (hf : Fits b d) (hb : Block d) (hg : CanGrow b d t.1 mem) :
    (Appends h i b d t.1 (mfWstr format h i s args mem) ↔ Plain t.1) ∧
      (Appends h i b d t.1 (mfWrite format h i (.str s) args num mem) ↔ Plain t.1) ∧
      (logCall format L f s args=some (lineOf L f t.1) ↔ Legible L f t.1) := by
  have hwrite := wstrv_appends hi hd hf hb hg
  refine ⟨?_,?_,logCall_legible format ht⟩
  · rw [mfWstr,ht]
    exact hwrite
  · rw [mfWrite,ht]
    exact hwrite

/-! A buffer of eight bytes, a logger, and two strings. -/

def fresh : Buf Unit := {data := (), size := 8}
def block : Data := {data := List.replicate 9 0, maxs := 8}
def heap : Heap Unit Unit := {buf := fun _ => some fresh, store := fun _ => some block}
def logger : Logger := ⟨2,⟨ascii "2025-01-01T00:00:00",none,by decide⟩,7⟩
def noFormat : Format Unit := fun _ _ => none
def ok : LuaString := ⟨ascii "ok",by decide⟩
def half : LuaString := ⟨ascii "50%%",by decide⟩

theorem fits_fresh : Fits fresh block := by constructor <;> decide
theorem block_block : Block block := by constructor <;> decide

theorem canGrow_fresh {t : List Byte} (h : t.length<8) : CanGrow fresh block t none := by
  intro _
  refine ⟨fresh,block,if_neg ?_⟩
  simp only [fresh]
  omega

theorem lua_text_written_ok :
    (Appends heap () fresh block ok.1 (mfWstr noFormat heap () ok none none) ↔ Plain ok.1) ∧
      (Appends heap () fresh block ok.1 (mfWrite noFormat heap () (.str ok) none none none) ↔ Plain ok.1) ∧
      (logCall noFormat logger (.info none) ok none=some (lineOf logger (.info none) ok.1) ↔ Legible logger (.info none) ok.1) :=
  lua_text_written noFormat heap () fresh block none logger (.info none) ok ok none none rfl rfl rfl fits_fresh block_block
    (canGrow_fresh (by decide))

/-- The second percent sign is lost. -/
theorem half_halved : CanGrow fresh block half.1 none ∧
    ¬Appends heap () fresh block half.1 (mfWstr noFormat heap () half none none) := by
  have hg : CanGrow fresh block half.1 none := canGrow_fresh (by decide)
  refine ⟨hg,fun h => ?_⟩
  have hplain := (wstrv_appends (t := half) rfl rfl fits_fresh block_block hg).1 h
  exact absurd hplain (by decide)

end Dpapp.LuaWrite
