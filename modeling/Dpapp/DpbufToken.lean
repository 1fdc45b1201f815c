import Dpapp.DpbufFind

/-! # Tokens and their separators -/

namespace Dpapp.DpbufToken
open Dpapp.Segment Dpapp.Dpbuf Dpapp.DpbufSpec Dpapp.DpbufFind

variable {σ : Type*}

/-! ### Writing -/

/-- dpbuf_wdata of bytes that an int can count, if it writes them all; there is no call for none. -/
def writeBytes (b : Buf σ) (d : Data) (x : List Byte) (mem : Mem) : Option (Buf σ × Data) :=
  if x=[] then some (b,d)
  else if intMax<x.length then none
  else (wdata b d (some x) x.length mem).bind fun (b,d,r) => if r=x.length then some (b,d) else none

/-- Each token is followed by the separator, and at the end there is a rest without one. -/
def writeTokens (sep r : List Byte) (mem : Mem) : List (List Byte × Mem × Mem) → Buf σ → Data → Option (Buf σ × Data)
  | [],b,d => writeBytes b d r mem
  | (t,m,m')::ts,b,d => (writeBytes b d t m).bind fun (b,d) => (writeBytes b d sep m').bind fun (b,d) =>
      writeTokens sep r mem ts b d

def stream (sep r : List Byte) : List (List Byte) → List Byte
  | [] => r
  | t::ts => t++sep++stream sep r ts

section Write
variable {b b' : Buf σ} {d d' : Data} {x sep r : List Byte} {mem : Mem}

theorem writeBytes_appends (hf : Fits b d) (hb : Block d) (h : writeBytes b d x mem=some (b',d')) :
    Becomes b d b' d' (readable b d) (slack b d++x) := by
  unfold writeBytes at h
  split at h
  · rename_i hx
    cases h
    rw [hx,List.append_nil]
    exact keeps_refl hf hb
  · rename_i hx
    split at h
    · cases h
    · rename_i hint
      obtain ⟨⟨b1,d1,q⟩,hw,hq⟩ := Option.bind_eq_some_iff.mp h
      have hpos := List.length_pos_iff.mpr hx
      have hroomy : refits b x.length → roomy b d := by
        intro hr
        simp only [wdata,if_neg (by omega : ¬(x.length : ℤ)=0)] at hw
        obtain ⟨y,hy,-⟩ := Option.bind_eq_some_iff.mp hw
        exact wcheck_roomy hf hy hr
      have hspec := wdata_spec hf hb (by omega) (fun p (hp : p∈some x) => by cases hp; omega) hroomy mem
      rw [hw,Option.getD_some,Int.toNat_natCast,List.take_length] at hspec
      obtain ⟨b2,d2,he,hbc⟩ | ⟨b2,d2,q2,he,hq2,-⟩ := hspec
      · cases he
        simp only [if_true] at hq
        cases hq
        exact hbc
      · cases he
        simp only at hq
        split at hq
        · rename_i heq
          obtain hlt | ⟨-,hnil⟩ := hq2
          · omega
          · exact absurd hnil hx
        · cases hq

theorem writeTokens_appends {ts : List (List Byte × Mem × Mem)} (hf : Fits b d) (hb : Block d)
    (h : writeTokens sep r mem ts b d=some (b',d')) :
    Becomes b d b' d' (readable b d) (slack b d++stream sep r (ts.map (·.1))) := by
  induction ts generalizing b d with
  | nil => exact writeBytes_appends hf hb h
  | cons t ts ih =>
    obtain ⟨⟨b1,d1⟩,h1,h⟩ := Option.bind_eq_some_iff.mp h
    obtain ⟨⟨b2,d2⟩,h2,h⟩ := Option.bind_eq_some_iff.mp h
    have k1 := writeBytes_appends hf hb h1
    have k2 := writeBytes_appends k1.fits k1.grows.block h2
    have k3 := ih k2.fits k2.grows.block h
    have hall := keeps_then k1 (keeps_then k2 k3)
    rw [k2.readable,k1.readable,k2.slack,k1.slack] at hall
    simpa only [List.map_cons,stream,List.append_assoc] using hall

end Write

/-! ### Reading -/

/-- The readable window after each of `n` calls. -/
def reads (f : Buf σ → Data → Dpbuf.Step σ) : ℕ → Buf σ → Data → Option (List (List Byte) × Buf σ × Data)
  | 0,b,d => some ([],b,d)
  | n+1,b,d => (f b d).bind fun (b,d,_) => (reads f n b d).map fun (l,b',d') => (readable b d::l,b',d')

/-- Each call reads one token with its separator; the next one finds no more, and leaves the rest. -/
def Tokenised (f : Buf σ → Data → Dpbuf.Step σ) (sep r : List Byte) (ts : List (List Byte)) (b : Buf σ) (d : Data) : Prop :=
  ∃ b1 d1,reads f ts.length b d=some (ts.map (·++sep),b1,d1) ∧
    ∃ b2 d2 q,f b1 d1=some (b2,d2,q) ∧ q≤0 ∧ readable b2 d2=[] ∧ slack b2 d2=r

section Read
variable {f : Buf σ → Data → Dpbuf.Step σ} {sep r t : List Byte} {ts : List (List Byte)} {b b' : Buf σ} {d d' : Data} {q : ℤ}

theorem tokenised_nil (h : f b d=some (b',d',q)) :
    Tokenised f sep r [] b d ↔ q≤0 ∧ readable b' d'=[] ∧ slack b' d'=r := by
  constructor
  · rintro ⟨b1,d1,hr,b2,d2,q2,h2,hq⟩
    cases hr
    cases h.symm.trans h2
    exact hq
  · intro hq
    exact ⟨b,d,rfl,b',d',q,h,hq⟩

theorem tokenised_cons (h : f b d=some (b',d',q)) :
    Tokenised f sep r (t::ts) b d ↔ readable b' d'=t++sep ∧ Tokenised f sep r ts b' d' := by
  unfold Tokenised
  rw [List.length_cons,reads,h]
  simp only [Option.bind_some,List.map_cons]
  constructor
  · rintro ⟨b1,d1,hr,hend⟩
    obtain ⟨⟨l,b2,d2⟩,hl,he⟩ := Option.map_eq_some_iff.mp hr
    simp only [Prod.mk.injEq,List.cons.injEq] at he
    obtain ⟨⟨hw,rfl⟩,rfl,rfl⟩ := he
    exact ⟨hw,_,_,hl,hend⟩
  · rintro ⟨hw,b1,d1,hl,hend⟩
    refine ⟨b1,d1,?_,hend⟩
    rw [hl,Option.map_some,hw]

end Read

/-! ### dpbuf_runtil -/

/-- The buffer while dpbuf_runtil searches: the window is what was behind it. -/
def ahead (l : Live σ) : Live σ where
  b := {l.b with rbeg := l.b.rend, rend := l.b.wbeg}
  d := l.d
  fits := ⟨by have := l.fits.rbeg; have := l.fits.rend; simp only; omega,l.fits.wbeg,le_rfl,l.fits.size,l.fits.maxs⟩
  block := l.block

section Until
variable {l : Live σ} {sep r : List Byte} {ts : List (List Byte)}

theorem cfind_ahead (l : Live σ) (sep : List Byte) : cfind (ahead l).b l.d (some sep) sep.length 0=
    some (if sep=[] ∨ l.b.wbeg-l.b.rend<sep.length then enodata else
      match find sep (slack l.b l.d) with
      | none => eperm
      | some i => i) := by
  have hp : pointer sep sep.length := by
    unfold pointer
    rw [if_neg (by omega)]
  have hg : given sep sep.length=sep := by
    unfold given
    rw [if_neg (by omega),Int.toNat_natCast,List.take_length]
  have h := cfind_eq (ahead l) hp le_rfl (by have := l.fits.wbeg; simp only [ahead,Buf.crsize]; omega)
  rw [hg] at h
  simp only [zero_add,Int.toNat_zero,List.drop_zero] at h
  exact h

theorem runtil_token {i : ℕ} (hne : sep≠[]) (hfind : find sep (slack l.b l.d)=some i) :
    ∃ b',runtil l.b l.d (some sep) sep.length=some (b',l.d,(i : ℤ)+sep.length) ∧
      Becomes l.b l.d b' l.d ((slack l.b l.d).take (i+sep.length)) ((slack l.b l.d).drop (i+sep.length)) := by
  have hlen := length_slack l.fits l.block
  have hle := find_le hfind
  have hread := reader_spec l.fits l.block (n := ((i+sep.length : ℕ) : ℤ)) (by omega) (by omega)
  rw [Int.toNat_natCast] at hread
  have hc := cfind_ahead l sep
  rw [if_neg (by rintro (h | h); exacts [hne h,by omega]),hfind] at hc
  refine ⟨_,?_,hread⟩
  unfold runtil
  simp only
  rw [show cfind {l.b with rbeg := l.b.rend, rend := l.b.wbeg} l.d (some sep) sep.length 0=some (i : ℤ) from hc]
  simp only [Option.map_some,if_neg (by omega : ¬(i : ℤ)<0)]
  push_cast
  rfl

theorem runtil_end (hfind : find sep (slack l.b l.d)=none) : ∃ b' q,
    runtil l.b l.d (some sep) sep.length=some (b',l.d,q) ∧ q≤0 ∧ Becomes l.b l.d b' l.d [] (slack l.b l.d) := by
  have h2 := l.fits.wbeg
  have hread := reader_spec l.fits l.block (n := 0) le_rfl (by omega)
  rw [Int.toNat_zero,List.take_zero,List.drop_zero,add_zero] at hread
  have hc := cfind_ahead l sep
  rw [hfind] at hc
  obtain ⟨e,he,hneg⟩ : ∃ e : ℤ,cfind {l.b with rbeg := l.b.rend, rend := l.b.wbeg} l.d (some sep) sep.length 0=some e ∧ e<0 := by
    refine ⟨_,hc,?_⟩
    split <;> decide
  refine ⟨_,enodata,?_,by decide,hread⟩
  unfold runtil
  simp only
  rw [he]
  simp only [Option.map_some,if_pos hneg]

theorem runtil_tokens (hne : sep≠[]) (hts : ∀ t∈ts,find sep (t++sep)=some t.length) (hr : find sep r=none)
    (hs : slack l.b l.d=stream sep r ts) :
    Tokenised (fun b d => runtil b d (some sep) sep.length) sep r ts l.b l.d := by
  induction ts generalizing l with
  | nil =>
    have hs' : slack l.b l.d=r := hs
    obtain ⟨b',q,he,hq,hbc⟩ := runtil_end (show find sep (slack l.b l.d)=none by rw [hs']; exact hr)
    exact (tokenised_nil he).mpr ⟨hq,hbc.readable,hbc.slack.trans hs'⟩
  | cons t ts ih =>
    have hfind : find sep (slack l.b l.d)=some t.length := by
      rw [hs]
      exact find_append (hts t (List.mem_cons_self ..))
    obtain ⟨b',he,hbc⟩ := runtil_token hne hfind
    have hlen : t.length+sep.length=(t++sep).length := by rw [List.length_append]
    rw [hs,stream,hlen,List.take_left,List.drop_left] at hbc
    refine (tokenised_cons he).mpr ⟨hbc.readable,?_⟩
    exact ih (l := ⟨b',l.d,hbc.fits,l.block⟩) (fun t ht => hts t (List.mem_cons_of_mem _ ht)) hbc.slack

end Until

/-! ### dpbuf_rcstr -/

/-- How much dpbuf_rcstr reads: the NUL goes with the bytes before it, if there are any. -/
def cseg (x : List Byte) : ℕ :=
  let len := (x.takeWhile (·≠0)).length
  if 0<len ∧ len<x.length then len+1 else len

section Cstr
variable {l : Live σ} {r t rest : List Byte} {ts : List (List Byte)}

theorem cseg_le (x : List Byte) : cseg x≤x.length := by
  have hle := (List.takeWhile_sublist (l := x) (·≠0)).length_le
  unfold cseg
  simp only
  split <;> omega

theorem takeWhile_free (h : (0 : Byte)∉t) (x : List Byte) : (t++x).takeWhile (·≠0)=t++x.takeWhile (·≠0) := by
  refine List.takeWhile_append_of_pos ?_
  intro y hy
  have hne : y≠0 := fun h0 => h (h0 ▸ hy)
  simpa using hne

theorem cseg_token (h : (0 : Byte)∉t) (hne : t≠[]) : cseg (t++[0]++rest)=(t++[0]).length := by
  have hpos := List.length_pos_iff.mpr hne
  unfold cseg
  rw [List.append_assoc,takeWhile_free h]
  simp only [List.singleton_append,List.takeWhile_cons,ne_eq,not_true,decide_false,Bool.false_eq_true,if_false,
    List.append_nil,List.length_append,List.length_cons,List.length_nil]
  rw [if_pos (by omega)]

theorem cseg_empty : cseg (0::rest)=0 := by simp [cseg]

theorem cseg_rest (h : (0 : Byte)∉r) : cseg r=r.length := by
  have ht := takeWhile_free h []
  rw [List.append_nil,List.takeWhile_nil,List.append_nil] at ht
  unfold cseg
  rw [ht]
  simp

theorem rcstr_eq (l : Live σ) : ∃ b',rcstr l.b l.d=some (b',l.d,(cseg (slack l.b l.d) : ℤ)) ∧
    Becomes l.b l.d b' l.d ((slack l.b l.d).take (cseg (slack l.b l.d))) ((slack l.b l.d).drop (cseg (slack l.b l.d))) := by
  have hlen := length_slack l.fits l.block
  have hle := cseg_le (slack l.b l.d)
  have hread := reader_spec l.fits l.block (n := (cseg (slack l.b l.d) : ℤ)) (by omega) (by omega)
  rw [Int.toNat_natCast] at hread
  have hn : (if 0<(((slack l.b l.d).takeWhile (·≠0)).length : ℤ) ∧
      (((slack l.b l.d).takeWhile (·≠0)).length : ℤ)<l.b.wbeg-l.b.rend then
      (((slack l.b l.d).takeWhile (·≠0)).length : ℤ)+1 else ((slack l.b l.d).takeWhile (·≠0)).length)=
      (cseg (slack l.b l.d) : ℤ) := by
    unfold cseg
    simp only
    split <;> split <;> omega
  refine ⟨_,?_,hread⟩
  unfold rcstr
  simp only
  rw [load_slack l.fits l.block]
  simp only [Option.map_some,hn]

theorem rcstr_tokens (hts : ∀ t∈ts,(0 : Byte)∉t) (hr : (0 : Byte)∉r) (hs : slack l.b l.d=stream [0] r ts) :
    Tokenised rcstr [0] r ts l.b l.d ↔ (∀ t∈ts,t≠[]) ∧ r=[] := by
  induction ts generalizing l with
  | nil =>
    obtain ⟨b',he,hbc⟩ := rcstr_eq l
    have hs' : slack l.b l.d=r := hs
    rw [hs',cseg_rest hr,List.take_length,List.drop_length] at hbc
    rw [tokenised_nil he,hs',cseg_rest hr,hbc.readable,hbc.slack]
    constructor
    · rintro ⟨-,h,-⟩
      exact ⟨fun t ht => (by cases ht),h⟩
    · rintro ⟨-,rfl⟩
      exact ⟨le_rfl,rfl,rfl⟩
  | cons t ts ih =>
    obtain ⟨b',he,hbc⟩ := rcstr_eq l
    have hfree := hts t (List.mem_cons_self ..)
    rw [hs,stream] at hbc
    rw [tokenised_cons he,List.forall_mem_cons]
    by_cases hne : t=[]
    · -- the NUL is not taken
      subst hne
      rw [List.nil_append,List.singleton_append,cseg_empty,List.take_zero] at hbc
      rw [hbc.readable]
      simp
    · rw [cseg_token hfree hne,List.take_left,List.drop_left] at hbc
      have hih := ih (l := ⟨b',l.d,hbc.fits,l.block⟩) (fun t ht => hts t (List.mem_cons_of_mem _ ht)) hbc.slack
      rw [hih,hbc.readable,and_assoc]
      simp [hne]

end Cstr

/-- What was written with separators is read token by token: by dpbuf_runtil for every separator that does not begin early,
by dpbuf_rcstr exactly if no token is empty and the last NUL is there. -/
theorem tokens_right (l : Live σ) (ts : List (List Byte × Mem × Mem)) (sep r : List Byte) (mem : Mem) (b : Buf σ) (d : Data)
    (hempty : slack l.b l.d=[]) (hw : writeTokens sep r mem ts l.b l.d=some (b,d)) :
    (sep≠[] → (∀ t∈ts.map (·.1),find sep (t++sep)=some t.length) → find sep r=none →
      Tokenised (fun b d => runtil b d (some sep) sep.length) sep r (ts.map (·.1)) b d) ∧
    (sep=[0] → (∀ t∈ts.map (·.1),(0 : Byte)∉t) → (0 : Byte)∉r →
      (Tokenised rcstr sep r (ts.map (·.1)) b d ↔ (∀ t∈ts.map (·.1),t≠[]) ∧ r=[])) := by
  have hbc := writeTokens_appends l.fits l.block hw
  rw [hempty,List.nil_append] at hbc
  refine ⟨fun hne hts hr => ?_,?_⟩
  · exact runtil_tokens (l := ⟨b,d,hbc.fits,hbc.grows.block⟩) hne hts hr hbc.slack
  · rintro rfl hts hr
    exact rcstr_tokens (l := ⟨b,d,hbc.fits,hbc.grows.block⟩) hts hr hbc.slack

/-- An empty buffer of eight bytes. -/
def eight : Live Unit :=
  ⟨{data := (), size := 8},{data := List.replicate 9 0, maxs := 8},by constructor <;> decide,by constructor <;> decide⟩

/-- "a" and nothing before commas of two bytes, with the rest "d"; and "a" and "b" before NULs. -/
theorem tokens_right_words : (∃ b d,writeTokens [44,44] [100] none [([97],none,none),([],none,none)] eight.b eight.d=some (b,d) ∧
      Tokenised (fun b d => runtil b d (some [44,44]) 2) [44,44] [100] [[97],[]] b d) ∧
    ∃ b d,writeTokens [0] [] none [([97],none,none),([98],none,none)] eight.b eight.d=some (b,d) ∧
      Tokenised rcstr [0] [] [[97],[98]] b d := by
  have hcomma : (writeTokens [44,44] [100] none [([97],none,none),([],none,none)] eight.b eight.d).isSome=true := by decide
  have hnul : (writeTokens [0] [] none [([97],none,none),([98],none,none)] eight.b eight.d).isSome=true := by decide
  obtain ⟨⟨b,d⟩,he⟩ := Option.isSome_iff_exists.mp hcomma
  obtain ⟨⟨b',d'⟩,he'⟩ := Option.isSome_iff_exists.mp hnul
  refine ⟨⟨b,d,he,?_⟩,b',d',he',?_⟩
  · exact (tokens_right eight _ _ _ _ b d (by decide) he).1 (by decide) (by decide) (by decide)
  · exact ((tokens_right eight _ _ _ _ b' d' (by decide) he').2 rfl (by decide) (by decide)).mpr (by decide)

/-- An empty string is written, and dpbuf_rcstr never gets over its NUL. -/
theorem rcstr_stuck : ¬∀ (l : Live Unit) (ts : List (List Byte × Mem × Mem)) (mem : Mem) (b : Buf Unit) (d : Data),
    slack l.b l.d=[] → writeTokens [0] [] mem ts l.b l.d=some (b,d) → (∀ t∈ts.map (·.1),(0 : Byte)∉t) →
    Tokenised rcstr [0] [] (ts.map (·.1)) b d := by
  intro h
  have hrun : ((writeTokens [0] [] none [([],none,none)] eight.b eight.d).any fun x =>
      (reads rcstr 1 x.1 x.2).all fun y => y.1≠[[0]])=true := by decide
  obtain ⟨⟨b,d⟩,he,hall⟩ := (Option.any_eq_true _ _).mp hrun
  obtain ⟨b1,d1,hr,-⟩ := h eight _ none b d (by decide) he (by decide)
  simp only [List.map_cons,List.map_nil,List.length_cons,List.length_nil,zero_add] at hr
  rw [hr] at hall
  exact absurd hall (by simp)

end Dpapp.DpbufToken
