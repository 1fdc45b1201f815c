import Dpapp.StreamIo

/-! # Operations over `_dpaio_buf_post` (dpasc.c)

A dpaio operation calls `sub->post`, here `_dpaio_buf_post`, whenever it is woken, and goes on with what that has returned.
The operation is a parameter: `β` is the memory it works on, `ω` its arguments, `τ` its `_dpaio_stm_t`, and `ε` what else
the prep and post functions depend on. -/

namespace Dpapp.AioOp
open Dpapp.Machine Dpapp.Ret
open Dpapp.StreamIo (Call dpaioBufPost int32 int32_eq)

variable {α β ω τ ε : Type*}

/-- `move` is the effect of a call that moves these bytes at this offset of io.buf, and `post` what follows `sub->post`. -/
structure Op (α β ω τ ε : Type*) where
  prep : ε → ω → β → Option (β × (Dpret ⊕ τ))
  ioLen : τ → ℤ
  move : β → τ → ℤ → List α → Option β
  post : ε → β → τ → Dpret → Option (β × τ × Dpret)

/-- The call that has ended an operation: the memory then, and how many bytes the calls of this post function have moved. -/
structure Last (β τ ε : Type*) where
  mem : β
  stm : τ
  got : ℤ
  call : Call
  env : ε

/-- An operation that is over. -/
structure Done (α β ω τ ε : Type*) where
  arg : ω
  before : β
  moved : List α
  ret : Dpret
  after : β
  last : Option (Last β τ ε) := none

/-- `run` is the local `total` of `_dpaio_buf_post` while it runs, `moved` all that the calls of the operation have moved. -/
structure Pend (α β ω τ : Type*) where
  arg : ω
  before : β
  stm : τ
  run : Option ℤ := none
  moved : List α := []

structure Sys (α β ω τ ε : Type*) where
  mem : β
  pend : Option (Pend α β ω τ) := none
  done : List (Done α β ω τ ε) := []

/-- The caller uses the memory, or begins an operation; a wake-up; a call of the post function that runs. -/
inductive Act (α β ω ε : Type*)
  | use (b : β)
  | add (w : ω) (e : ε)
  | post
  | call (c : Call) (x : List α) (e : ε)

/-- The engine takes the result of the post function. -/
def Sys.posted (s : Sys α β ω τ ε) (p : Pend α β ω τ) (l : Last β τ ε) (x : β × τ × Dpret) : Sys α β ω τ ε :=
  if x.2.2=dpeWait then {s with mem := x.1, pend := some {p with stm := x.2.1, run := none}}
  else {s with mem := x.1, pend := none, done := s.done++[⟨p.arg,p.before,p.moved,x.2.2,x.1,some l⟩]}

variable (op : Op α β ω τ ε)

def step (s : Sys α β ω τ ε) : Act α β ω ε → Option (Sys α β ω τ ε)
  | .use b => if s.pend.isNone then some {s with mem := b} else none
  | .add w e =>
      if s.pend.isNone then
        (op.prep e w s.mem).map fun x =>
          match x.2 with
          | .inl r => {s with mem := x.1, done := s.done++[⟨w,s.mem,[],r,x.1,none⟩]}
          | .inr t => {s with mem := x.1, pend := some ⟨w,s.mem,t,none,[]⟩}
      else none
  | .post =>
      match s.pend with
      | some ⟨w,b,t,none,x⟩ => some {s with pend := some ⟨w,b,t,some 0,x⟩}
      | _ => none
  | .call c x e =>
      match s.pend with
      | some ⟨w,b,t,some m,y⟩ =>
          if x.length=c.res.toNat ∧ c.res≤op.ioLen t-m ∧ (c.res<0 → 0<c.errno) then
            (op.move s.mem t m x).bind fun mem =>
              match dpaioBufPost (op.ioLen t) ∅ m c with
              | (total,none) => some {s with mem := mem, pend := some ⟨w,b,t,some total,y++x⟩}
              | (total,some r) =>
                  (op.post e mem t r.ret).map ({s with mem := mem}.posted ⟨w,b,t,some total,y++x⟩ ⟨mem,t,total,c,e⟩)
          else none
      | _ => none

/-- How `_dpaio_buf_post` ends: `m` bytes have been moved, and its last call is `c`. -/
inductive Outcome (len m : ℤ) (c : Call) : Dpret → Prop
  | full (h : 0<c.res) (hm : m=len) (h0 : 0< m) : Outcome len m c m
  | short (h : c.res<0) (hm : 0< m) (hlt : m<len) : Outcome len m c m
  | eof (h : c.res=0) : Outcome len m c dpeEof
  | fail (h : c.res<0) (hm : m=0) (he : 0<c.errno) : Outcome len m c (-c.errno)

/-- What an operation keeps: `valid` of the memory between operations, `mid` while one goes on that has moved these bytes,
so many of them in the calls of the post function that runs, and `good` of the one that is over. -/
structure Spec (valid : β → Prop) (mid : ω → β → β → τ → List α → ℤ → Prop) (good : Done α β ω τ ε → Prop) : Prop where
  prep : ∀ {e w b b' r},valid b → op.prep e w b=some (b',.inl r) → valid b' ∧ good ⟨w,b,[],r,b',none⟩
  start : ∀ {e w b b' t},valid b → op.prep e w b=some (b',.inr t) → mid w b b' t [] 0
  size : ∀ {w a b t y m},mid w a b t y m → 0≤op.ioLen t ∧ op.ioLen t<2^31
  move : ∀ {w a b b' t x y m},mid w a b t y m → 0≤ m → m+x.length≤op.ioLen t → op.move b t m x=some b' →
    mid w a b' t (y++x) (m+x.length)
  post : ∀ {w a b b' t t' y m e c r r'},mid w a b t y m → 0≤ m → m≤op.ioLen t → Outcome (op.ioLen t) m c r →
    op.post e b t r=some (b',t',r') →
      if r'=dpeWait then mid w a b' t' y 0 else valid b' ∧ good ⟨w,a,y,r',b',some ⟨b,t,m,c,e⟩⟩

/-- Between operations the caller leaves the memory valid. -/
def proper (valid : β → Prop) (_ : Sys α β ω τ ε) : Act α β ω ε → Prop
  | .use b => valid b
  | .add .. | .post | .call .. => True

def Act.isUse : Act α β ω ε → Bool
  | .use _ => true
  | .add .. | .post | .call .. => false

theorem proper_any {s : Sys α β ω τ ε} {a : Act α β ω ε} : proper (fun _ => True) s a := by
  cases a <;> trivial

structure Inv (valid : β → Prop) (mid : ω → β → β → τ → List α → ℤ → Prop) (good : Done α β ω τ ε → Prop)
    (s : Sys α β ω τ ε) : Prop where
  idle : s.pend=none → valid s.mem
  pend : ∀ p,s.pend=some p → mid p.arg p.before s.mem p.stm p.moved (p.run.getD 0) ∧ 0≤p.run.getD 0 ∧
    (p.run.isSome → p.run.getD 0≤op.ioLen p.stm ∧ (0<p.run.getD 0 → p.run.getD 0<op.ioLen p.stm))
  done : ∀ d∈ s.done,good d

section Runs
variable {op} {valid : β → Prop} {mid : ω → β → β → τ → List α → ℤ → Prop} {good : Done α β ω τ ε → Prop}
  {s u : Sys α β ω τ ε}

/-- A turn of `_dpaio_buf_post`, when `m` bytes have been moved before it. -/
theorem turn_cases {len m : ℤ} {c : Call} (hm : 0≤ m) (hlt : 0< m → m<len) (hlen : len<2^31) (hc : c.res≤len-m)
    (he : c.res<0 → 0<c.errno) : (dpaioBufPost len ∅ m c=(m+c.res.toNat,none) ∧ m+c.res.toNat<len) ∨
      ∃ p,dpaioBufPost len ∅ m c=(m+c.res.toNat,some p) ∧ Outcome len (m+c.res.toNat) c p.ret := by
  unfold dpaioBufPost StreamIo.loopTurn
  rcases lt_trichotomy c.res 0 with hneg | hzero | hpos
  · have hn : m+c.res.toNat=m := by omega
    rw [if_neg (by omega),if_neg (by omega),hn]
    refine .inr ⟨_,rfl,?_⟩
    simp only
    split
    · rename_i hgot
      exact .short hneg (by omega) (by omega)
    · exact .fail hneg (by omega) (he hneg)
  · have hn : m+c.res.toNat=m := by omega
    rw [if_neg (by omega),if_pos hzero,hn]
    exact .inr ⟨_,rfl,.eof hzero⟩
  · have hn : m+c.res=m+c.res.toNat := by omega
    rw [if_pos hpos,int32_eq (by omega) (by omega),hn]
    split
    · rename_i hfull
      exact .inr ⟨_,rfl,.full hpos hfull (by omega)⟩
    · rename_i hfull
      exact .inl ⟨rfl,by omega⟩

theorem call_inv (h : Spec op valid mid good) {w : ω} {b : β} {t : τ} {m : ℤ} {y x : List α} {c : Call} {e : ε}
    (hs : Inv op valid mid good s) (hp : s.pend=some ⟨w,b,t,some m,y⟩) (hu : step op s (.call c x e)=some u) :
    Inv op valid mid good u := by
  obtain ⟨hmid,h0,hm⟩ := hs.pend _ hp
  simp only [Option.getD_some,Option.isSome_some,forall_const] at hmid h0 hm
  simp only [step,hp] at hu
  split at hu
  · rename_i hg
    obtain ⟨hx,hroom,herr⟩ := hg
    obtain ⟨mem,hmem,hu⟩ := Option.bind_eq_some_iff.mp hu
    have hlen : m+x.length≤op.ioLen t := by omega
    have hmid := h.move hmid h0 hlen hmem
    have hpos : 0≤ m+(x.length : ℤ) := by omega
    rcases turn_cases h0 hm.2 (h.size hmid).2 hroom herr with ⟨hturn,hlt⟩ | ⟨p,hturn,hout⟩
    · rw [hturn,← hx] at hu
      cases hu
      refine ⟨fun hn => (by cases hn),fun q hq => ?_,hs.done⟩
      cases hq
      exact ⟨hmid,hpos,fun _ => ⟨hlen,fun _ => by rw [hx]; exact hlt⟩⟩
    · rw [hturn,← hx] at hu
      rw [← hx] at hout
      obtain ⟨⟨mem',t',r⟩,hpost,rfl⟩ := Option.map_eq_some_iff.mp hu
      have hend := h.post (e := e) hmid hpos hlen hout hpost
      unfold Sys.posted
      by_cases hr : r=dpeWait
      · simp only [if_pos hr] at hend ⊢
        refine ⟨fun hn => (by cases hn),fun q hq => ?_,hs.done⟩
        cases hq
        exact ⟨hend,le_rfl,fun hn => (by cases hn)⟩
      · simp only [if_neg hr] at hend ⊢
        refine ⟨fun _ => hend.1,fun q hq => (by cases hq),fun d hd => ?_⟩
        rcases List.mem_append.mp hd with hd | hd
        · exact hs.done d hd
        · rw [List.mem_singleton.mp hd]
          exact hend.2
  · cases hu

theorem inv_step (h : Spec op valid mid good) {a : Act α β ω ε} (hs : Inv op valid mid good s) (ha : proper valid s a)
    (hu : step op s a=some u) : Inv op valid mid good u := by
  cases a with
  | use b =>
    simp only [step] at hu
    split at hu
    · rename_i hn
      cases hu
      rw [Option.isNone_iff_eq_none] at hn
      exact ⟨fun _ => ha,fun p hp => (by rw [hn] at hp; cases hp),hs.done⟩
    · cases hu
  | add w e =>
    simp only [step] at hu
    split at hu
    · rename_i hn
      rw [Option.isNone_iff_eq_none] at hn
      have hv := hs.idle hn
      obtain ⟨⟨b,r⟩,hprep,rfl⟩ := Option.map_eq_some_iff.mp hu
      cases r with
      | inl r =>
        obtain ⟨hb,hgood⟩ := h.prep hv hprep
        refine ⟨fun _ => hb,fun p hp => (by rw [hn] at hp; cases hp),fun d hd => ?_⟩
        rcases List.mem_append.mp hd with hd | hd
        · exact hs.done d hd
        · rw [List.mem_singleton.mp hd]
          exact hgood
      | inr t =>
        refine ⟨fun hn => (by cases hn),fun p hp => ?_,hs.done⟩
        cases hp
        exact ⟨h.start hv hprep,le_rfl,fun hn => (by cases hn)⟩
    · cases hu
  | post =>
    simp only [step] at hu
    split at hu
    · rename_i w b t x hp
      cases hu
      obtain ⟨hmid,-⟩ := hs.pend _ hp
      refine ⟨fun hn => (by cases hn),fun q hq => ?_,hs.done⟩
      cases hq
      exact ⟨hmid,le_rfl,fun _ => ⟨(h.size hmid).1,fun hn => absurd hn (lt_irrefl 0)⟩⟩
    · cases hu
  | call c x e =>
    cases hp : s.pend with
    | none =>
      simp only [step,hp] at hu
      cases hu
    | some p =>
      obtain ⟨w,b,t,run,y⟩ := p
      cases run with
      | none =>
        simp only [step,hp] at hu
        cases hu
      | some m => exact call_inv h hs hp hu

theorem exec_proper {acts : List (Act α β ω ε)} (hno : acts.all (fun a => !a.isUse)=true)
    (h : exec (step op) s acts=some u) : Reach (step op) (proper valid) s u := by
  induction acts generalizing s with
  | nil =>
    cases h
    exact .refl
  | cons a acts ih =>
    obtain ⟨t,ht,hrest⟩ := Option.bind_eq_some_iff.mp h
    rw [List.all_cons,Bool.and_eq_true_iff] at hno
    refine (Reach.tail .refl ?_ ht).trans (ih hno.2 hrest)
    cases a with
    | use b => cases hno.1
    | add w e => trivial
    | post => trivial
    | call c x e => trivial

/-- The memory before any operation. -/
def start (b : β) : Sys α β ω τ ε := {mem := b}

/-- What the three functions of an operation keep, every run keeps. -/
theorem run_inv (h : Spec op valid mid good) {b : β} (hb : valid b) (hr : Reach (step op) (proper valid) (start b) s) :
    Inv op valid mid good s :=
  hr.invariant ⟨fun _ => hb,fun _ hp => (by cases hp),fun _ hd => (by cases hd)⟩ fun _ _ _ hs ha hu => inv_step h hs ha hu

end Runs

end Dpapp.AioOp
