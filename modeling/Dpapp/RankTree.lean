import Mathlib.Data.List.Nodup
import Mathlib.Tactic.Ring

/-! # Rank-balanced trees

An edge has length 1, or 2 where it is red. All ways from a node down to an
empty tree are equally long, and that is the rank of the node; a leaf has rank 1. -/

namespace Dpapp.RankTree

inductive Dir | left | right
  deriving DecidableEq

def Dir.flip : Dir → Dir
  | .left => .right
  | .right => .left

@[simp] theorem Dir.flip_flip (d : Dir) : d.flip.flip=d := by cases d <;> rfl
@[simp] theorem Dir.flip_ne (d : Dir) : d.flip≠d := by cases d <;> decide
@[simp] theorem Dir.ne_flip (d : Dir) : d≠d.flip := by cases d <;> decide

theorem Dir.eq_or_flip (d e : Dir) : e=d ∨ e=d.flip := by cases d <;> cases e <;> simp [Dir.flip]

theorem forall_dir {P : Dir → Prop} (d : Dir) : (∀ e,P e) ↔ P d ∧ P d.flip := by
  refine ⟨fun h => ⟨h d,h d.flip⟩,fun h e => ?_⟩
  rcases d.eq_or_flip e with rfl | rfl
  · exact h.1
  · exact h.2

/-- `a` on this side, `b` on the other. -/
def pick {α : Type*} (d : Dir) (a b : α) : Dir → α := fun e => if e=d then a else b

section Pick
variable {α : Type*} {d : Dir} {a b : α}

@[simp] theorem pick_self : pick d a b d=a := if_pos rfl
@[simp] theorem pick_flip : pick d a b d.flip=b := if_neg d.flip_ne
theorem pick_eta (d : Dir) (f : Dir → α) : pick d (f d) (f d.flip)=f :=
  funext ((forall_dir d).mpr ⟨pick_self,pick_flip⟩)
theorem pick_swap : pick d.flip a b=pick d b a := by
  refine funext ((forall_dir d).mpr ⟨?_,?_⟩)
  · rw [pick_self,pick,if_neg d.ne_flip]
  · rw [pick_flip,pick,if_pos rfl]

theorem pick_const : pick d a a=fun _ => a := pick_eta d fun _ => a

theorem pick_or {p q : Bool} : (pick d p q .left=true ∨ pick d p q .right=true) ↔ p=true ∨ q=true := by
  cases d
  · exact Iff.rfl
  · exact or_comm

theorem pick_and {p q : Bool} : (pick d p q .left=false ∧ pick d p q .right=false) ↔ p=false ∧ q=false := by
  cases d
  · exact Iff.rfl
  · exact and_comm

theorem eq_pick {f : Dir → α} : f=pick d a b ↔ f d=a ∧ f d.flip=b := by
  constructor
  · rintro rfl
    exact ⟨pick_self,pick_flip⟩
  · rintro ⟨rfl,rfl⟩
    exact (pick_eta d f).symm

end Pick

inductive Bintree (κ : Type*)
  | nil
  | node (x : κ) (red : Dir → Bool) (sub : Dir → Bintree κ)

variable {κ : Type*}

namespace Bintree

def root : Bintree κ → Option κ
  | .nil => none
  | .node x _ _ => some x

def toList : Bintree κ → List κ
  | .nil => []
  | .node x _ sub => toList (sub .left)++x::toList (sub .right)

def depth : Bintree κ → ℕ
  | .nil => 0
  | .node _ _ sub => max (depth (sub .left)) (depth (sub .right))+1

end Bintree

def leaf (x : κ) : Bintree κ := .node x (fun _ => false) fun _ => .nil

/-- The length of an edge. -/
def edge : Bool → ℕ
  | false => 1
  | true => 2

theorem edge_cases (b : Bool) : (b=false ∧ edge b=1) ∨ (b=true ∧ edge b=2) := by cases b <;> simp [edge]

def Ranked : Bintree κ → ℕ → Prop
  | .nil,n => n=0
  | .node _ red sub,n => (∀ d,∃ k,n=k+edge (red d) ∧ Ranked (sub d) k) ∧ ((∀ d,sub d=.nil) → n=1)

/-! ### Order -/

/-- `xs` lies on this side of `x`. -/
def around (d : Dir) (xs : List κ) (x : κ) (ys : List κ) : List κ :=
  match d with
  | .left => xs++x::ys
  | .right => ys++x::xs

/-- `xs` comes first on this side. -/
def join (d : Dir) (xs ys : List κ) : List κ :=
  match d with
  | .left => xs++ys
  | .right => ys++xs

section Order
variable {d : Dir} {x y : κ} {xs ys zs : List κ} {red : Dir → Bool} {a b : Bintree κ} {sub : Dir → Bintree κ}

theorem toList_pick : (Bintree.node x red (pick d a b)).toList=around d a.toList x b.toList := by cases d <;> rfl

theorem toList_node (d : Dir) : (Bintree.node x red sub).toList=around d (sub d).toList x (sub d.flip).toList := by
  rw [← toList_pick,pick_eta]

theorem around_rotate : around d (around d xs x ys) y zs=around d xs x (around d ys y zs) := by
  cases d <;> simp [around]

theorem perm_around : (around d xs x ys).Perm (x::(xs++ys)) := by
  cases d
  · exact List.perm_middle
  · exact List.perm_middle.trans (List.Perm.cons x List.perm_append_comm)

theorem perm_node (d : Dir) : (Bintree.node x red sub).toList.Perm (x::((sub d).toList++(sub d.flip).toList)) := by
  rw [toList_node d]
  exact perm_around

theorem mem_node (d : Dir) {z : κ} :
    z∈(Bintree.node x red sub).toList ↔ z=x ∨ z∈(sub d).toList ∨ z∈(sub d.flip).toList := by
  rw [(perm_node d).mem_iff,List.mem_cons,List.mem_append]

theorem nodup_node (d : Dir) : (Bintree.node x red sub).toList.Nodup ↔
    x∉(sub d).toList ∧ x∉(sub d.flip).toList ∧ (sub d).toList.Nodup ∧ (sub d.flip).toList.Nodup ∧
      (sub d).toList.Disjoint (sub d.flip).toList := by
  rw [(perm_node d).nodup_iff,List.nodup_cons,List.mem_append,not_or,List.nodup_append']
  tauto

theorem nodup_pick (d : Dir) : (Bintree.node x red (pick d a b)).toList.Nodup ↔
    x∉a.toList ∧ x∉b.toList ∧ a.toList.Nodup ∧ b.toList.Nodup ∧ a.toList.Disjoint b.toList := by
  rw [nodup_node d,pick_self,pick_flip]

theorem mem_pick (d : Dir) {z : κ} : z∈(Bintree.node x red (pick d a b)).toList ↔ z=x ∨ z∈a.toList ∨ z∈b.toList := by
  rw [mem_node d,pick_self,pick_flip]

theorem root_mem {t : Bintree κ} (h : t.root=some x) : x∈t.toList := by
  cases t with
  | nil => cases h
  | node y red sub =>
    cases h
    exact (mem_node .left).mpr (.inl rfl)

theorem depth_sub (d : Dir) : (sub d).depth<(Bintree.node x red sub).depth := by
  rw [Bintree.depth]
  cases d <;> omega

theorem root_eq_none {t : Bintree κ} : t.root=none ↔ t=.nil := by
  cases t <;> simp [Bintree.root]

end Order

/-! ### Ranks -/

section Ranks
variable {d : Dir} {x : κ} {n k : ℕ} {red : Dir → Bool} {t a b : Bintree κ} {sub : Dir → Bintree κ}

theorem ranked_nil : Ranked (.nil : Bintree κ) n ↔ n=0 := Iff.rfl

theorem ranked_node (d : Dir) : Ranked (.node x red sub) n ↔
    (∃ k,n=k+edge (red d) ∧ Ranked (sub d) k) ∧ (∃ k,n=k+edge (red d.flip) ∧ Ranked (sub d.flip) k) ∧
      (sub d=.nil → sub d.flip=.nil → n=1) := by
  rw [Ranked,forall_dir d,forall_dir d,and_assoc,and_imp]

theorem ranked_pick {i j : ℕ} (d : Dir) (ha : Ranked a i) (hb : Ranked b j) (hi : n=i+edge (red d))
    (hj : n=j+edge (red d.flip)) (hleaf : i=0 → j=0 → n=1) : Ranked (.node x red (pick d a b)) n := by
  rw [ranked_node d,pick_self,pick_flip]
  refine ⟨⟨i,hi,ha⟩,⟨j,hj,hb⟩,fun hna hnb => ?_⟩
  rw [hna] at ha
  rw [hnb] at hb
  exact hleaf ha hb

theorem ranked_bits {i j : ℕ} {p q : Bool} (ha : Ranked a i) (hb : Ranked b j) (hi : n=i+edge p) (hj : n=j+edge q)
    (hleaf : i=0 → j=0 → n=1) : Ranked (.node x (pick d p q) (pick d a b)) n := by
  refine ranked_pick d ha hb (hi.trans ?_) (hj.trans ?_) hleaf
  · rw [pick_self]
  · rw [pick_flip]

theorem ranked_pos (h : Ranked (.node x red sub) n) : 0<n := by
  obtain ⟨k,hk,-⟩ := h.1 .left
  rcases edge_cases (red .left) with ⟨-,he⟩ | ⟨-,he⟩ <;> omega

theorem ranked_zero (h : Ranked t 0) : t=.nil := by
  cases t with
  | nil => rfl
  | node x red sub => exact absurd (ranked_pos h) (Nat.lt_irrefl 0)

theorem ranked_succ (h : Ranked t (n+1)) : ∃ x red sub,t=.node x red sub := by
  cases t with
  | nil => cases h
  | node x red sub => exact ⟨x,red,sub,rfl⟩

/-- What has rank 1 is a leaf. -/
theorem ranked_one (h : Ranked (.node x red sub) 1) : ∀ d,red d=false ∧ sub d=.nil := by
  intro d
  obtain ⟨k,hk,hsub⟩ := h.1 d
  rcases edge_cases (red d) with ⟨hb,he⟩ | ⟨-,he⟩
  · have hzero : k=0 := by omega
    rw [hzero] at hsub
    exact ⟨hb,ranked_zero hsub⟩
  · omega

theorem ranked_leaf : Ranked (leaf x) 1 := ⟨fun _ => ⟨0,rfl,rfl⟩,fun _ => rfl⟩

/-- Both edges become shorter. -/
theorem ranked_shorter (h : Ranked (.node x (pick d true true) sub) (n+2)) :
    Ranked (.node x (pick d false false) sub) (n+1) := by
  rw [pick_const] at h ⊢
  have hsub : ∀ e,Ranked (sub e) n := by
    intro e
    obtain ⟨k,hk,hk'⟩ := h.1 e
    obtain rfl : n=k := Nat.add_right_cancel hk
    exact hk'
  refine ⟨fun e => ⟨n,rfl,hsub e⟩,fun hnil => ?_⟩
  have hzero := hsub .left
  rw [hnil,ranked_nil] at hzero
  rw [hzero]

/-- A node without one of its children has a leaf for the other at most. -/
theorem ranked_single (h : Ranked (.node x red (pick d .nil t)) n) :
    ∃ k,n=k+1 ∧ Ranked t k ∧ (t=.nil ∨ ∃ y,t=leaf y) := by
  obtain ⟨⟨i,hi,hnil⟩,⟨k,hk,ht⟩,hleaf⟩ := (ranked_node d).mp h
  rw [pick_self] at hnil hleaf
  rw [pick_flip] at ht hleaf
  rw [ranked_nil] at hnil
  cases t with
  | nil =>
    have hone := hleaf rfl rfl
    exact ⟨0,hone,rfl,.inl rfl⟩
  | node y redy suby =>
    have hpos := ranked_pos ht
    rcases edge_cases (red d) with ⟨-,he⟩ | ⟨-,he⟩ <;> rcases edge_cases (red d.flip) with ⟨-,hf⟩ | ⟨-,hf⟩ <;>
      try omega
    obtain rfl : k=1 := by omega
    have hone := ranked_one ht
    refine ⟨1,by omega,ht,.inr ⟨y,?_⟩⟩
    rw [leaf,funext fun e => (hone e).1,funext fun e => (hone e).2]

theorem depth_le (h : Ranked t n) : t.depth≤n := by
  induction t generalizing n with
  | nil => exact Nat.zero_le n
  | node x red sub ih =>
    have hsub : ∀ d,(sub d).depth+1≤n := by
      intro d
      obtain ⟨k,hk,hd⟩ := h.1 d
      have hdepth := ih d hd
      rcases edge_cases (red d) with ⟨-,he⟩ | ⟨-,he⟩ <;> omega
    have hl := hsub .left
    have hr := hsub .right
    rw [Bintree.depth]
    omega

/-- A tree of rank `n` has many nodes. -/
theorem ranked_length (h : Ranked t n) : 2^n≤(t.toList.length+1)^2 := by
  induction t generalizing n with
  | nil =>
    rw [ranked_nil.mp h]
    exact Nat.le_refl 1
  | node x red sub ih =>
    -- the subtrees have rank n-2 at least
    have hsub : ∀ d,2^n≤4*((sub d).toList.length+1)^2 := by
      intro d
      obtain ⟨k,hk,hd⟩ := h.1 d
      have hpow := ih d hd
      rcases edge_cases (red d) with ⟨-,he⟩ | ⟨-,he⟩
      · rw [hk,he,pow_succ]
        omega
      · rw [hk,he,pow_add]
        omega
    have hbound : ∀ d,(sub d).toList.length≤(sub d.flip).toList.length → 2^n≤((Bintree.node x red sub).toList.length+1)^2 := by
      intro d hle
      have hd : (Bintree.node x red sub).toList.length=(sub d).toList.length+(sub d.flip).toList.length+1 := by
        rw [(perm_node d).length_eq,List.length_cons,List.length_append]
      calc 2^n≤4*((sub d).toList.length+1)^2 := hsub d
        _ = (2*((sub d).toList.length+1))^2 := by ring
        _ ≤ ((Bintree.node x red sub).toList.length+1)^2 := Nat.pow_le_pow_left (by omega) 2
    rcases Nat.le_total (sub .left).toList.length (sub .right).toList.length with hle | hle
    · exact hbound .left hle
    · exact hbound .right hle

/-- `depth ≤ 2 lg (n+1)` -/
theorem depth_bound (h : Ranked t n) : 2^t.depth≤(t.toList.length+1)^2 :=
  (Nat.pow_le_pow_right (by decide) (depth_le h)).trans (ranked_length h)

/-- As many rounds are enough for the height of every tree with these elements. -/
def Enough (n : ℕ) (xs : List κ) : Prop := (xs.length+1)^2<2^n

instance {xs : List κ} : Decidable (Enough n xs) := inferInstanceAs (Decidable (_<_))

theorem Enough.mono {xs ys : List κ} (hn : Enough n xs) (h : ys.length≤xs.length) : Enough n ys :=
  (Nat.pow_le_pow_left (Nat.succ_le_succ h) 2).trans_lt hn

theorem depth_lt (h : Ranked t k) (hn : Enough n t.toList) : t.depth<n :=
  (Nat.pow_lt_pow_iff_right (by decide)).mp ((depth_bound h).trans_lt hn)

end Ranks

/-! ### Contexts -/

/-- A node above the hole, which is on this side, and its other subtree. -/
structure Frame (κ : Type*) where
  dir : Dir
  key : κ
  red : Dir → Bool
  sib : Bintree κ

def Frame.fill (f : Frame κ) (t : Bintree κ) : Bintree κ := .node f.key f.red (pick f.dir t f.sib)

/-- The frames lead from the hole to the root. -/
def plug (t : Bintree κ) (ctx : List (Frame κ)) : Bintree κ := ctx.foldl (fun t f => f.fill t) t

def top : List (Frame κ) → Option κ
  | [] => none
  | f::_ => some f.key

def keys (ctx : List (Frame κ)) : List κ := ctx.flatMap fun f => f.key::f.sib.toList

/-- What lies on this side of the hole. -/
def beyond (d : Dir) : List (Frame κ) → List κ
  | [] => []
  | f::ctx => if f.dir=d then beyond d ctx else join d.flip (around d f.sib.toList f.key []) (beyond d ctx)

/-- The hole is for a tree of rank `n`. -/
def Fits : List (Frame κ) → ℕ → Prop
  | [],_ => True
  | f::ctx,n =>
      (∃ k,n+edge (f.red f.dir)=k+edge (f.red f.dir.flip) ∧ Ranked f.sib k) ∧
        (n=0 → f.sib=.nil → edge (f.red f.dir)=1) ∧ Fits ctx (n+edge (f.red f.dir))

section Contexts
variable {t u : Bintree κ} {f : Frame κ} {ctx ctx' : List (Frame κ)} {n : ℕ} {x : κ} {d : Dir}

@[simp] theorem plug_nil : plug t []=t := rfl
@[simp] theorem plug_cons : plug t (f::ctx)=plug (f.fill t) ctx := rfl
theorem plug_append : plug t (ctx++ctx')=plug (plug t ctx) ctx' := List.foldl_append

theorem keys_cons : keys (f::ctx)=(f.key::f.sib.toList)++keys ctx := List.flatMap_cons

theorem top_mem (h : top ctx=some x) : x∈keys ctx := by
  cases ctx with
  | nil => cases h
  | cons f ctx =>
    cases h
    exact List.mem_cons_self

theorem toList_fill : (f.fill t).toList=around f.dir t.toList f.key f.sib.toList := toList_pick

theorem fill_recolor {red : Dir → Bool} : ({f with red := red}.fill t).toList=(f.fill t).toList := by
  rw [toList_fill,toList_fill]

/-- The other subtree is in the hole. -/
theorem fill_flip {s : Bintree κ} :
    ({f with dir := f.dir.flip, sib := t} : Frame κ).fill s=({f with sib := s} : Frame κ).fill t :=
  congrArg (Bintree.node f.key f.red) pick_swap

theorem ranked_recolor {i j : ℕ} {a b : Bool} (ht : Ranked t i) (hs : Ranked f.sib j) (hi : n=i+edge a) (hj : n=j+edge b)
    (hleaf : i=0 → j=0 → n=1) : Ranked ({f with red := pick f.dir a b}.fill t) n :=
  ranked_bits ht hs hi hj hleaf

theorem toList_plug (h : t.toList=u.toList) : (plug t ctx).toList=(plug u ctx).toList := by
  induction ctx generalizing t u with
  | nil => exact h
  | cons f ctx ih => exact ih (by rw [toList_fill,toList_fill,h])

theorem plug_root (h : ctx≠[]) : (plug t ctx).root=(plug u ctx).root := by
  induction ctx generalizing t u with
  | nil => exact absurd rfl h
  | cons f ctx ih =>
    cases ctx with
    | nil => rfl
    | cons g ctx => exact ih (List.cons_ne_nil g ctx)

theorem keys_append : keys (ctx++ctx')=keys ctx++keys ctx' := List.flatMap_append

theorem toList_plug_eq : (plug t ctx).toList=beyond .left ctx++(t.toList++beyond .right ctx) := by
  induction ctx generalizing t with
  | nil => exact (List.append_nil _).symm
  | cons f ctx ih =>
    rw [plug_cons,ih,toList_fill]
    cases hd : f.dir <;> simp [beyond,hd,around,join,Dir.flip]

theorem beyond_last (h : ∀ f∈ctx,f.dir=d) : beyond d ctx=[] := by
  induction ctx with
  | nil => rfl
  | cons f ctx ih => exact (if_pos (h f List.mem_cons_self)).trans (ih fun g hg => h g (List.mem_cons_of_mem f hg))

/-- Nothing comes before the hole on its side. -/
theorem toList_last (h : ∀ f∈ctx,f.dir=d) : (plug t ctx).toList=join d t.toList (beyond d.flip ctx) := by
  have hnil := beyond_last h
  rw [toList_plug_eq]
  cases d with
  | left =>
    rw [hnil]
    rfl
  | right =>
    rw [hnil,List.append_nil]
    rfl

theorem erase_plug [DecidableEq κ] {red : Dir → Bool} {sub : Dir → Bintree κ} (hnd : (plug (.node x red sub) ctx).toList.Nodup)
    (hu : u.toList=(sub .left).toList++(sub .right).toList) :
    (plug u ctx).toList=(plug (.node x red sub) ctx).toList.erase x := by
  have hlist : (plug (.node x red sub) ctx).toList=
      (beyond .left ctx++(sub .left).toList)++x::((sub .right).toList++beyond .right ctx) := by
    rw [toList_plug_eq,Bintree.toList]
    simp only [List.append_assoc,List.cons_append]
  rw [hlist] at hnd ⊢
  have hx : x∉beyond .left ctx++(sub .left).toList := fun hx => (List.nodup_append'.mp hnd).2.2 hx List.mem_cons_self
  rw [toList_plug_eq,hu,List.erase_append_right _ hx,List.erase_cons_head]
  simp only [List.append_assoc]

theorem depth_plug : t.depth+ctx.length≤(plug t ctx).depth := by
  induction ctx generalizing t with
  | nil => exact Nat.le_refl _
  | cons f ctx ih =>
    have hfill : t.depth<(f.fill t).depth := by
      have hsub : _<(f.fill t).depth := depth_sub f.dir
      rwa [pick_self] at hsub
    have hctx := ih (t := f.fill t)
    rw [List.length_cons,plug_cons]
    omega

theorem perm_plug : (plug t ctx).toList.Perm (t.toList++keys ctx) := by
  induction ctx generalizing t with
  | nil => exact List.Perm.of_eq (List.append_nil _).symm
  | cons f ctx ih =>
    refine ih.trans ?_
    rw [toList_fill,keys_cons,← List.append_assoc]
    exact List.Perm.append_right (keys ctx) (perm_around.trans List.perm_middle.symm)

theorem plug_node_root {red : Dir → Bool} {sub : Dir → Bintree κ} : ∃ y,(plug (.node x red sub) ctx).root=some y := by
  refine Option.ne_none_iff_exists'.mp fun hnil => ?_
  have hmem : x∈(plug (.node x red sub) ctx).toList := perm_plug.mem_iff.mpr (List.mem_append_left (keys ctx) (root_mem rfl))
  rw [root_eq_none.mp hnil] at hmem
  cases hmem

theorem root_mem_keys (h : ctx≠[]) (hx : (plug t ctx).root=some x) : x∈keys ctx := by
  rw [plug_root (u := .nil) h] at hx
  exact perm_plug.mem_iff.mp (root_mem hx)

theorem ranked_fill (ht : Ranked t n) (hf : Fits (f::ctx) n) : Ranked (f.fill t) (n+edge (f.red f.dir)) := by
  obtain ⟨⟨k,hk,hsib⟩,hleaf,-⟩ := hf
  refine ranked_pick f.dir ht hsib rfl hk fun hn hz => ?_
  rw [hz] at hsib
  rw [hn,hleaf hn (ranked_zero hsib)]

theorem ranked_plug (ht : Ranked t n) (hf : Fits ctx n) : ∃ r,Ranked (plug t ctx) r := by
  induction ctx generalizing t n with
  | nil => exact ⟨n,ht⟩
  | cons f ctx ih => exact ih (ranked_fill ht hf) hf.2.2

theorem plug_ranked {r : ℕ} (h : Ranked (plug t ctx) r) : ∃ n,Ranked t n ∧ Fits ctx n := by
  induction ctx generalizing t with
  | nil => exact ⟨r,h,trivial⟩
  | cons f ctx ih =>
    obtain ⟨m,hm,hfits⟩ := ih h
    obtain ⟨⟨n,hn,ht⟩,⟨k,hk,hsib⟩,hleaf⟩ := (ranked_node f.dir).mp hm
    rw [pick_self] at ht
    rw [pick_flip] at hsib
    refine ⟨n,ht,⟨k,hn.symm.trans hk,hsib⟩,fun hz hs => ?_,hn ▸ hfits⟩
    rw [hz] at ht
    have hone := hleaf (by rw [pick_self,ranked_zero ht]) (by rw [pick_flip,hs])
    omega

/-- Only the lengths of the edges count. -/
theorem fits_key {l : List (Frame κ)} (h : Fits (l++f::ctx) n) : Fits (l++{f with key := x}::ctx) n := by
  induction l generalizing n with
  | nil => exact h
  | cons g l ih => exact ⟨h.1,h.2.1,ih h.2.2⟩

theorem exists_plug (h : x∈t.toList) : ∃ red sub ctx,t=plug (.node x red sub) ctx := by
  induction t with
  | nil => cases h
  | node y red sub ih =>
    have hsub : ∀ d,x∈(sub d).toList → ∃ redx subx ctx,Bintree.node y red sub=plug (.node x redx subx) ctx := by
      intro d hd
      obtain ⟨redx,subx,ctx,hctx⟩ := ih d hd
      refine ⟨redx,subx,ctx++[⟨d,y,red,sub d.flip⟩],?_⟩
      rw [plug_append,← hctx,plug_cons,plug_nil,Frame.fill,pick_eta]
    rcases (mem_node .left).mp h with rfl | hl | hr
    · exact ⟨red,sub,[],rfl⟩
    · exact hsub .left hl
    · exact hsub .right hr

/-- The last node on this side. -/
theorem exists_last (d : Dir) (h : t≠.nil) : ∃ x red u path,t=plug (.node x red (pick d .nil u)) path ∧ ∀ f∈path,f.dir=d := by
  induction t with
  | nil => exact absurd rfl h
  | node y red sub ih =>
    by_cases hd : sub d=.nil
    · refine ⟨y,red,sub d.flip,[],?_,fun f hf => absurd hf List.not_mem_nil⟩
      rw [plug_nil,← hd,pick_eta]
    · obtain ⟨x,redx,u,path,hpath,hdir⟩ := ih d hd
      refine ⟨x,redx,u,path++[⟨d,y,red,sub d.flip⟩],?_,fun f hf => ?_⟩
      · rw [plug_append,← hpath,plug_cons,plug_nil,Frame.fill,pick_eta]
      · rcases List.mem_append.mp hf with hf | hf
        · exact hdir f hf
        · rw [List.mem_singleton.mp hf]

end Contexts

end Dpapp.RankTree
