import Dpapp.RankTree
import Mathlib.Logic.Function.Basic

/-! # The macros of dprbt.h (dprbt.h)

`RB_GENERATE` on the memory of the nodes. The two low bits of a node's parent
pointer say which of its children are red. Loops have fuel; none is either a
loop that has not ended or an access through NULL. -/

set_option linter.unusedSectionVars false

namespace Dpapp.Dprbt
open Dpapp.RankTree

/-- A parent pointer with its two low bits. -/
structure Up (κ : Type*) where
  ptr : Option κ
  red : Dir → Bool

structure Mem (κ : Type*) where
  root : Option κ := none
  up : κ → Up κ := fun _ => ⟨none,fun _ => false⟩
  link : Dir → κ → Option κ := fun _ _ => none

variable {κ : Type*} [DecidableEq κ]

/-- `^= dir` -/
def Up.toggle (u : Up κ) (d : Dir) : Up κ := {u with red := Function.update u.red d (!u.red d)}

/-- `^= _RB_LR` -/
def Up.toggleBoth (u : Up κ) : Up κ := {u with red := fun d => !u.red d}

/-- `_RB_PTR` -/
def Up.clear (u : Up κ) : Up κ := {u with red := fun _ => false}

def Mem.setRoot (m : Mem κ) (x : Option κ) : Mem κ := {m with root := x}
def Mem.setUp (m : Mem κ) (x : κ) (u : Up κ) : Mem κ := {m with up := Function.update m.up x u}
def Mem.setLink (m : Mem κ) (d : Dir) (x : κ) (y : Option κ) : Mem κ :=
  {m with link := Function.update m.link d (Function.update (m.link d) x y)}

/-- `RB_SET_PARENT` -/
def Mem.setParent (m : Mem κ) (dst : κ) (src : Option κ) : Mem κ := m.setUp dst {m.up dst with ptr := src}

/-- `RB_SWAP_CHILD` -/
def swapChild (m : Mem κ) (par : Option κ) (out : κ) (inn : Option κ) : Mem κ :=
  match par with
  | none => m.setRoot inn
  | some p => if m.link .left p=some out then m.setLink .left p inn else m.setLink .right p inn

/-- `RB_ROTATE` -/
def rotate (m : Mem κ) (elm tmp : κ) (d : Dir) : Mem κ :=
  let m := m.setLink d.flip elm (m.link d tmp)
  let m := match m.link d tmp with
    | some c => m.setParent c (some elm)
    | none => m
  let m := m.setLink d tmp (some elm)
  m.setParent elm (some tmp)

/-! ### Insertion -/

/-- The rotations of `RB_INSERT_COLOR`, where the edges of `parent` are 1 and 2 long and the shorter one leads to `elm`. -/
def insertRotate (m : Mem κ) (parent elm : κ) (child : Option κ) (elmdir : Dir) (gpar : Option κ) : Option (Mem κ) :=
  let sibdir := elmdir.flip
  let m := m.setUp parent ⟨gpar,fun _ => false⟩
  let turned := if (m.up elm).red elmdir then
      child.map fun child =>
        let m := rotate m elm child elmdir
        let up := m.up child
        let m := if up.red sibdir then m.setUp parent ((m.up parent).toggle elmdir) else m
        let m := if up.red elmdir then m.setUp elm (m.up elm).toggleBoth else m.setUp elm ((m.up elm).toggle elmdir)
        (m,child)
    else some (m,elm)
  turned.map fun (m,child) =>
    let m := rotate m parent child sibdir
    let m := m.setUp child ⟨gpar,fun _ => false⟩
    swapChild m gpar parent (some child)

/-- `RB_INSERT_COLOR` -/
def insertColor : ℕ → Mem κ → κ → κ → Option κ → Option (Mem κ)
  | 0,_,_,_,_ => none
  | n+1,m,parent,elm,child =>
      let gpar := m.up parent
      let elmdir : Dir := if m.link .right parent=some elm then .right else .left
      if gpar.red elmdir then some (m.setUp parent (gpar.toggle elmdir))
      else
        let m := m.setUp parent (gpar.toggle elmdir.flip)
        if gpar.red .left=false ∧ gpar.red .right=false then
          match gpar.ptr with
          | none => some m
          | some p => insertColor n m p parent (some elm)
        else insertRotate m parent elm child elmdir gpar.ptr

/-- Where a pointer to a node is: the root, or a link of a node. -/
abbrev Slot (κ : Type*) := Option (κ × Dir)

def Mem.load (m : Mem κ) : Slot κ → Option κ
  | none => m.root
  | some (p,d) => m.link d p

def Mem.store (m : Mem κ) (slot : Slot κ) (x : Option κ) : Mem κ :=
  match slot with
  | none => m.setRoot x
  | some (p,d) => m.setLink d p x

/-- `RB_INSERT_FINISH`; there is no augmented data. -/
def insertFinish (n : ℕ) (m : Mem κ) (slot : Slot κ) (elm : κ) : Option (Mem κ) :=
  let parent := slot.map Prod.fst
  let m := m.setUp elm ⟨parent,fun _ => false⟩
  let m := (m.setLink .right elm none).setLink .left elm none
  let m := m.store slot (some elm)
  match parent with
  | none => some m
  | some p => insertColor n m p elm none

/-- The loop of `RB_INSERT`: the node that compares equal, or the place for the new one. -/
def insertSlot (cmp : κ → κ → ℤ) (m : Mem κ) (elm : κ) : ℕ → Slot κ → Option (κ ⊕ Slot κ)
  | 0,_ => none
  | n+1,slot =>
      match m.load slot with
      | none => some (.inr slot)
      | some parent =>
          let comp := cmp elm parent
          if comp<0 then insertSlot cmp m elm n (some (parent,.left))
          else if 0<comp then insertSlot cmp m elm n (some (parent,.right))
          else some (.inl parent)

/-- `RB_INSERT` with what it returns -/
def rbInsert (n : ℕ) (cmp : κ → κ → ℤ) (m : Mem κ) (elm : κ) : Option (Mem κ × Option κ) :=
  (insertSlot cmp m elm n none).bind fun
    | .inl parent => some (m,some parent)
    | .inr slot => (insertFinish n m slot elm).map fun m => (m,none)

/-! ### Removal -/

/-- The rotations of `RB_REMOVE_COLOR`. -/
def removeRotate (m : Mem κ) (parent sib : κ) (elmdir : Dir) (gpar : Option κ) : Option (Mem κ) :=
  let sibdir := elmdir.flip
  let up := (m.up sib).toggleBoth
  let turned := if up.red sibdir=false then
      (m.link elmdir sib).map fun elm =>
        let m := rotate m sib elm sibdir
        let up := m.up elm
        let m := m.setUp parent (if up.red elmdir then (m.up parent).toggleBoth else (m.up parent).toggle elmdir)
        let m := m.setUp sib (if up.red sibdir then (m.up sib).toggleBoth else (m.up sib).toggle sibdir)
        let m := m.setUp elm {m.up elm with red := fun _ => true}
        (m,elm)
    else if up.red elmdir=false then
      let m := m.setUp parent ((m.up parent).toggle elmdir)
      some (m.setUp sib ((m.up sib).toggle sibdir),sib)
    else some (m.setUp sib ((m.up sib).toggle sibdir),sib)
  turned.map fun (m,elm) =>
    let m := rotate m parent elm elmdir
    let m := m.setParent elm gpar
    swapChild m gpar parent (some elm)

/-- The loop of `RB_REMOVE_COLOR` -/
def removeLoop : ℕ → Mem κ → κ → Option κ → Option (Mem κ)
  | 0,_,_,_ => none
  | n+1,m,parent,elm =>
      let elmdir : Dir := if m.link .right parent=elm then .right else .left
      let gpar := (m.up parent).toggle elmdir
      let retry := fun m => match gpar.ptr with
        | none => some m
        | some p => removeLoop n m p (some parent)
      if gpar.red elmdir then some (m.setUp parent gpar)
      else if gpar.red .left ∨ gpar.red .right then retry (m.setUp parent gpar.toggleBoth)
      else
        match m.link elmdir.flip parent with
        | none => none
        | some sib =>
            let up := (m.up sib).toggleBoth
            if up.red .left=false ∧ up.red .right=false then retry (m.setUp sib up)
            else removeRotate m parent sib elmdir gpar.ptr

/-- `RB_REMOVE_COLOR`; a node that has lost its only child becomes a leaf. -/
def removeColor (n : ℕ) (m : Mem κ) (parent : κ) (elm : Option κ) : Option (Mem κ) :=
  if m.link .right parent=elm ∧ m.link .left parent=elm then
    let m := m.setUp parent (m.up parent).clear
    match (m.up parent).ptr with
    | none => some m
    | some p => removeLoop n m p (some parent)
  else removeLoop n m parent elm

/-- `while (RB_LINK(in, dir)) in = RB_LINK(in, dir);` -/
def descend (m : Mem κ) (d : Dir) : ℕ → κ → Option κ
  | 0,_ => none
  | n+1,x =>
      match m.link d x with
      | none => some x
      | some y => descend m d n y

/-- `if (child != NULL) _RB_UP(child) = parent;` -/
def Mem.adopt (m : Mem κ) (child parent : Option κ) : Mem κ :=
  match child with
  | some c => m.setUp c ⟨parent,fun _ => false⟩
  | none => m

/-- The end of `RB_REMOVE`, from RB_SWAP_CHILD on. -/
def removeFinish (n : ℕ) (m : Mem κ) (out : κ) (opar inn child parent : Option κ) : Option (Mem κ) :=
  let m := (swapChild m opar out inn).adopt child parent
  match parent with
  | none => some m
  | some p => removeColor n m p child

/-- `RB_REMOVE` -/
def rbRemove (n : ℕ) (m : Mem κ) (out : κ) : Option (Mem κ) :=
  let opar := m.up out
  match m.link .right out,m.link .left out with
  | some right,some left =>
      (descend m .left n right).bind fun inn =>
        let m := m.setParent left (some inn)
        let m := m.setLink .left inn (some left)
        let child := m.link .right inn
        if right≠inn then
          let m := m.setParent right (some inn)
          let m := m.setLink .right inn (some right)
          (m.up inn).ptr.bind fun parent =>
            let m := m.setLink .left parent child
            removeFinish n (m.setUp inn opar) out opar.ptr (some inn) child (some parent)
        else removeFinish n (m.setUp inn opar) out opar.ptr (some inn) child (some right)
  | none,child => removeFinish n m out opar.ptr child child opar.ptr
  | right,none => removeFinish n m out opar.ptr right right opar.ptr

/-! ### Search -/

/-- `RB_MINMAX` -/
def rbMinmax (n : ℕ) (m : Mem κ) (d : Dir) : Option (Option κ) :=
  match m.root with
  | none => some none
  | some x => (descend m d n x).map some

/-- The upward loop of `RB_NEXT` and `RB_PREV`. -/
def ascend (m : Mem κ) (d : Dir) : ℕ → κ → Option (Option κ)
  | 0,_ => none
  | n+1,x =>
      match (m.up x).ptr with
      | none => some none
      | some p => if m.link d p=some x then ascend m d n p else some (some p)

/-- `RB_NEXT` for the right side, `RB_PREV` for the left one -/
def rbNext (n : ℕ) (m : Mem κ) (d : Dir) (elm : κ) : Option (Option κ) :=
  match m.link d elm with
  | some x => (descend m d.flip n x).map some
  | none => ascend m d n elm

/-- `RB_FIND` from a node on -/
def rbFind (cmp : κ → κ → ℤ) (m : Mem κ) (elm : κ) : ℕ → Option κ → Option (Option κ)
  | 0,_ => none
  | _+1,none => some none
  | n+1,some tmp =>
      let comp := cmp elm tmp
      if comp<0 then rbFind cmp m elm n (m.link .left tmp)
      else if 0<comp then rbFind cmp m elm n (m.link .right tmp)
      else some (some tmp)

/-- `RB_NFIND` from a node on, `res` the best so far -/
def rbNfind (cmp : κ → κ → ℤ) (m : Mem κ) (elm : κ) : ℕ → Option κ → Option κ → Option (Option κ)
  | 0,_,_ => none
  | _+1,none,res => some res
  | n+1,some tmp,res =>
      let comp := cmp elm tmp
      if comp<0 then rbNfind cmp m elm n (m.link .left tmp) (some tmp)
      else if 0<comp then rbNfind cmp m elm n (m.link .right tmp) res
      else some (some tmp)

/-- `RB_RANK` -/
def rbRank (m : Mem κ) : ℕ → Option κ → Option ℤ
  | 0,_ => none
  | _+1,none => some 0
  | n+1,some elm =>
      (rbRank m n (m.link .left elm)).bind fun left => (rbRank m n (m.link .right elm)).map fun right =>
        let leftRank := (if (m.up elm).red .left then 2 else 1)+left
        let rightRank := (if (m.up elm).red .right then 2 else 1)+right
        if leftRank≠rightRank ∨ (leftRank=2 ∧ m.link .left elm=none ∧ m.link .right elm=none) then -1 else leftRank

/-- The rounds of `RB_FOREACH` (right side) and `RB_FOREACH_REVERSE` from a node on -/
def rbForeach (n : ℕ) (m : Mem κ) (d : Dir) : ℕ → Option κ → Option (List κ)
  | _,none => some []
  | 0,some _ => none
  | k+1,some x => (rbNext n m d x).bind fun y => (rbForeach n m d k y).map (x::·)

/-- `RB_REINSERT` with what it returns -/
def rbReinsert (n : ℕ) (cmp : κ → κ → ℤ) (m : Mem κ) (elm : κ) : Option (Mem κ × Option κ) :=
  (rbNext n m .left elm).bind fun prev => (rbNext n m .right elm).bind fun next =>
    if (∃ x∈prev,0≤cmp x elm) ∨ ∃ x∈next,0≤cmp elm x then
      (rbRemove n m elm).bind fun m => rbInsert n cmp m elm
    else some (m,none)

/-! ### Memory -/

section Memory
variable {m : Mem κ} {x z : κ} {u : Up κ} {d e : Dir} {y : Option κ}

@[simp] theorem setRoot_up : (m.setRoot y).up=m.up := rfl
@[simp] theorem setRoot_link : (m.setRoot y).link=m.link := rfl
@[simp] theorem setRoot_root : (m.setRoot y).root=y := rfl
@[simp] theorem setUp_link : (m.setUp x u).link=m.link := rfl
@[simp] theorem setUp_root : (m.setUp x u).root=m.root := rfl
@[simp] theorem setLink_up : (m.setLink d x y).up=m.up := rfl
@[simp] theorem setLink_root : (m.setLink d x y).root=m.root := rfl
@[simp] theorem setParent_link : (m.setParent x y).link=m.link := rfl
@[simp] theorem setParent_root : (m.setParent x y).root=m.root := rfl

theorem setUp_up : (m.setUp x u).up z=if z=x then u else m.up z := Function.update_apply ..

@[simp] theorem setUp_self : (m.setUp x u).up x=u := Function.update_self ..
theorem setUp_ne (h : z≠x) : (m.setUp x u).up z=m.up z := Function.update_of_ne h ..

theorem setParent_up : (m.setParent x y).up z=if z=x then {m.up x with ptr := y} else m.up z := setUp_up

theorem setLink_link : (m.setLink d x y).link e z=if e=d ∧ z=x then y else m.link e z := by
  unfold Mem.setLink
  by_cases he : e=d
  · subst he
    simp [Function.update_apply]
  · simp [he]

@[simp] theorem setLink_self : (m.setLink d x y).link d x=y := by rw [setLink_link,if_pos ⟨rfl,rfl⟩]
@[simp] theorem setLink_flip : (m.setLink d x y).link d.flip z=m.link d.flip z := by
  rw [setLink_link,if_neg fun h => d.flip_ne h.1]
theorem setLink_ne (h : z≠x) : (m.setLink d x y).link e z=m.link e z := by rw [setLink_link,if_neg fun h' => h h'.2]

end Memory

section Bits
variable {x : κ} {m : Mem κ} {y : Option κ} {d : Dir} {a b : Bool}

theorem setUp_eta : m.setUp x (m.up x)=m := by rw [Mem.setUp,Function.update_eq_self]

theorem toggle_pick : (⟨y,pick d a b⟩ : Up κ).toggle d=⟨y,pick d (!a) b⟩ := by
  refine congrArg (Up.mk y) (eq_pick.mpr ⟨?_,?_⟩)
  · exact (Function.update_self ..).trans (congrArg not pick_self)
  · exact (Function.update_of_ne d.flip_ne ..).trans pick_flip

theorem toggle_pick_flip : (⟨y,pick d a b⟩ : Up κ).toggle d.flip=⟨y,pick d a (!b)⟩ := by
  rw [← pick_swap,toggle_pick,pick_swap]

theorem toggleBoth_pick : (⟨y,pick d a b⟩ : Up κ).toggleBoth=⟨y,pick d (!a) (!b)⟩ :=
  congrArg (Up.mk y) (eq_pick.mpr ⟨congrArg not pick_self,congrArg not pick_flip⟩)

end Bits

section Rotate
variable (m : Mem κ) (elm tmp : κ) {z : κ} (d : Dir) {e : Dir}

theorem rotate_root : (rotate m elm tmp d).root=m.root := by
  unfold rotate
  simp only
  split <;> rfl

theorem rotate_up (h : m.link d tmp≠some elm) : (rotate m elm tmp d).up z=
    if z=elm then {m.up z with ptr := some tmp} else if m.link d tmp=some z then {m.up z with ptr := some elm} else m.up z := by
  have hread : (m.setLink d.flip elm (m.link d tmp)).link d tmp=m.link d tmp := by
    rw [setLink_link,if_neg fun h' => d.ne_flip h'.1]
  unfold rotate
  simp only [hread]
  cases hc : m.link d tmp with
  | none =>
    simp only [setParent_up,setLink_up]
    split
    · rename_i hz
      rw [hz]
    · rw [if_neg (by simp)]
  | some c =>
    have hne : elm≠c := fun heq => h (by rw [hc,heq])
    simp only [setParent_up,setLink_up,if_neg hne,Option.some.injEq]
    split
    · rename_i hz
      rw [hz]
    · split
      · rename_i hz
        rw [if_pos hz.symm,hz]
      · rename_i hz
        rw [if_neg (Ne.symm hz)]

theorem rotate_link : (rotate m elm tmp d).link e z=
    if e=d ∧ z=tmp then some elm else if e=d.flip ∧ z=elm then m.link d tmp else m.link e z := by
  have hread : (m.setLink d.flip elm (m.link d tmp)).link d tmp=m.link d tmp := by
    rw [setLink_link,if_neg fun h' => d.ne_flip h'.1]
  unfold rotate
  simp only [hread,setParent_link,setLink_link]
  cases m.link d tmp with
  | none => rw [setLink_link]
  | some c => rw [setParent_link,setLink_link]

/-- Rotations leave the bits alone. -/
theorem rotate_red (h : m.link d tmp≠some elm) : ((rotate m elm tmp d).up z).red=(m.up z).red := by
  rw [rotate_up m elm tmp d h]
  split
  · rfl
  · split <;> rfl

theorem setParent_rotate {y : Option κ} (h : m.link d tmp≠some elm) :
    (rotate m elm tmp d).setParent tmp y=(rotate m elm tmp d).setUp tmp ⟨y,(m.up tmp).red⟩ := by
  rw [Mem.setParent,← rotate_red m elm tmp d h]

end Rotate

/-! ### The tree in memory -/

/-- The nodes of the tree, whose root has this parent pointer. -/
def Rep (m : Mem κ) : Bintree κ → Option κ → Prop
  | .nil,_ => True
  | .node x red sub,par => m.up x=⟨par,red⟩ ∧ ∀ d,m.link d x=(sub d).root ∧ Rep m (sub d) (some x)

/-- The nodes above a hole with this root. -/
def RepCtx (m : Mem κ) : List (Frame κ) → Option κ → Prop
  | [],h => m.root=h
  | f::ctx,h =>
      m.up f.key=⟨top ctx,f.red⟩ ∧ m.link f.dir f.key=h ∧ m.link f.dir.flip f.key=f.sib.root ∧
        Rep m f.sib (some f.key) ∧ RepCtx m ctx (some f.key)

def Holds (m : Mem κ) (t : Bintree κ) (ctx : List (Frame κ)) : Prop := Rep m t (top ctx) ∧ RepCtx m ctx t.root

section Rep
variable {m m' : Mem κ} {t u : Bintree κ} {f : Frame κ} {ctx ctx' : List (Frame κ)} {x out : κ} {par par' inn h : Option κ}
  {red : Dir → Bool} {sub : Dir → Bintree κ} {a b : Bintree κ}

theorem rep_node (d : Dir) : Rep m (.node x red sub) par ↔ m.up x=⟨par,red⟩ ∧
    (m.link d x=(sub d).root ∧ Rep m (sub d) (some x)) ∧
      m.link d.flip x=(sub d.flip).root ∧ Rep m (sub d.flip) (some x) := by
  rw [Rep,forall_dir d]

theorem rep_pick (d : Dir) : Rep m (.node x red (pick d a b)) par ↔ m.up x=⟨par,red⟩ ∧
    (m.link d x=a.root ∧ Rep m a (some x)) ∧ m.link d.flip x=b.root ∧ Rep m b (some x) := by
  rw [rep_node d,pick_self,pick_flip]

/-- The same nodes, the root perhaps with another parent. -/
theorem Rep.adopt (hr : Rep m t par) (hnd : t.toList.Nodup) (hl : ∀ z∈t.toList,∀ d,m'.link d z=m.link d z)
    (hu : ∀ z∈t.toList,t.root≠some z → m'.up z=m.up z)
    (hroot : ∀ z,t.root=some z → m'.up z={m.up z with ptr := par'}) : Rep m' t par' := by
  induction t generalizing par par' with
  | nil => trivial
  | node x red sub ih =>
    obtain ⟨hx,hsub⟩ := hr
    refine ⟨by rw [hroot x rfl,hx],fun d => ?_⟩
    obtain ⟨hxd,-,hndd,-,-⟩ := (nodup_node d).mp hnd
    have hmem : ∀ z∈(sub d).toList,z∈(Bintree.node x red sub).toList := fun z hz => (mem_node d).mpr (.inr (.inl hz))
    have hother : ∀ z∈(sub d).toList,m'.up z=m.up z := fun z hz =>
      hu z (hmem z hz) fun heq => hxd (Option.some.inj heq ▸ hz)
    refine ⟨by rw [hl x ((mem_node d).mpr (.inl rfl)),(hsub d).1],?_⟩
    refine ih d (hsub d).2 hndd (fun z hz => hl z (hmem z hz)) (fun z hz _ => hother z hz) fun z hz => ?_
    rw [hother z (root_mem hz)]
    have hup : (m.up z).ptr=some x := by
      obtain ⟨-,hrep⟩ := hsub d
      cases hs : sub d with
      | nil =>
        rw [hs] at hz
        cases hz
      | node w redw subw =>
        rw [hs] at hz hrep
        cases hz
        rw [hrep.1]
    rw [← hup]

theorem Rep.congr (hr : Rep m t par) (hs : ∀ z∈t.toList,m'.up z=m.up z ∧ ∀ d,m'.link d z=m.link d z) : Rep m' t par := by
  induction t generalizing par with
  | nil => trivial
  | node x red sub ih =>
    obtain ⟨hx,hsub⟩ := hr
    have hself := hs x ((mem_node .left).mpr (.inl rfl))
    refine ⟨hself.1.trans hx,fun d => ⟨(hself.2 d).trans (hsub d).1,ih d (hsub d).2 fun z hz => ?_⟩⟩
    exact hs z ((mem_node d).mpr (.inr (.inl hz)))

theorem RepCtx.congr (hr : RepCtx m ctx h) (hs : ∀ z∈keys ctx,m'.up z=m.up z ∧ ∀ d,m'.link d z=m.link d z)
    (hroot : m'.root=m.root) : RepCtx m' ctx h := by
  induction ctx generalizing h with
  | nil => exact hroot.trans hr
  | cons f ctx ih =>
    obtain ⟨hup,hlink,hflip,hsib,hrest⟩ := hr
    have hself := hs f.key List.mem_cons_self
    refine ⟨hself.1.trans hup,(hself.2 _).trans hlink,(hself.2 _).trans hflip,hsib.congr fun z hz => ?_,
      ih hrest fun z hz => ?_⟩
    · exact hs z (List.mem_cons_of_mem f.key (List.mem_append_left (keys ctx) hz))
    · exact hs z (List.mem_append_right (f.key::f.sib.toList) hz)

/-- Where the hole is. -/
def slot : List (Frame κ) → Slot κ
  | [] => none
  | f::_ => some (f.key,f.dir)

theorem slot_fst : (slot ctx).map Prod.fst=top ctx := by cases ctx <;> rfl

theorem load_slot (hr : RepCtx m ctx h) : m.load (slot ctx)=h := by
  cases ctx with
  | nil => exact hr
  | cons f ctx => exact hr.2.1

theorem store_up : (m.store (slot ctx) inn).up=m.up := by cases ctx <;> rfl

theorem store_link {d : Dir} (h : top ctx≠some x) : (m.store (slot ctx) inn).link d x=m.link d x := by
  cases ctx with
  | nil => rfl
  | cons f ctx => exact setLink_ne fun heq => h (congrArg some heq.symm)

/-- Another node is put into the hole. -/
theorem repCtx_store (hr : RepCtx m ctx h) (hnd : (keys ctx).Nodup)
    (hs : ∀ z∈keys ctx,m'.up z=m.up z ∧ ∀ d,m'.link d z=m.link d z) (hroot : m'.root=m.root) :
    RepCtx (m'.store (slot ctx) inn) ctx inn := by
  cases ctx with
  | nil => rfl
  | cons f ctx =>
    obtain ⟨hup,-,hflip,hsib,hrest⟩ := hr
    have hself := hs f.key List.mem_cons_self
    rw [keys_cons] at hs hnd
    obtain ⟨hndf,-,hdis⟩ := List.nodup_append'.mp hnd
    refine ⟨hself.1.trans hup,setLink_self,setLink_flip.trans ((hself.2 _).trans hflip),hsib.congr fun z hz => ?_,?_⟩
    · have hne : z≠f.key := fun heq => (List.nodup_cons.mp hndf).1 (heq ▸ hz)
      obtain ⟨hzup,hzlink⟩ := hs z (List.mem_append_left _ (List.mem_cons_of_mem _ hz))
      exact ⟨hzup,fun d => (setLink_ne hne).trans (hzlink d)⟩
    · refine hrest.congr (fun z hz => ?_) hroot
      have hne : z≠f.key := fun heq => hdis List.mem_cons_self (heq ▸ hz)
      obtain ⟨hzup,hzlink⟩ := hs z (List.mem_append_right _ hz)
      exact ⟨hzup,fun d => (setLink_ne hne).trans (hzlink d)⟩

/-- RB_SWAP_CHILD finds the hole by the node in it. -/
theorem swapChild_eq (hr : RepCtx m ctx (some out)) (hout : out∉keys ctx) (hs : ∀ z∈keys ctx,∀ d,m'.link d z=m.link d z) :
    swapChild m' (top ctx) out inn=m'.store (slot ctx) inn := by
  cases ctx with
  | nil => rfl
  | cons f ctx =>
    obtain ⟨-,hlink,hflip,-,-⟩ := hr
    have hself := hs f.key List.mem_cons_self
    have hsibout : m'.link f.dir.flip f.key≠some out := by
      rw [hself,hflip]
      exact fun h => hout (List.mem_cons_of_mem _ (List.mem_append_left _ (root_mem h)))
    show swapChild m' (some f.key) out inn=m'.setLink f.dir f.key inn
    unfold swapChild
    cases hd : f.dir with
    | left =>
      simp only
      rw [← hd,hself,if_pos hlink]
    | right =>
      rw [hd] at hsibout
      exact if_neg hsibout

theorem repCtx_swap (hr : RepCtx m ctx (some out)) (hnd : (keys ctx).Nodup) (hout : out∉keys ctx)
    (hs : ∀ z∈keys ctx,m'.up z=m.up z ∧ ∀ d,m'.link d z=m.link d z) (hroot : m'.root=m.root) :
    RepCtx (swapChild m' (top ctx) out inn) ctx inn := by
  rw [swapChild_eq hr hout fun z hz => (hs z hz).2]
  exact repCtx_store hr hnd hs hroot

theorem holds_fill : Holds m (f.fill t) ctx ↔ Holds m t (f::ctx) := by
  unfold Holds
  rw [Frame.fill,rep_pick]
  constructor
  · rintro ⟨⟨hup,⟨hlink,ht⟩,hflip,hsib⟩,hctx⟩
    exact ⟨ht,hup,hlink,hflip,hsib,hctx⟩
  · rintro ⟨ht,hup,hlink,hflip,hsib,hctx⟩
    exact ⟨⟨hup,⟨hlink,ht⟩,hflip,hsib⟩,hctx⟩

theorem holds_plug : Holds m (plug t ctx) ctx' ↔ Holds m t (ctx++ctx') := by
  induction ctx generalizing t with
  | nil => exact Iff.rfl
  | cons f ctx ih => exact ih.trans holds_fill

/-- The memory is a tree with these elements in order, and its ranks are right. -/
def Keeps (m : Mem κ) (xs : List κ) : Prop := ∃ t r,Holds m t [] ∧ t.toList=xs ∧ Ranked t r

theorem keeps_plug {n : ℕ} (h : Holds m u ctx) (hu : Ranked u n) (hf : Fits ctx n) (ht : u.toList=t.toList) :
    Keeps m (plug t ctx).toList := by
  obtain ⟨r,hr⟩ := ranked_plug hu hf
  exact ⟨plug u ctx,r,holds_plug.mpr (by rwa [List.append_nil]),toList_plug ht,hr⟩

/-- All nodes of the tree and of its context. -/
def nodes (t : Bintree κ) (ctx : List (Frame κ)) : List κ := t.toList++keys ctx

theorem nodup_nodes : (nodes t ctx).Nodup ↔ t.toList.Nodup ∧ (keys ctx).Nodup ∧ t.toList.Disjoint (keys ctx) :=
  List.nodup_append'

theorem nodes_cons : (nodes t (f::ctx)).Perm (nodes (f.fill t) ctx) := by
  unfold nodes
  rw [keys_cons,← List.append_assoc,toList_fill]
  exact List.Perm.append_right (keys ctx) (List.perm_middle.trans perm_around.symm)

theorem nodes_append : (nodes t (ctx++ctx')).Perm (nodes (plug t ctx) ctx') := by
  unfold nodes
  rw [keys_append,← List.append_assoc]
  exact List.Perm.append_right (keys ctx') perm_plug.symm

theorem nodes_key : (x::nodes t (ctx++f::ctx')).Perm (f.key::nodes t (ctx++{f with key := x}::ctx')) := by
  have hsplit : ∀ y,nodes t (ctx++{f with key := y}::ctx')=(t.toList++keys ctx)++y::(f.sib.toList++keys ctx') := by
    intro y
    rw [nodes,keys_append,keys_cons,List.append_assoc]
    rfl
  rw [hsplit x,show nodes t (ctx++f::ctx')=_ from hsplit f.key]
  exact (List.Perm.cons x List.perm_middle).trans ((List.Perm.swap ..).trans (List.Perm.cons f.key List.perm_middle.symm))

/-- The bits of the root are changed. -/
theorem holds_setUp (red' : Dir → Bool) (h : Holds m (.node x red sub) ctx) (hnd : (nodes (.node x red sub) ctx).Nodup) :
    Holds (m.setUp x ⟨top ctx,red'⟩) (.node x red' sub) ctx := by
  obtain ⟨⟨-,hsub⟩,hctx⟩ := h
  obtain ⟨hndT,-,hdis⟩ := nodup_nodes.mp hnd
  have hsame : ∀ z,z≠x → (m.setUp x ⟨top ctx,red'⟩).up z=m.up z ∧ ∀ e,(m.setUp x ⟨top ctx,red'⟩).link e z=m.link e z :=
    fun z hz => ⟨setUp_ne hz,fun _ => rfl⟩
  refine ⟨⟨setUp_self,fun d => ⟨(hsub d).1,(hsub d).2.congr fun z hz => hsame z ?_⟩⟩,hctx.congr (fun z hz => hsame z ?_) rfl⟩
  · exact fun heq => ((nodup_node d).mp hndT).1 (heq ▸ hz)
  · exact fun heq => hdis (root_mem rfl) (heq ▸ hz)

/-- The bits of the node above the hole are changed. -/
theorem holds_recolor (red' : Dir → Bool) (h : Holds m t (f::ctx)) (hnd : (nodes t (f::ctx)).Nodup) :
    Holds (m.setUp f.key ⟨top ctx,red'⟩) t ({f with red := red'}::ctx) :=
  holds_fill.mp (holds_setUp red' (holds_fill.mpr h) (nodes_cons.nodup_iff.mp hnd))

/-- The side on which a child is. -/
theorem side_eq {p : κ} {d : Dir} {y : Option κ} (h : m.link d p=y) (h' : m.link d.flip p≠y) :
    (if m.link .right p=y then Dir.right else .left)=d := by
  cases d with
  | left => exact if_neg h'
  | right => exact if_pos h

end Rep

/-! ### Rotations -/

section Rotations
variable {m m₀ m₁ m₂ : Mem κ} {ctx : List (Frame κ)} {p q c z : κ} {rp₀ rq₀ rc₀ rp rq : Dir → Bool} {d e : Dir}
  {A B C D : Bintree κ} {par inn : Option κ}

theorem swapChild_up : (swapChild m par p inn).up=m.up := by
  unfold swapChild
  split
  · rfl
  · split <;> rfl

theorem swapChild_link (h : par≠some z) : (swapChild m par p inn).link e z=m.link e z := by
  unfold swapChild
  split
  · rfl
  · have hne : z≠_ := fun heq => h (congrArg some heq.symm)
    split
    · exact setLink_ne hne
    · exact setLink_ne hne

/-- One rotation, which turns `q` into the root. -/
theorem holds_single (m₁ : Mem κ) (rp rq : Dir → Bool) (h : Holds m (.node p rp₀ (pick d (.node q rq₀ (pick d A B)) D)) ctx)
    (hnd : (nodes (.node p rp₀ (pick d (.node q rq₀ (pick d A B)) D)) ctx).Nodup) (hlink : m₁.link=m.link)
    (hroot : m₁.root=m.root) (hup : ∀ z,z≠p → z≠q → m₁.up z=m.up z) (hred : (m₁.up p).red=rp) :
    Holds (swapChild ((rotate m₁ p q d.flip).setUp q ⟨top ctx,rq⟩) (top ctx) p (some q))
      (.node q rq (pick d A (.node p rp (pick d B D)))) ctx := by
  obtain ⟨hrep,hctx⟩ := h
  obtain ⟨-,⟨hpq,hq⟩,hpD,hD⟩ := (rep_pick d).mp hrep
  obtain ⟨-,⟨hqA,hA⟩,hqB,hB⟩ := (rep_pick d).mp hq
  obtain ⟨hndT,hndK,hdis⟩ := nodup_nodes.mp hnd
  obtain ⟨hpn,hpD',hndq,hndD,hdisD⟩ := (nodup_pick d).mp hndT
  obtain ⟨hqA',hqB',hndA,hndB,hdisAB⟩ := (nodup_pick d).mp hndq
  rw [mem_pick d,not_or,not_or] at hpn
  obtain ⟨hne,hpA',hpB'⟩ := hpn
  have hqD' : q∉D.toList := fun hq' => hdisD ((mem_pick d).mpr (.inl rfl)) hq'
  -- what the nodes are afterwards
  have hBq : m₁.link d.flip q=B.root := by rw [hlink,hqB]
  have hrup := fun z => rotate_up m₁ p q d.flip (z := z)
    (by rw [hBq]; exact fun hb => hpB' (root_mem hb))
  rw [hBq] at hrup
  have hrlink := fun e z => rotate_link m₁ p q d.flip (e := e) (z := z)
  rw [hBq,Dir.flip_flip,hlink] at hrlink
  have hout : ∀ z∈(Bintree.node p rp₀ (pick d (.node q rq₀ (pick d A B)) D)).toList,top ctx≠some z :=
    fun z hz htop => hdis hz (top_mem htop)
  have hmq : ∀ z,z=q ∨ z∈A.toList ∨ z∈B.toList → z∈(Bintree.node p rp₀ (pick d (.node q rq₀ (pick d A B)) D)).toList :=
    fun z hz => (mem_pick d).mpr (.inr (.inl ((mem_pick d).mpr hz)))
  have hmp : p∈(Bintree.node p rp₀ (pick d (.node q rq₀ (pick d A B)) D)).toList := (mem_pick d).mpr (.inl rfl)
  have hmD : ∀ z∈D.toList,z∈(Bintree.node p rp₀ (pick d (.node q rq₀ (pick d A B)) D)).toList :=
    fun z hz => (mem_pick d).mpr (.inr (.inr hz))
  generalize hr : (rotate m₁ p q d.flip).setUp q ⟨top ctx,rq⟩=r
  have hru : ∀ z,z≠p → z≠q → r.up z=if B.root=some z then {m.up z with ptr := some p} else m.up z := by
    intro z hzp hzq
    rw [← hr,setUp_ne hzq,hrup,if_neg hzp,hup z hzp hzq]
  have hrl : ∀ e z,r.link e z=if e=d.flip ∧ z=q then some p else if e=d ∧ z=p then B.root else m.link e z := by
    intro e z
    rw [← hr,setUp_link,hrlink]
  have hsl : ∀ e z,z≠p → z≠q → top ctx≠some z → (swapChild r (top ctx) p (some q)).link e z=m.link e z := by
    intro e z hzp hzq htop
    rw [swapChild_link htop,hrl,if_neg fun h => hzq h.2,if_neg fun h => hzp h.2]
  refine ⟨(rep_pick d).mpr ⟨?_,⟨?_,?_⟩,?_,(rep_pick d).mpr ⟨?_,⟨?_,?_⟩,?_,?_⟩⟩,?_⟩
  · rw [swapChild_up,← hr,setUp_self]
  · rw [swapChild_link (hout q (hmq q (.inl rfl))),hrl,if_neg fun h => d.ne_flip h.1,if_neg fun h => hne h.2.symm,hqA]
  · refine hA.congr fun z hz => ?_
    have hzp : z≠p := fun heq => hpA' (heq ▸ hz)
    have hzq : z≠q := fun heq => hqA' (heq ▸ hz)
    have hzB : B.root≠some z := fun hb => hdisAB hz (root_mem hb)
    exact ⟨by rw [swapChild_up,hru z hzp hzq,if_neg hzB],fun e => hsl e z hzp hzq (hout z (hmq z (.inr (.inl hz))))⟩
  · rw [swapChild_link (hout q (hmq q (.inl rfl))),hrl,if_pos ⟨rfl,rfl⟩]
    rfl
  · rw [swapChild_up,← hr,setUp_ne hne,hrup,if_pos rfl]
    exact congrArg (Up.mk (some q)) hred
  · rw [swapChild_link (hout p hmp),hrl,if_neg fun h => hne h.2,if_pos ⟨rfl,rfl⟩]
  · refine hB.adopt hndB (fun z hz e => ?_) (fun z hz hzB => ?_) fun z hzB => ?_
    · exact hsl e z (fun heq => hpB' (heq ▸ hz)) (fun heq => hqB' (heq ▸ hz)) (hout z (hmq z (.inr (.inr hz))))
    · rw [swapChild_up,hru z (fun heq => hpB' (heq ▸ hz)) (fun heq => hqB' (heq ▸ hz)),if_neg hzB]
    · have hz := root_mem hzB
      rw [swapChild_up,hru z (fun heq => hpB' (heq ▸ hz)) (fun heq => hqB' (heq ▸ hz)),if_pos hzB]
  · rw [swapChild_link (hout p hmp),hrl,if_neg fun h => hne h.2,if_neg fun h => d.flip_ne h.1,hpD]
  · refine hD.congr fun z hz => ?_
    have hzp : z≠p := fun heq => hpD' (heq ▸ hz)
    have hzq : z≠q := fun heq => hqD' (heq ▸ hz)
    have hzB : B.root≠some z := fun hb => hdisD ((mem_pick d).mpr (.inr (.inr (root_mem hb)))) hz
    exact ⟨by rw [swapChild_up,hru z hzp hzq,if_neg hzB],fun e => hsl e z hzp hzq (hout z (hmD z hz))⟩
  · refine repCtx_swap hctx hndK (fun hpk => hdis hmp hpk) (fun z hz => ?_) ?_
    · have hzp : z≠p := fun heq => hdis (heq ▸ hmp) hz
      have hzq : z≠q := fun heq => hdis (heq ▸ hmq q (.inl rfl)) hz
      have hzB : B.root≠some z := fun hb => hdis (hmq z (.inr (.inr (root_mem hb)))) hz
      exact ⟨by rw [hru z hzp hzq,if_neg hzB],fun e => by rw [hrl,if_neg fun h => hzq h.2,if_neg fun h => hzp h.2]⟩
    · rw [← hr,setUp_root,rotate_root,hroot]

/-- Two rotations, which turn `c` into the root. -/
theorem holds_double (rc : Dir → Bool)
    (h : Holds m (.node p rp₀ (pick d (.node q rq₀ (pick d A (.node c rc₀ (pick d B C)))) D)) ctx)
    (hnd : (nodes (.node p rp₀ (pick d (.node q rq₀ (pick d A (.node c rc₀ (pick d B C)))) D)) ctx).Nodup)
    (hlink : m₀.link=m.link) (hroot : m₀.root=m.root) (hup : ∀ z,z≠p → m₀.up z=m.up z)
    (hlink₂ : m₂.link=(rotate m₀ q c d).link) (hroot₂ : m₂.root=(rotate m₀ q c d).root)
    (hup₂ : ∀ z,z≠p → z≠q → z≠c → m₂.up z=(rotate m₀ q c d).up z) (hq₂ : m₂.up q=⟨some c,rq⟩) (hred : (m₂.up p).red=rp) :
    Holds (swapChild ((rotate m₂ p c d.flip).setUp c ⟨top ctx,rc⟩) (top ctx) p (some c))
      (.node c rc (pick d (.node q rq (pick d A B)) (.node p rp (pick d C D)))) ctx := by
  obtain ⟨hrep,hctx⟩ := h
  obtain ⟨-,⟨-,hq⟩,hpD,hD⟩ := (rep_pick d).mp hrep
  obtain ⟨-,⟨hqA,hA⟩,-,hc⟩ := (rep_pick d).mp hq
  obtain ⟨-,⟨hcB,hB⟩,hcC,hC⟩ := (rep_pick d).mp hc
  obtain ⟨hndT,hndK,hdis⟩ := nodup_nodes.mp hnd
  obtain ⟨hpn,hpD',hndq,-,hdisD⟩ := (nodup_pick d).mp hndT
  obtain ⟨hqA',hqn,-,hndc,hdisA⟩ := (nodup_pick d).mp hndq
  obtain ⟨hcB',hcC',hndB,hndC,hdisBC⟩ := (nodup_pick d).mp hndc
  rw [mem_pick d,mem_pick d,not_or,not_or,not_or,not_or] at hpn
  obtain ⟨hpq,hpA',hpc,hpB',hpC'⟩ := hpn
  rw [mem_pick d,not_or,not_or] at hqn
  obtain ⟨hqc,hqB',hqC'⟩ := hqn
  have hin : ∀ z,z=c ∨ z∈B.toList ∨ z∈C.toList → z∉A.toList ∧ z∉D.toList := fun z hz =>
    ⟨fun ha => hdisA ha ((mem_pick d).mpr hz),
      fun hd => hdisD ((mem_pick d).mpr (.inr (.inr ((mem_pick d).mpr hz)))) hd⟩
  have hAD : ∀ z∈A.toList,z∉D.toList := fun z hz hd => hdisD ((mem_pick d).mpr (.inr (.inl hz))) hd
  have hqD' : q∉D.toList := fun hd => hdisD ((mem_pick d).mpr (.inl rfl)) hd
  -- what the nodes are after the first rotation
  have hcB₀ : m₀.link d c=B.root := by rw [hlink,hcB]
  have hup₁ := fun z => rotate_up m₀ q c d (z := z)
    (by rw [hcB₀]; exact fun hb => hqB' (root_mem hb))
  rw [hcB₀] at hup₁
  have hlink₁ := fun e z => rotate_link m₀ q c d (e := e) (z := z)
  rw [hcB₀,hlink] at hlink₁
  -- and after the second one
  have hcC₂ : m₂.link d.flip c=C.root := by
    rw [hlink₂,hlink₁,if_neg fun h => d.flip_ne h.1,if_neg fun h => hqc h.2.symm,hcC]
  have hrup := fun z => rotate_up m₂ p c d.flip (z := z)
    (by rw [hcC₂]; exact fun hb => hpC' (root_mem hb))
  rw [hcC₂] at hrup
  have hrlink := fun e z => rotate_link m₂ p c d.flip (e := e) (z := z)
  rw [hcC₂,Dir.flip_flip,hlink₂] at hrlink
  generalize hr : (rotate m₂ p c d.flip).setUp c ⟨top ctx,rc⟩=r
  have hru : ∀ z,z≠p → z≠q → z≠c → r.up z=if C.root=some z then {m.up z with ptr := some p}
      else if B.root=some z then {m.up z with ptr := some q} else m.up z := by
    intro z hzp hzq hzc
    rw [← hr,setUp_ne hzc,hrup,if_neg hzp,hup₂ z hzp hzq hzc,hup₁,if_neg hzq,hup z hzp]
    split
    · rename_i hzC
      rw [if_neg fun hzB => hdisBC (root_mem hzB) (root_mem hzC)]
    · rfl
  have hrl : ∀ e z,r.link e z=if e=d.flip ∧ z=c then some p else if e=d ∧ z=p then C.root
      else if e=d ∧ z=c then some q else if e=d.flip ∧ z=q then B.root else m.link e z := by
    intro e z
    rw [← hr,setUp_link,hrlink,hlink₁]
  have hmem : ∀ z,z=p ∨ z=q ∨ z=c ∨ z∈A.toList ∨ z∈B.toList ∨ z∈C.toList ∨ z∈D.toList →
      z∈(Bintree.node p rp₀ (pick d (.node q rq₀ (pick d A (.node c rc₀ (pick d B C)))) D)).toList := by
    intro z hz
    rw [mem_pick d,mem_pick d,mem_pick d]
    tauto
  have hout : ∀ z,z=p ∨ z=q ∨ z=c ∨ z∈A.toList ∨ z∈B.toList ∨ z∈C.toList ∨ z∈D.toList → top ctx≠some z :=
    fun z hz htop => hdis (hmem z hz) (top_mem htop)
  have hrest : ∀ z,z≠p → z≠q → z≠c → ∀ e,r.link e z=m.link e z := by
    intro z hzp hzq hzc e
    rw [hrl,if_neg fun h => hzc h.2,if_neg fun h => hzp h.2,if_neg fun h => hzc h.2,if_neg fun h => hzq h.2]
  refine ⟨(rep_pick d).mpr ⟨?_,⟨?_,(rep_pick d).mpr ⟨?_,⟨?_,?_⟩,?_,?_⟩⟩,?_,(rep_pick d).mpr ⟨?_,⟨?_,?_⟩,?_,?_⟩⟩,?_⟩
  · rw [swapChild_up,← hr,setUp_self]
  · rw [swapChild_link (hout c (by simp)),hrl,if_neg fun h => d.ne_flip h.1,if_neg fun h => hpc h.2.symm,if_pos ⟨rfl,rfl⟩]
    rfl
  · rw [swapChild_up,← hr,setUp_ne hqc,hrup,if_neg (Ne.symm hpq),if_neg fun hC => hqC' (root_mem hC),hq₂]
  · rw [swapChild_link (hout q (by simp)),hrl,if_neg fun h => hqc h.2,if_neg fun h => hpq h.2.symm,if_neg fun h => hqc h.2,
      if_neg fun h => d.ne_flip h.1,hqA]
  · refine hA.congr fun z hz => ?_
    have hzp : z≠p := fun heq => hpA' (heq ▸ hz)
    have hzq : z≠q := fun heq => hqA' (heq ▸ hz)
    have hzc : z≠c := fun heq => (hin z (.inl heq)).1 hz
    refine ⟨?_,fun e => by rw [swapChild_link (hout z (by simp [hz])),hrest z hzp hzq hzc]⟩
    rw [swapChild_up,hru z hzp hzq hzc,if_neg fun hC => (hin z (.inr (.inr (root_mem hC)))).1 hz,
      if_neg fun hB => (hin z (.inr (.inl (root_mem hB)))).1 hz]
  · rw [swapChild_link (hout q (by simp)),hrl,if_neg fun h => hqc h.2,if_neg fun h => hpq h.2.symm,if_neg fun h => hqc h.2,
      if_pos ⟨rfl,rfl⟩]
  · have hne : ∀ z∈B.toList,z≠p ∧ z≠q ∧ z≠c := fun z hz =>
      ⟨fun heq => hpB' (heq ▸ hz),fun heq => hqB' (heq ▸ hz),fun heq => hcB' (heq ▸ hz)⟩
    refine hB.adopt hndB (fun z hz e => ?_) (fun z hz hzB => ?_) fun z hzB => ?_
    · obtain ⟨hzp,hzq,hzc⟩ := hne z hz
      rw [swapChild_link (hout z (by simp [hz])),hrest z hzp hzq hzc]
    · obtain ⟨hzp,hzq,hzc⟩ := hne z hz
      rw [swapChild_up,hru z hzp hzq hzc,if_neg fun hC => hdisBC hz (root_mem hC),if_neg hzB]
    · have hz := root_mem hzB
      obtain ⟨hzp,hzq,hzc⟩ := hne z hz
      rw [swapChild_up,hru z hzp hzq hzc,if_neg fun hC => hdisBC hz (root_mem hC),if_pos hzB]
  · rw [swapChild_link (hout c (by simp)),hrl,if_pos ⟨rfl,rfl⟩]
    rfl
  · rw [swapChild_up,← hr,setUp_ne hpc,hrup,if_pos rfl]
    exact congrArg (Up.mk (some c)) hred
  · rw [swapChild_link (hout p (by simp)),hrl,if_neg fun h => hpc h.2,if_pos ⟨rfl,rfl⟩]
  · have hne : ∀ z∈C.toList,z≠p ∧ z≠q ∧ z≠c := fun z hz =>
      ⟨fun heq => hpC' (heq ▸ hz),fun heq => hqC' (heq ▸ hz),fun heq => hcC' (heq ▸ hz)⟩
    refine hC.adopt hndC (fun z hz e => ?_) (fun z hz hzC => ?_) fun z hzC => ?_
    · obtain ⟨hzp,hzq,hzc⟩ := hne z hz
      rw [swapChild_link (hout z (by simp [hz])),hrest z hzp hzq hzc]
    · obtain ⟨hzp,hzq,hzc⟩ := hne z hz
      rw [swapChild_up,hru z hzp hzq hzc,if_neg hzC,if_neg fun hB => hdisBC (root_mem hB) hz]
    · obtain ⟨hzp,hzq,hzc⟩ := hne z (root_mem hzC)
      rw [swapChild_up,hru z hzp hzq hzc,if_pos hzC]
  · rw [swapChild_link (hout p (by simp)),hrl,if_neg fun h => hpc h.2,if_neg fun h => d.flip_ne h.1,if_neg fun h => hpc h.2,
      if_neg fun h => hpq h.2,hpD]
  · refine hD.congr fun z hz => ?_
    have hzp : z≠p := fun heq => hpD' (heq ▸ hz)
    have hzq : z≠q := fun heq => hqD' (heq ▸ hz)
    have hzc : z≠c := fun heq => (hin z (.inl heq)).2 hz
    refine ⟨?_,fun e => by rw [swapChild_link (hout z (by simp [hz])),hrest z hzp hzq hzc]⟩
    rw [swapChild_up,hru z hzp hzq hzc,if_neg fun hC => (hin z (.inr (.inr (root_mem hC)))).2 hz,
      if_neg fun hB => (hin z (.inr (.inl (root_mem hB)))).2 hz]
  · refine repCtx_swap hctx hndK (fun hpk => hdis (hmem p (by simp)) hpk) (fun z hz => ?_) ?_
    · have hz' : ∀ w,w=p ∨ w=q ∨ w=c ∨ w∈A.toList ∨ w∈B.toList ∨ w∈C.toList ∨ w∈D.toList → z≠w :=
        fun w hw heq => hdis (heq ▸ hmem w hw) hz
      have hzp := hz' p (by simp)
      have hzq := hz' q (by simp)
      have hzc := hz' c (by simp)
      refine ⟨?_,hrest z hzp hzq hzc⟩
      rw [hru z hzp hzq hzc,if_neg fun hC => hz' z (by simp [root_mem hC]) rfl,
        if_neg fun hB => hz' z (by simp [root_mem hB]) rfl]
    · rw [← hr,setUp_root,rotate_root,hroot₂,rotate_root,hroot]

end Rotations

end Dpapp.Dprbt
