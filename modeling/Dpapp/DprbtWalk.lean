import Dpapp.DprbtInsert
import Dpapp.DprbtRemove

/-! # Walks and searches in a rank-balanced tree (dprbt.h) -/

set_option linter.unusedSectionVars false

namespace Dpapp.Dprbt
open Dpapp.RankTree

variable {κ : Type*} [DecidableEq κ] {m : Mem κ} {t u : Bintree κ} {ctx path : List (Frame κ)} {x y elm : κ} {d : Dir} {k n : ℕ}
  {red : Dir → Bool} {sub : Dir → Bintree κ} {xs ys zs : List κ} {cmp : κ → κ → ℤ} {par : Option κ}

/-- The element of a list on this side that is next to the middle. -/
def near (d : Dir) (xs : List κ) : Option κ :=
  match d with
  | .left => xs.getLast?
  | .right => xs.head?

theorem near_join (h : xs≠[]) : near d (join d.flip xs ys)=near d xs := by
  cases d with
  | left =>
    show (ys++xs).getLast?=xs.getLast?
    rw [List.getLast?_append,List.getLast?_eq_some_getLast h]
    rfl
  | right => exact List.head?_append_of_ne_nil xs h

theorem near_first : near d.flip (join d (around d [] x xs) ys)=some x := by
  cases d with
  | left => rfl
  | right =>
    show (ys++(xs++[x])).getLast?=some x
    rw [← List.append_assoc]
    exact List.getLast?_concat

theorem around_flip : around d.flip xs x ys=around d ys x xs := by cases d <;> rfl

/-- The loop down this side ends at the last element there. -/
theorem descend_last (h : Holds m t ctx) (hroot : t.root=some x) (hn : t.depth<n) :
    ∃ y,descend m d n x=some y ∧ near d.flip t.toList=some y := by
  obtain ⟨y,redy,u,path,rfl,hdir⟩ := exists_last d (t := t) fun hnil => by
    rw [hnil] at hroot
    cases hroot
  have hdepth : _≤(plug (.node y redy (pick d .nil u)) path).depth := depth_plug
  refine ⟨y,descend_spec h hdir hroot (by omega),?_⟩
  rw [toList_last hdir,toList_pick]
  exact near_first

theorem rbMinmax_spec (h : Keeps m xs) (hn : Enough n xs) : rbMinmax n m d=some (near d.flip xs) := by
  obtain ⟨t,r,ht,rfl,hr⟩ := h
  have hroot : m.root=t.root := ht.2
  unfold rbMinmax
  rw [hroot]
  cases hx : t.root with
  | none =>
    rw [root_eq_none.mp hx]
    cases d <;> rfl
  | some x =>
    obtain ⟨y,hy,hnear⟩ := descend_last ht hx (depth_lt hr hn) (d := d)
    simp only [hy,hnear,Option.map_some]

theorem ascend_spec (hup : (m.up x).ptr=top ctx) (h : RepCtx m ctx (some x)) (hx : x∉keys ctx) (hnd : (keys ctx).Nodup)
    (hn : ctx.length<n) : ascend m d n x=some (near d (beyond d ctx)) := by
  induction ctx generalizing x n with
  | nil =>
    obtain ⟨n,rfl⟩ := Nat.exists_eq_succ_of_ne_zero (Nat.ne_of_gt hn)
    simp only [ascend,hup,top,beyond]
    cases d <;> rfl
  | cons f ctx ih =>
    obtain ⟨n,rfl⟩ := Nat.exists_eq_succ_of_ne_zero (Nat.ne_of_gt (Nat.zero_lt_of_lt hn))
    obtain ⟨hkup,hlink,hflip,-,hrest⟩ := h
    rw [keys_cons] at hx hnd
    obtain ⟨-,hndK,hdis⟩ := List.nodup_append'.mp hnd
    simp only [ascend,hup,top]
    rcases f.dir.eq_or_flip d with rfl | rfl
    · rw [if_pos hlink,beyond,if_pos rfl]
      exact ih (congrArg Up.ptr hkup) hrest (fun hk => hdis List.mem_cons_self hk) hndK (Nat.lt_of_succ_lt_succ hn)
    · have hne : m.link f.dir.flip f.key≠some x := by
        rw [hflip]
        exact fun hr => hx (List.mem_append_left _ (List.mem_cons_of_mem _ (root_mem hr)))
      rw [if_neg hne,beyond,if_neg f.dir.ne_flip,Dir.flip_flip,around_flip,near_first]

/-- Where an element stands in a list without duplicates. -/
theorem around_inj {xs' ys' : List κ} (hnd : (around d xs x ys).Nodup) (h : around d xs' x ys'=around d xs x ys) : xs'=xs := by
  have hx := perm_around.nodup_iff.mp hnd
  rw [List.nodup_cons,List.mem_append,not_or] at hx
  obtain ⟨⟨hxs,hys⟩,-⟩ := hx
  cases d with
  | left => exact ((List.append_cons_inj_of_notMem hxs hys).mp h.symm).1.symm
  | right => exact ((List.append_cons_inj_of_notMem hys hxs).mp h.symm).2.2.symm

theorem toList_at (d : Dir) : (plug (.node x red sub) ctx).toList=
    around d (join d.flip (sub d).toList (beyond d ctx)) x (join d (sub d.flip).toList (beyond d.flip ctx)) := by
  rw [toList_plug_eq,Bintree.toList]
  cases d <;> simp [around,join,Dir.flip]

theorem rbNext_spec (h : Keeps m (around d xs x ys)) (hnd : (around d xs x ys).Nodup) (hn : Enough n (around d xs x ys)) :
    rbNext n m d x=some (near d xs) := by
  obtain ⟨t,r,ht,hlist,hr⟩ := h
  rw [← hlist] at hn
  have hdepth := depth_lt hr hn
  have hx : x∈t.toList := hlist ▸ perm_around.mem_iff.mpr List.mem_cons_self
  obtain ⟨red,sub,ctx,rfl⟩ := exists_plug hx
  have hat : Holds m (.node x red sub) ctx := List.append_nil ctx ▸ holds_plug.mp ht
  have hndN : (nodes (.node x red sub) ctx).Nodup := perm_plug.nodup_iff.mp (hlist ▸ hnd)
  have hplug : (Bintree.node x red sub).depth+ctx.length≤_ := depth_plug
  have hside : join d.flip (sub d).toList (beyond d ctx)=xs := around_inj hnd ((toList_at d).symm.trans hlist)
  have hlink : m.link d x=(sub d).root := (hat.1.2 d).1
  unfold rbNext
  rw [hlink,← hside]
  cases hroot : (sub d).root with
  | none =>
    have hup : (m.up x).ptr=top ctx := congrArg Up.ptr hat.1.1
    obtain ⟨-,hndK,hdis⟩ := nodup_nodes.mp hndN
    have hbeyond : join d.flip (sub d).toList (beyond d ctx)=beyond d ctx := by
      rw [root_eq_none.mp hroot]
      cases d
      · exact List.append_nil _
      · rfl
    rw [hbeyond]
    refine ascend_spec hup hat.2 (fun hk => hdis (root_mem rfl) hk) hndK ?_
    omega
  | some y =>
    have hsub : Holds m (sub d) (⟨d,x,red,sub d.flip⟩::ctx) := by
      refine holds_fill.mp ?_
      rw [Frame.fill,pick_eta]
      exact hat
    have hlt : (sub d).depth<(Bintree.node x red sub).depth := depth_sub d
    obtain ⟨z,hz,hnear⟩ := descend_last hsub hroot (d := d.flip) (n := n) (by omega)
    rw [Dir.flip_flip] at hnear
    have hne : (sub d).toList≠[] := fun hnil => by
      have hy := root_mem hroot
      rw [hnil] at hy
      cases hy
    simp only [hz,near_join hne,hnear,Option.map_some]

/-- The elements of a list in the order in which a walk to this side meets them. -/
def order (d : Dir) (xs : List κ) : List κ :=
  match d with
  | .left => xs.reverse
  | .right => xs

theorem order_order : order d (order d xs)=xs := by
  cases d with
  | left => exact List.reverse_reverse xs
  | right => rfl

theorem near_order : near d (order d xs)=xs.head? := by
  cases d with
  | left => exact List.getLast?_reverse
  | right => rfl

/-- The walk goes on from the next element. -/
theorem around_order : ∃ zs,around d (order d (y::xs)) x ys=around d (order d xs) y zs := by
  cases d with
  | left => exact ⟨x::ys,by simp [around,order]⟩
  | right => exact ⟨ys++[x],by simp [around,order]⟩

theorem around_end : around d (order d xs) x []=order d (x::xs) := by cases d <;> simp [around,order]

theorem rbForeach_around (h : Keeps m (around d (order d xs) x ys)) (hnd : (around d (order d xs) x ys).Nodup)
    (hn : Enough n (around d (order d xs) x ys)) (hk : xs.length<k) : rbForeach n m d k (some x)=some (x::xs) := by
  induction xs generalizing x ys k with
  | nil =>
    obtain ⟨k,rfl⟩ := Nat.exists_eq_succ_of_ne_zero (Nat.ne_of_gt hk)
    simp only [rbForeach,rbNext_spec h hnd hn,near_order,List.head?_nil,Option.bind_some]
    cases k <;> rfl
  | cons y xs ih =>
    obtain ⟨k,rfl⟩ := Nat.exists_eq_succ_of_ne_zero (Nat.ne_of_gt (Nat.zero_lt_of_lt hk))
    obtain ⟨zs,hzs⟩ : ∃ zs,around d (order d (y::xs)) x ys=around d (order d xs) y zs := around_order
    simp only [rbForeach,rbNext_spec h hnd hn,near_order,List.head?_cons,Option.bind_some]
    rw [hzs] at h hnd hn
    rw [ih h hnd hn (Nat.lt_of_succ_lt_succ hk)]
    rfl

theorem rbForeach_spec (h : Keeps m xs) (hnd : xs.Nodup) (hn : Enough n xs) (hk : xs.length<k) :
    (rbMinmax n m d.flip).bind (rbForeach n m d k)=some (order d xs) := by
  rw [rbMinmax_spec h hn,Dir.flip_flip]
  show rbForeach n m d k (near d xs)=_
  have hhead : near d xs=(order d xs).head? := by rw [← near_order,order_order]
  rw [hhead]
  cases hx : order d xs with
  | nil => cases k <;> rfl
  | cons x ys =>
    have hxs : xs=around d (order d ys) x [] := by
      rw [around_end,← hx,order_order]
    have hlen : (order d xs).length=xs.length := by
      cases d
      · exact List.length_reverse
      · rfl
    rw [hx,List.length_cons] at hlen
    rw [hxs] at h hnd hn
    exact rbForeach_around h hnd hn (by omega)

theorem rbRank_rep (h : Rep m t par) (ht : Ranked t k) (hn : t.depth<n) : rbRank m n t.root=some (k : ℤ) := by
  induction t generalizing par k n with
  | nil =>
    obtain ⟨n,rfl⟩ := Nat.exists_eq_succ_of_ne_zero (Nat.ne_of_gt hn)
    rw [ranked_nil.mp ht]
    rfl
  | node x red sub ih =>
    obtain ⟨n,rfl⟩ := Nat.exists_eq_succ_of_ne_zero (Nat.ne_of_gt (Nat.zero_lt_of_lt hn))
    have hdepth : ∀ d,(sub d).depth<n := fun d => Nat.lt_of_lt_of_le (depth_sub d) (Nat.le_of_lt_succ hn)
    obtain ⟨⟨i,hi,hL⟩,⟨j,hj,hR⟩,hleaf⟩ := (ranked_node .left).mp ht
    have hup : (m.up x).red=red := congrArg Up.red h.1
    have hedge : ∀ b : Bool,(if b then (2 : ℤ) else 1)=(edge b : ℤ) := by
      intro b
      cases b <;> rfl
    show rbRank m (n+1) (some x)=_
    simp only [rbRank,(h.2 _).1,ih .left (h.2 .left).2 hL (hdepth .left),ih .right (h.2 .right).2 hR (hdepth .right),
      Option.bind_some,Option.map_some,hup,hedge]
    have hleft : (edge (red .left) : ℤ)+i=k := by omega
    have hright : (edge (red .right) : ℤ)+j=k := by
      have hj' : k=j+edge (red .right) := hj
      omega
    rw [hleft,hright,if_neg]
    rintro (hne | ⟨htwo,hl,hr⟩)
    · exact hne rfl
    · have hone := hleaf (root_eq_none.mp hl) (root_eq_none.mp hr)
      omega

/-! ### Searches -/

theorem find_left {p : κ → Bool} (hx : ¬p x) (hys : ∀ y∈ys,¬p y) : (xs++x::ys).find? p=xs.find? p := by
  rw [List.find?_append,List.find?_cons_of_neg hx,List.find?_eq_none.mpr hys,Option.or_none]

theorem find_right {p : κ → Bool} (hxs : ∀ y∈xs,¬p y) : (xs++ys).find? p=ys.find? p := by
  rw [List.find?_append,List.find?_eq_none.mpr hxs,Option.none_or]

theorem rbFind_rep (h : Rep m t par) (hcut : Cut (cmp elm) t.toList) (hn : t.depth<n) :
    rbFind cmp m elm n t.root=some (t.toList.find? fun y => cmp elm y=0) := by
  induction t generalizing par n with
  | nil =>
    obtain ⟨n,rfl⟩ := Nat.exists_eq_succ_of_ne_zero (Nat.ne_of_gt hn)
    rfl
  | node x red sub ih =>
    obtain ⟨n,rfl⟩ := Nat.exists_eq_succ_of_ne_zero (Nat.ne_of_gt (Nat.zero_lt_of_lt hn))
    have hdepth : ∀ d,(sub d).depth<n := fun d => Nat.lt_of_lt_of_le (depth_sub d) (Nat.le_of_lt_succ hn)
    obtain ⟨hright,hleft⟩ := cut_sides hcut
    show rbFind cmp m elm (n+1) (some x)=_
    simp only [rbFind,(h.2 _).1,Bintree.toList]
    rcases Int.lt_trichotomy (cmp elm x) 0 with hlt | heq | hgt
    · rw [if_pos hlt,ih .left (h.2 .left).2 (cut_left hcut) (hdepth .left),find_left]
      · simpa using hlt.ne
      · intro y hy
        simpa using (hright hlt.le y hy).ne
    · have hL : ∀ y∈(sub .left).toList,¬decide (cmp elm y=0) := fun y hy => by simpa using (hleft heq.ge y hy).ne'
      rw [if_neg heq.not_lt,if_neg heq.not_gt,find_right hL,List.find?_cons_of_pos (by simpa using heq)]
    · have hL : ∀ y∈(sub .left).toList,¬decide (cmp elm y=0) := fun y hy => by simpa using (hleft hgt.le y hy).ne'
      rw [if_neg hgt.not_gt,if_pos hgt,ih .right (h.2 .right).2 (cut_right hcut) (hdepth .right),find_right hL,
        List.find?_cons_of_neg (by simpa using hgt.ne')]

theorem rbFind_spec (h : Keeps m xs) (hcut : Cut (cmp elm) xs) (hn : Enough n xs) :
    rbFind cmp m elm n m.root=some (xs.find? fun y => cmp elm y=0) := by
  obtain ⟨t,r,ht,rfl,hr⟩ := h
  rw [show m.root=t.root from ht.2]
  exact rbFind_rep ht.1 hcut (depth_lt hr hn)

/-- `res` is what comes after the subtree. -/
theorem rbNfind_rep {res : Option κ} (h : Rep m t par) (hcut : Cut (cmp elm) t.toList) (hn : t.depth<n) :
    rbNfind cmp m elm n t.root res=some ((t.toList.find? fun y => cmp elm y≤0).or res) := by
  induction t generalizing par n res with
  | nil =>
    obtain ⟨n,rfl⟩ := Nat.exists_eq_succ_of_ne_zero (Nat.ne_of_gt hn)
    rfl
  | node x red sub ih =>
    obtain ⟨n,rfl⟩ := Nat.exists_eq_succ_of_ne_zero (Nat.ne_of_gt (Nat.zero_lt_of_lt hn))
    have hdepth : ∀ d,(sub d).depth<n := fun d => Nat.lt_of_lt_of_le (depth_sub d) (Nat.le_of_lt_succ hn)
    obtain ⟨-,hleft⟩ := cut_sides hcut
    show rbNfind cmp m elm (n+1) (some x) res=_
    simp only [rbNfind,(h.2 _).1,Bintree.toList]
    rcases Int.lt_trichotomy (cmp elm x) 0 with hlt | heq | hgt
    · rw [if_pos hlt,ih .left (h.2 .left).2 (cut_left hcut) (hdepth .left),List.find?_append,
        List.find?_cons_of_pos (by simpa using hlt.le),Option.or_assoc]
      rfl
    · have hL : ∀ y∈(sub .left).toList,¬decide (cmp elm y≤0) := fun y hy => by simpa using hleft heq.ge y hy
      rw [if_neg heq.not_lt,if_neg heq.not_gt,find_right hL,List.find?_cons_of_pos (by simpa using heq.le)]
      rfl
    · have hL : ∀ y∈(sub .left).toList,¬decide (cmp elm y≤0) := fun y hy => by simpa using hleft hgt.le y hy
      rw [if_neg hgt.not_gt,if_pos hgt,ih .right (h.2 .right).2 (cut_right hcut) (hdepth .right),find_right hL,
        List.find?_cons_of_neg (by simpa using hgt)]

theorem rbNfind_spec (h : Keeps m xs) (hcut : Cut (cmp elm) xs) (hn : Enough n xs) :
    rbNfind cmp m elm n m.root none=some (xs.find? fun y => cmp elm y≤0) := by
  obtain ⟨t,r,ht,rfl,hr⟩ := h
  rw [show m.root=t.root from ht.2,rbNfind_rep ht.1 hcut (depth_lt hr hn),Option.or_none]

end Dpapp.Dprbt
