import Dpapp.Dprbt
import Mathlib.Data.List.Sort

/-! # Insertion into a rank-balanced tree (dprbt.h) -/

set_option linter.unusedSectionVars false

namespace Dpapp.Dprbt
open Dpapp.RankTree

variable {κ : Type*} [DecidableEq κ] {m : Mem κ} {t T : Bintree κ} {f : Frame κ} {ctx : List (Frame κ)} {elm p x : κ}
  {child : Option κ} {d : Dir} {k n : ℕ} {red : Dir → Bool}

/-- A subtree that has grown to rank `k+1`: the new leaf, or a node one of whose subtrees has grown. -/
def Grown (t : Bintree κ) (child : Option κ) (k : ℕ) : Prop :=
  Ranked t (k+1) ∧ (k=0 ∨ ∃ x red sub d c,t=.node x red sub ∧ red d=false ∧ red d.flip=true ∧ (sub d).root=some c ∧ child=some c)

/-- The parent's edges are 1 and 2 long, and the subtree at the short one has grown. -/
theorem insertRotate_spec (h : Holds m t (f::ctx)) (hnd : (nodes t (f::ctx)).Nodup) (ht : t.root=some elm)
    (hg : Grown t child k) (hf : Fits (f::ctx) k) (hshort : f.red f.dir=false) (hlong : f.red f.dir.flip=true) :
    ∃ m',insertRotate (m.setUp f.key ((m.up f.key).toggle f.dir.flip)) f.key elm child f.dir (top ctx)=some m' ∧
      Keeps m' (plug (f.fill t) ctx).toList := by
  obtain ⟨hrank,hgrown⟩ := hg
  obtain ⟨⟨j,hj,hsib⟩,-,hfits⟩ := hf
  rw [hshort] at hfits
  rw [hshort,hlong] at hj
  have hjk : k=j+1 := by simp only [edge] at hj; omega
  obtain ⟨x,redx,sub,d,c,rfl,hred,hredf,hchild,rfl⟩ := hgrown.resolve_left (by omega)
  cases ht
  have hfill := holds_fill.mpr h
  have hndf := (nodes_cons.nodup_iff).mp hnd
  obtain ⟨hrep,-,-,-,-,-⟩ := h
  have hup := hrep.1
  have hke : f.key≠elm := fun heq => (nodup_nodes.mp hnd).2.2 (heq ▸ (mem_node .left).mpr (.inl rfl)) List.mem_cons_self
  unfold insertRotate
  rcases f.dir.eq_or_flip d with rfl | rfl
  · -- the outer subtree has grown
    obtain ⟨⟨a,ha,hA⟩,⟨b,hb,hB⟩,-⟩ := (ranked_node f.dir).mp hrank
    rw [hred] at ha
    rw [hredf] at hb
    simp only [edge] at ha hb
    simp only [setUp_ne (Ne.symm hke),hup,hred,Bool.false_eq_true,if_false,Option.map_some]
    refine ⟨_,rfl,?_⟩
    rw [Frame.fill,← pick_eta f.dir sub] at hfill hndf
    have hnew := holds_single ((m.setUp f.key ((m.up f.key).toggle f.dir.flip)).setUp f.key ⟨top ctx,fun _ => false⟩)
      (fun _ => false) (fun _ => false) hfill hndf rfl rfl
      (fun z hz _ => (setUp_ne hz).trans (setUp_ne hz)) (congrArg Up.red setUp_self)
    refine keeps_plug hnew ?_ hfits ?_
    · refine ranked_pick f.dir hA (ranked_pick (n := k) f.dir hB hsib ?_ hjk ?_) ha rfl ?_
      · show k=b+1
        omega
      · omega
      · omega
    · rw [toList_pick,toList_pick,toList_fill,toList_node f.dir,around_rotate]
  · -- the inner subtree has grown
    rw [Dir.flip_flip] at hredf
    obtain ⟨⟨a,ha,hA⟩,⟨b,hb,hB⟩,-⟩ := (ranked_node f.dir).mp hrank
    rw [hredf] at ha
    rw [hred] at hb
    simp only [edge] at ha hb
    obtain rfl : b=j+1 := by omega
    obtain ⟨c',rc,subc,hsub⟩ := ranked_succ hB
    rw [hsub] at hB hchild
    cases hchild
    obtain ⟨⟨i,hi,hC⟩,⟨i',hi',hC'⟩,-⟩ := (ranked_node f.dir).mp hB
    rw [Frame.fill,← pick_eta f.dir sub,hsub,← pick_eta f.dir subc] at hfill hndf
    -- what the second rotation finds
    have hrepc := (hrep.2 f.dir.flip).2
    rw [hsub] at hrepc
    have hcup : m.up c=⟨some elm,rc⟩ := hrepc.1
    obtain ⟨hkn,-,hne,-,-⟩ := (nodup_pick f.dir).mp (nodup_nodes.mp hndf).1
    obtain ⟨-,hen,-,hnc,-⟩ := (nodup_pick f.dir).mp hne
    rw [mem_pick f.dir,mem_pick f.dir,not_or,not_or,not_or,not_or] at hkn
    rw [mem_pick f.dir,not_or,not_or] at hen
    obtain ⟨-,-,hkc,hkB,-⟩ := hkn
    obtain ⟨hec,heB,-⟩ := hen
    have hcB := ((nodup_pick f.dir).mp hnc).1
    simp only [setUp_ne (Ne.symm hke),hup,hredf,if_true,Option.map_some]
    generalize hm₀ : (m.setUp f.key ((m.up f.key).toggle f.dir.flip)).setUp f.key ⟨top ctx,fun _ => false⟩=m₀
    have hup₀ : ∀ z,z≠f.key → m₀.up z=m.up z := fun z hz => by rw [← hm₀,setUp_ne hz,setUp_ne hz]
    have hlink₀ : m₀.link=m.link := by rw [← hm₀,setUp_link,setUp_link]
    have hclink : ∀ z,z∉(subc f.dir).toList → m₀.link f.dir c≠some z := by
      intro z hz hroot
      rw [hlink₀,(hrepc.2 f.dir).1] at hroot
      exact hz (root_mem hroot)
    generalize hm₁ : rotate m₀ elm c f.dir=m₁
    have hc₁ : (m₁.up c).red=rc := by
      rw [← hm₁,rotate_up _ _ _ _ (hclink elm heB),if_neg (Ne.symm hec),if_neg (hclink c hcB),hup₀ c (Ne.symm hkc),hrepc.1]
    have he₁ : m₁.up elm=⟨some c,pick f.dir true false⟩ := by
      rw [← hm₁,rotate_up _ _ _ _ (hclink elm heB),if_pos rfl,hup₀ elm (Ne.symm hke),hup]
      exact congrArg (Up.mk (some c)) (eq_pick.mpr ⟨hredf,hred⟩)
    have hp₁ : m₁.up f.key=⟨top ctx,pick f.dir false false⟩ := by
      rw [← hm₁,rotate_up _ _ _ _ (hclink elm heB),if_neg hke,if_neg (hclink f.key hkB),← hm₀,setUp_self,pick_const]
    have hpbits : (if rc f.dir.flip=true then m₁.setUp f.key ((m₁.up f.key).toggle f.dir) else m₁)=
        m₁.setUp f.key ⟨top ctx,pick f.dir (rc f.dir.flip) false⟩ := by
      rw [hp₁,toggle_pick]
      cases rc f.dir.flip with
      | true => rfl
      | false => exact (hp₁ ▸ setUp_eta).symm
    have hebits : ∀ m' : Mem κ,m'.up elm=⟨some c,pick f.dir true false⟩ →
        (if rc f.dir=true then m'.setUp elm (m'.up elm).toggleBoth else m'.setUp elm ((m'.up elm).toggle f.dir))=
          m'.setUp elm ⟨some c,pick f.dir false (rc f.dir)⟩ := by
      intro m' h'
      rw [h',toggle_pick,toggleBoth_pick]
      cases rc f.dir <;> rfl
    rw [hc₁,hpbits,hebits _ ((setUp_ne (Ne.symm hke)).trans he₁)]
    refine ⟨_,rfl,?_⟩
    generalize hm₂ : (m₁.setUp f.key ⟨top ctx,pick f.dir (rc f.dir.flip) false⟩).setUp elm
      ⟨some c,pick f.dir false (rc f.dir)⟩=m₂
    have hlink₂ : m₂.link=(rotate m₀ elm c f.dir).link := by rw [← hm₂,hm₁,setUp_link,setUp_link]
    have hroot₂ : m₂.root=(rotate m₀ elm c f.dir).root := by rw [← hm₂,hm₁,setUp_root,setUp_root]
    have hup₂ : ∀ z,z≠f.key → z≠elm → z≠c → m₂.up z=(rotate m₀ elm c f.dir).up z := by
      intro z hzp hze _
      rw [← hm₂,hm₁,setUp_ne hze,setUp_ne hzp]
    have he₂ : m₂.up elm=⟨some c,pick f.dir false (rc f.dir)⟩ := by rw [← hm₂,setUp_self]
    have hp₂ : (m₂.up f.key).red=pick f.dir (rc f.dir.flip) false := by rw [← hm₂,setUp_ne hke,setUp_self]
    have hnew := holds_double (fun _ => false) hfill hndf hlink₀ (by rw [← hm₀]; rfl) hup₀ hlink₂ hroot₂ hup₂ he₂ hp₂
    refine keeps_plug hnew ?_ hfits ?_
    · have hleft : Ranked (.node elm (pick f.dir false (rc f.dir)) (pick f.dir (sub f.dir) (subc f.dir))) k :=
        ranked_bits hA hC (by simp only [edge]; omega) (hjk.trans hi) (by omega)
      have hright : Ranked (.node f.key (pick f.dir (rc f.dir.flip) false) (pick f.dir (subc f.dir.flip) f.sib)) k :=
        ranked_bits hC' hsib (hjk.trans hi') hjk (by omega)
      exact ranked_pick f.dir hleft hright rfl rfl (by omega)
    · rw [toList_pick,toList_pick,toList_pick,toList_fill,toList_node f.dir,hsub,toList_node f.dir]
      simp only [around_rotate]

theorem insertColor_spec (h : Holds m t (f::ctx)) (hnd : (nodes t (f::ctx)).Nodup) (ht : t.root=some elm)
    (hg : Grown t child k) (hf : Fits (f::ctx) k) (hn : ctx.length<n) :
    ∃ m',insertColor n m f.key elm child=some m' ∧ Keeps m' (plug (f.fill t) ctx).toList := by
  -- the way up to the root
  induction n generalizing m t f ctx elm child k with
  | zero => exact absurd hn (Nat.not_lt_zero _)
  | succ n ih =>
    have hup := h.2.1
    have hside : (if m.link .right f.key=some elm then Dir.right else .left)=f.dir := by
      refine side_eq (h.2.2.1.trans ht) ?_
      rw [h.2.2.2.1]
      exact fun hs => (nodup_nodes.mp hnd).2.2 (root_mem ht)
        (List.mem_cons_of_mem f.key (List.mem_append_left _ (root_mem hs)))
    have hbits : f.red=pick f.dir (f.red f.dir) (f.red f.dir.flip) := (pick_eta f.dir f.red).symm
    obtain ⟨⟨j,hj,hsib⟩,-,hfits⟩ := id hf
    simp only [insertColor,hside,hup]
    cases hown : f.red f.dir with
    | true =>
      -- the edge to the subtree becomes 1 long
      rw [hown] at hbits hj hfits
      rw [if_pos rfl,hbits,toggle_pick]
      have hrank := ranked_recolor (a := false) hg.1 hsib rfl hj (by omega)
      exact ⟨_,rfl,keeps_plug (holds_fill.mpr (holds_recolor _ h hnd)) hrank hfits fill_recolor⟩
    | false =>
      rw [if_neg Bool.false_ne_true]
      cases hother : f.red f.dir.flip with
      | true =>
        have hlr : ¬(f.red .left=false ∧ f.red .right=false) := by
          intro hlr
          have hall : ∀ e,f.red e=false := (forall_dir .left).mpr hlr
          exact Bool.false_ne_true ((hall _).symm.trans hother)
        rw [if_neg hlr]
        exact hup ▸ insertRotate_spec h hnd ht hg hf hown hother
      | false =>
        -- the other edge becomes 2 long, and the tree above has grown
        rw [hown] at hbits hj hfits
        rw [hother] at hbits hj
        obtain rfl : k=j := Nat.succ.inj hj
        rw [if_pos (by rw [hbits,pick_const]; exact ⟨rfl,rfl⟩),hbits,toggle_pick_flip]
        have hnew := holds_fill.mpr (holds_recolor (pick f.dir false true) h hnd)
        have hrank : Ranked ({f with red := pick f.dir false true}.fill t) (k+2) :=
          ranked_recolor hg.1 hsib rfl rfl (by omega)
        cases ctx with
        | nil => exact ⟨_,rfl,keeps_plug hnew hrank trivial fill_recolor⟩
        | cons g ctx =>
          have hndnew : (nodes ({f with red := pick f.dir false true}.fill t) (g::ctx)).Nodup := by
            unfold nodes
            rw [fill_recolor]
            exact nodes_cons.nodup_iff.mp hnd
          have hgrown : Grown ({f with red := pick f.dir false true}.fill t) (some elm) (k+1) :=
            ⟨hrank,.inr ⟨f.key,_,_,f.dir,elm,rfl,pick_self,pick_flip,by rw [pick_self,ht],rfl⟩⟩
          obtain ⟨m',hm',hkeeps⟩ := ih hnew hndnew rfl hgrown hfits (Nat.lt_of_succ_lt_succ hn)
          rw [← plug_cons,toList_plug fill_recolor] at hkeeps
          exact ⟨m',hm',hkeeps⟩

/-- RB_INSERT_FINISH puts a leaf into the hole. -/
theorem insertFinish_spec (h : Holds m .nil ctx) (hnd : (keys ctx).Nodup) (helm : elm∉keys ctx) (hf : Fits ctx 0)
    (hn : ctx.length≤n) : ∃ m',insertFinish n m (slot ctx) elm=some m' ∧ Keeps m' (plug (leaf elm) ctx).toList := by
  unfold insertFinish
  simp only [slot_fst]
  generalize hm₁ : ((m.setUp elm ⟨top ctx,fun _ => false⟩).setLink .right elm none).setLink .left elm none=m₁
  have hup₁ : m₁.up elm=⟨top ctx,fun _ => false⟩ := by rw [← hm₁,setLink_up,setLink_up,setUp_self]
  have hlink₁ : ∀ d,m₁.link d elm=none := by
    rw [← hm₁]
    refine (forall_dir .left).mpr ⟨setLink_self,setLink_flip.trans setLink_self⟩
  have hsame : ∀ z,z≠elm → m₁.up z=m.up z ∧ ∀ e,m₁.link e z=m.link e z := by
    intro z hz
    rw [← hm₁]
    exact ⟨setUp_ne hz,fun e => (setLink_ne hz).trans (setLink_ne hz)⟩
  have hctx : RepCtx (m₁.store (slot ctx) (some elm)) ctx (some elm) :=
    repCtx_store h.2 hnd (fun z hz => hsame z fun heq => helm (heq ▸ hz)) (by rw [← hm₁]; rfl)
  have hleaf : Rep (m₁.store (slot ctx) (some elm)) (leaf elm) (top ctx) := by
    refine ⟨(congrFun store_up elm).trans hup₁,fun d => ⟨?_,trivial⟩⟩
    exact (store_link fun htop => helm (top_mem htop)).trans (hlink₁ d)
  have hnew : Holds (m₁.store (slot ctx) (some elm)) (leaf elm) ctx := ⟨hleaf,hctx⟩
  cases ctx with
  | nil => exact ⟨_,rfl,keeps_plug hnew ranked_leaf trivial rfl⟩
  | cons f ctx =>
    refine insertColor_spec hnew ?_ rfl ⟨ranked_leaf,.inl rfl⟩ hf hn
    exact List.nodup_cons.mpr ⟨helm,hnd⟩

/-! ### The place of a new node -/

/-- No element in the wrong order with respect to what is looked for. -/
def Cut (c : κ → ℤ) (xs : List κ) : Prop := xs.Pairwise fun y z => c y≤0 → c z<0

section Cut
variable {cmp : κ → κ → ℤ} {xs ys : List κ}

/-- What the comparison with the middle says of the two sides. -/
theorem cut_sides (h : Cut (cmp elm) (xs++x::ys)) :
    (cmp elm x≤0 → ∀ y∈ys,cmp elm y<0) ∧ (0≤cmp elm x → ∀ y∈xs,0<cmp elm y) := by
  obtain ⟨-,hys,hxs⟩ := List.pairwise_append.mp h
  refine ⟨fun hle y hy => (List.pairwise_cons.mp hys).1 y hy hle,fun hge y hy => ?_⟩
  exact lt_of_not_ge fun hle => (hxs y hy x List.mem_cons_self hle).not_ge hge

theorem cut_left (h : Cut (cmp elm) (xs++ys)) : Cut (cmp elm) xs := (List.pairwise_append.mp h).1

theorem cut_right (h : Cut (cmp elm) (xs++x::ys)) : Cut (cmp elm) ys :=
  (List.pairwise_cons.mp (List.pairwise_append.mp h).2.1).2

end Cut

theorem orderedInsert_left {r : κ → κ → Prop} [DecidableRel r] {xs ys : List κ} (h : r elm x) :
    (xs++x::ys).orderedInsert r elm=xs.orderedInsert r elm++x::ys := by
  induction xs with
  | nil => exact if_pos h
  | cons y xs ih =>
    rw [List.cons_append,List.orderedInsert_cons,List.orderedInsert_cons,ih]
    split <;> rfl

theorem orderedInsert_right {r : κ → κ → Prop} [DecidableRel r] {xs ys : List κ} (h : ∀ y∈xs,¬r elm y) :
    (xs++ys).orderedInsert r elm=xs++ys.orderedInsert r elm := by
  induction xs with
  | nil => rfl
  | cons y xs ih =>
    rw [List.cons_append,List.orderedInsert_cons,if_neg (h y List.mem_cons_self),
      ih fun z hz => h z (List.mem_cons_of_mem y hz)]
    rfl

/-- What the loop of RB_INSERT finds below the hole: an equal element, or the place. -/
def Searched (cmp : κ → κ → ℤ) (elm : κ) (t : Bintree κ) (ctx : List (Frame κ)) (res : Option (κ ⊕ Slot κ)) : Prop :=
  (∃ y∈t.toList,cmp elm y=0 ∧ res=some (.inl y)) ∨
    (∀ y∈t.toList,cmp elm y≠0) ∧ ∃ path,res=some (.inr (slot (path++ctx))) ∧ plug .nil path=t ∧
      (plug (leaf elm) path).toList=t.toList.orderedInsert (fun a b => cmp a b≤0) elm ∧ path.length≤t.depth

section Search
variable {cmp : κ → κ → ℤ} {sub : Dir → Bintree κ} {res : Option (κ ⊕ Slot κ)} {xs : List κ}

/-- One step down, to the subtree that is the only place for the element. -/
theorem Searched.up (h : Searched cmp elm (sub d) (⟨d,x,red,sub d.flip⟩::ctx) res)
    (hne : ∀ y,y=x ∨ y∈(sub d.flip).toList → cmp elm y≠0)
    (hins : around d ((sub d).toList.orderedInsert (fun a b => cmp a b≤0) elm) x (sub d.flip).toList=
      (Bintree.node x red sub).toList.orderedInsert (fun a b => cmp a b≤0) elm) :
    Searched cmp elm (.node x red sub) ctx res := by
  rcases h with ⟨y,hy,hzero,hfound⟩ | ⟨hned,path,hslot,hplug,hlist,hlen⟩
  · exact .inl ⟨y,(mem_node d).mpr (.inr (.inl hy)),hzero,hfound⟩
  · refine .inr ⟨fun y hy => ?_,path++[⟨d,x,red,sub d.flip⟩],?_,?_,?_,?_⟩
    · rcases (mem_node d).mp hy with hx | hd | hf
      · exact hne y (.inl hx)
      · exact hned y hd
      · exact hne y (.inr hf)
    · rw [List.append_assoc]
      exact hslot
    · rw [plug_append,hplug,plug_cons,plug_nil,Frame.fill,pick_eta]
    · rw [plug_append,plug_cons,plug_nil,toList_fill,hlist]
      exact hins
    · rw [List.length_append,List.length_singleton]
      exact Nat.lt_of_le_of_lt hlen (depth_sub d)

theorem insertSlot_spec (h : Holds m t ctx) (hcut : Cut (cmp elm) t.toList) (hn : t.depth<n) :
    Searched cmp elm t ctx (insertSlot cmp m elm n (slot ctx)) := by
  induction t generalizing ctx n with
  | nil =>
    obtain ⟨n,rfl⟩ := Nat.exists_eq_succ_of_ne_zero (Nat.ne_of_gt hn)
    have hload : m.load (slot ctx)=none := load_slot h.2
    refine .inr ⟨fun y hy => absurd hy List.not_mem_nil,[],?_,rfl,rfl,Nat.le_refl 0⟩
    simp only [insertSlot,hload]
    rfl
  | node x red sub ih =>
    obtain ⟨n,rfl⟩ := Nat.exists_eq_succ_of_ne_zero (Nat.ne_of_gt (Nat.zero_lt_of_lt hn))
    have hload : m.load (slot ctx)=some x := load_slot h.2
    have hnode : ∀ d,Holds m (sub d) (⟨d,x,red,sub d.flip⟩::ctx) := by
      intro d
      refine holds_fill.mp ?_
      rw [Frame.fill,pick_eta]
      exact h
    have hdepth : ∀ d,(sub d).depth<n := fun d => Nat.lt_of_lt_of_le (depth_sub d) (Nat.le_of_lt_succ hn)
    obtain ⟨hright,hleft⟩ := cut_sides hcut
    simp only [insertSlot,hload]
    rcases Int.lt_trichotomy (cmp elm x) 0 with hlt | heq | hgt
    · rw [if_pos hlt]
      refine (ih .left (hnode .left) (cut_left hcut) (hdepth .left)).up (fun y hy => ?_) ?_
      · rcases hy with rfl | hy
        · exact hlt.ne
        · exact (hright hlt.le y hy).ne
      · exact (orderedInsert_left (r := fun a b => cmp a b≤0) hlt.le).symm
    · refine .inl ⟨x,root_mem rfl,heq,?_⟩
      simp only [heq,lt_irrefl,if_false]
    · rw [if_neg hgt.not_gt,if_pos hgt]
      have hL := hleft hgt.le
      refine (ih .right (hnode .right) (cut_right hcut) (hdepth .right)).up (fun y hy => ?_) ?_
      · rcases hy with rfl | hy
        · exact hgt.ne'
        · exact (hL y hy).ne'
      · refine Eq.trans ?_ (orderedInsert_right (r := fun a b => cmp a b≤0) fun y hy => (hL y hy).not_ge).symm
        rw [List.orderedInsert_cons,if_neg hgt.not_ge]
        rfl

theorem rbInsert_spec (h : Keeps m xs) (hnd : xs.Nodup) (helm : elm∉xs) (hcut : Cut (cmp elm) xs) (hn : Enough n xs) :
    (∃ y∈xs,cmp elm y=0 ∧ rbInsert n cmp m elm=some (m,some y)) ∨
      (∀ y∈xs,cmp elm y≠0) ∧ ∃ m',rbInsert n cmp m elm=some (m',none) ∧
        Keeps m' (xs.orderedInsert (fun a b => cmp a b≤0) elm) := by
  obtain ⟨t,r,ht,rfl,hr⟩ := h
  have hdepth := depth_lt hr hn
  have hsearch : Searched cmp elm t [] (insertSlot cmp m elm n none) := insertSlot_spec ht hcut hdepth
  unfold rbInsert
  rcases hsearch with ⟨y,hy,hzero,hfound⟩ | ⟨hne,path,hslot,rfl,hlist,hlen⟩
  · refine .inl ⟨y,hy,hzero,?_⟩
    rw [hfound]
    rfl
  · obtain ⟨k,hk,hfits⟩ := plug_ranked hr
    rw [ranked_nil.mp hk] at hfits
    have hperm : (plug .nil path).toList.Perm (keys path) := perm_plug
    rw [hperm.nodup_iff] at hnd
    rw [hperm.mem_iff] at helm
    rw [List.append_nil] at hslot
    obtain ⟨m',hm',hkeeps⟩ := insertFinish_spec (n := n) ((List.append_nil path) ▸ holds_plug.mp ht) hnd helm hfits (by omega)
    refine .inr ⟨hne,m',?_,hlist ▸ hkeeps⟩
    rw [hslot]
    exact congrArg (Option.map _) hm'

end Search

end Dpapp.Dprbt
