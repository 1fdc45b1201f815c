import Dpapp.Dprbt
import Mathlib.Data.List.Induction

/-! # Removal from a rank-balanced tree (dprbt.h) -/

set_option linter.unusedSectionVars false

namespace Dpapp.Dprbt
open Dpapp.RankTree

variable {κ : Type*} [DecidableEq κ] {m m₁ : Mem κ} {t u A B D : Bintree κ} {f : Frame κ} {ctx path : List (Frame κ)}
  {p q x out inn : κ} {d : Dir} {k n : ℕ} {red : Dir → Bool} {a b : Bool} {sub : Dir → Bintree κ} {xs : List κ} {r : ℕ}

/-! ### Rotations -/

theorem removeRotate_single (rp rq : Dir → Bool) {rp₀ rq₀ : Dir → Bool}
    (h : Holds m (.node p rp₀ (pick d (.node q rq₀ (pick d A B)) D)) ctx)
    (hnd : (nodes (.node p rp₀ (pick d (.node q rq₀ (pick d A B)) D)) ctx).Nodup) (hlink : m₁.link=m.link)
    (hroot : m₁.root=m.root) (hup : ∀ z,z≠p → z≠q → m₁.up z=m.up z) (hp : (m₁.up p).red=rp) (hq : (m₁.up q).red=rq)
    (hrank : Ranked (.node q rq (pick d A (.node p rp (pick d B D)))) n) (hf : Fits ctx n) :
    Keeps (swapChild ((rotate m₁ p q d.flip).setParent q (top ctx)) (top ctx) p (some q))
      (plug (.node p rp₀ (pick d (.node q rq₀ (pick d A B)) D)) ctx).toList := by
  obtain ⟨-,⟨-,hrep⟩,-,-⟩ := (rep_pick d).mp h.1
  obtain ⟨-,-,hqB,-⟩ := (rep_pick d).mp hrep
  have hpB : m₁.link d.flip q≠some p := by
    rw [hlink,hqB]
    intro hroot
    have hpn := ((nodup_pick d).mp (nodup_nodes.mp hnd).1).1
    exact hpn ((mem_pick d).mpr (.inr (.inr (root_mem hroot))))
  rw [setParent_rotate m₁ p q d.flip hpB,hq]
  refine keeps_plug (holds_single m₁ rp rq h hnd hlink hroot hup hp) hrank hf ?_
  rw [toList_pick,toList_pick,toList_pick,toList_pick,around_rotate]

theorem removeRotate_spec (h : Holds m (.node p (pick d false true) (pick d (.node q (pick d a b) (pick d A B)) D)) ctx)
    (hnd : (nodes (.node p (pick d false true) (pick d (.node q (pick d a b) (pick d A B)) D)) ctx).Nodup)
    (hD : Ranked D k) (hq : Ranked (.node q (pick d a b) (pick d A B)) (k+2)) (hf : Fits ctx (k+3)) (hab : a=false ∨ b=false) :
    ∃ m',removeRotate m p q d.flip (top ctx)=some m' ∧
      Keeps m' (plug (.node p (pick d false true) (pick d (.node q (pick d a b) (pick d A B)) D)) ctx).toList := by
  obtain ⟨hpup,⟨hpq,hrepq⟩,-,-⟩ := (rep_pick d).mp h.1
  obtain ⟨hqup,⟨-,-⟩,hqB,hrepB⟩ := (rep_pick d).mp hrepq
  obtain ⟨⟨i,hi,hA⟩,⟨j,hj,hB⟩,-⟩ := (ranked_node d).mp hq
  rw [pick_self] at hi hA
  rw [pick_flip] at hj hB
  have hne : p≠q := fun heq => ((nodup_pick d).mp (nodup_nodes.mp hnd).1).1 ((mem_pick d).mpr (.inl heq))
  unfold removeRotate
  simp only [Dir.flip_flip,hqup,toggleBoth_pick,pick_self,pick_flip,Bool.not_eq_false']
  cases a with
  | false =>
    simp only [Bool.false_eq_true,if_false]
    simp only [edge] at hi
    obtain rfl : i=k+1 := by omega
    cases b with
    | true =>
      simp only [edge] at hj
      obtain rfl : j=k := by omega
      simp only [if_true,Option.map_some]
      have hqset : ((m.setUp p ((m.up p).toggle d.flip)).up q)=⟨some p,pick d false true⟩ := (setUp_ne hne.symm).trans hqup
      rw [hqset,toggle_pick,hpup,toggle_pick_flip]
      refine ⟨_,rfl,removeRotate_single (pick d false false) (pick d true true) h hnd rfl rfl (fun z hzp hzq => ?_) ?_ ?_ ?_ hf⟩
      · exact (setUp_ne hzq).trans (setUp_ne hzp)
      · exact congrArg Up.red ((setUp_ne hne).trans setUp_self)
      · exact congrArg Up.red setUp_self
      · exact ranked_bits hA (ranked_bits hB hD (n := j+1) rfl rfl (by omega)) rfl rfl (by omega)
    | false =>
      simp only [edge] at hj
      obtain rfl : j=k+1 := by omega
      simp only [Bool.false_eq_true,if_false,Option.map_some,toggle_pick]
      refine ⟨_,rfl,removeRotate_single (pick d false true) (pick d true false) h hnd rfl rfl (fun z _ hzq => setUp_ne hzq)
        ?_ ?_ ?_ hf⟩
      · exact congrArg Up.red ((setUp_ne hne).trans hpup)
      · exact congrArg Up.red setUp_self
      · exact ranked_bits hA (ranked_bits hB hD (n := k+2) rfl rfl (by omega)) rfl rfl (by omega)
  | true =>
    obtain rfl := hab.resolve_left (Ne.symm Bool.false_ne_true)
    simp only [if_true]
    simp only [edge] at hi hj
    obtain rfl : i=k := by omega
    obtain rfl : j=i+1 := by omega
    obtain ⟨c,rc,subc,rfl⟩ := ranked_succ hB
    obtain ⟨⟨j,hj,hC⟩,⟨j',hj',hC'⟩,-⟩ := (ranked_node d).mp hB
    rw [← pick_eta d subc] at h hnd hrepB
    obtain ⟨hcup,⟨hcC,-⟩,hcC',-⟩ := (rep_pick d).mp hrepB
    obtain ⟨hpn,-,hnq,-,-⟩ := (nodup_pick d).mp (nodup_nodes.mp hnd).1
    obtain ⟨-,hqn,-,hnc,-⟩ := (nodup_pick d).mp hnq
    obtain ⟨hcn,hcn',-,-,-⟩ := (nodup_pick d).mp hnc
    rw [mem_pick d,mem_pick d,not_or,not_or,not_or,not_or] at hpn
    rw [mem_pick d,not_or,not_or] at hqn
    obtain ⟨-,-,hpc,hpC,hpC'⟩ := hpn
    obtain ⟨hqc,hqC,hqC'⟩ := hqn
    have hclink : ∀ z,z∉(subc d).toList → m.link d c≠some z := by
      intro z hz hroot
      rw [hcC] at hroot
      exact hz (root_mem hroot)
    rw [hqB]
    simp only [Bintree.root,Option.map_some]
    -- the bits after the first rotation
    generalize hm₁ : rotate m q c d=m₁
    have hc₁ : (m₁.up c).red=rc := by rw [← hm₁,rotate_red m q c d (hclink q hqC),hcup]
    have hq₁ : m₁.up q=⟨some c,pick d true false⟩ := by
      rw [← hm₁,rotate_up m q c d (hclink q hqC),if_pos rfl,hqup]
    have hp₁ : m₁.up p=⟨top ctx,pick d false true⟩ := by
      rw [← hm₁,rotate_up m q c d (hclink q hqC),if_neg hne,if_neg (hclink p hpC),hpup]
    have hpbits : (if rc d.flip=true then (m₁.up p).toggleBoth else (m₁.up p).toggle d.flip)=
        ⟨top ctx,pick d (rc d.flip) false⟩ := by
      rw [hp₁,toggleBoth_pick,toggle_pick_flip]
      cases rc d.flip <;> rfl
    have hqbits : ∀ m' : Mem κ,m'.up q=⟨some c,pick d true false⟩ →
        (if rc d=true then (m'.up q).toggleBoth else (m'.up q).toggle d)=⟨some c,pick d false (rc d)⟩ := by
      intro m' h'
      rw [h',toggleBoth_pick,toggle_pick]
      cases rc d <;> rfl
    rw [hc₁,hpbits,hqbits _ ((setUp_ne (Ne.symm hne)).trans hq₁)]
    refine ⟨_,rfl,?_⟩
    -- and after all changes to them
    generalize hm₂ : ((m₁.setUp p ⟨top ctx,pick d (rc d.flip) false⟩).setUp q ⟨some c,pick d false (rc d)⟩).setUp c _=m₂
    have hlink₂ : m₂.link=(rotate m q c d).link := by rw [← hm₂,hm₁,setUp_link,setUp_link,setUp_link]
    have hroot₂ : m₂.root=(rotate m q c d).root := by rw [← hm₂,hm₁,setUp_root,setUp_root,setUp_root]
    have hup₂ : ∀ z,z≠p → z≠q → z≠c → m₂.up z=(rotate m q c d).up z := by
      intro z hzp hzq hzc
      rw [← hm₂,hm₁,setUp_ne hzc,setUp_ne hzq,setUp_ne hzp]
    have hq₂ : m₂.up q=⟨some c,pick d false (rc d)⟩ := by rw [← hm₂,setUp_ne hqc,setUp_self]
    have hp₂ : (m₂.up p).red=pick d (rc d.flip) false := by rw [← hm₂,setUp_ne hpc,setUp_ne hne,setUp_self]
    have hc₂ : (m₂.up c).red=fun _ => true := by rw [← hm₂,setUp_self]
    have hpc₂ : m₂.link d.flip c≠some p := by
      rw [hlink₂,rotate_link,if_neg fun h => d.flip_ne h.1,if_neg fun h => hqc h.2.symm,hcC']
      exact fun hroot => hpC' (root_mem hroot)
    rw [setParent_rotate m₂ p c d.flip hpc₂,hc₂]
    refine keeps_plug (holds_double (fun _ => true) h hnd rfl rfl (fun _ _ => rfl) hlink₂ hroot₂ hup₂ hq₂ hp₂) ?_ hf ?_
    · have hleft : Ranked (.node q (pick d false (rc d)) (pick d A (subc d))) (i+1) := ranked_bits hA hC rfl hj (by omega)
      have hright : Ranked (.node p (pick d (rc d.flip) false) (pick d (subc d.flip) D)) (i+1) :=
        ranked_bits hC' hD hj' rfl (by omega)
      exact ranked_pick d hleft hright rfl rfl (by omega)
    · rw [toList_pick,toList_pick,toList_pick,toList_pick,toList_pick,toList_node d]
      simp only [around_rotate]

/-! ### The way up -/

/-- With this fuel the loop mends the tree if the subtree at the hole has shrunk. -/
def Mends (κ : Type*) [DecidableEq κ] (n : ℕ) : Prop :=
  ∀ (m : Mem κ) (t : Bintree κ) (f : Frame κ) (ctx : List (Frame κ)) (k : ℕ),Holds m t (f::ctx) → (nodes t (f::ctx)).Nodup →
    Ranked t k → Fits (f::ctx) (k+1) → t.root≠f.sib.root → ctx.length<n →
      ∃ m',removeLoop n m f.key t.root=some m' ∧ Keeps m' (plug (f.fill t) ctx).toList

/-- The tree at the hole has shrunk; it may be the whole tree. -/
theorem Mends.retry (hmends : Mends κ n) (h : Holds m t ctx) (hnd : (nodes t ctx).Nodup) (hroot : t.root=some x)
    (ht : Ranked t k) (hf : Fits ctx (k+1)) (hn : ctx.length≤n) :
    ∃ m',(match top ctx with
      | none => some m
      | some p => removeLoop n m p (some x))=some m' ∧ Keeps m' (plug t ctx).toList := by
  cases ctx with
  | nil => exact ⟨m,rfl,keeps_plug h ht trivial rfl⟩
  | cons g ctx =>
    rw [← hroot]
    refine hmends m t g ctx k h hnd ht hf (fun heq => ?_) hn
    rw [hroot] at heq
    exact (nodup_nodes.mp hnd).2.2 (root_mem hroot) (List.mem_cons_of_mem _ (List.mem_append_left _ (root_mem heq.symm)))

theorem removeLoop_spec (n : ℕ) : Mends κ n := by
  induction n with
  | zero => exact fun _ _ _ _ _ _ _ _ _ _ hn => absurd hn (Nat.not_lt_zero _)
  | succ n ih =>
    intro m t f ctx k h hnd ht hf hne hn
    have hup := h.2.1
    have hside : (if m.link .right f.key=t.root then Dir.right else .left)=f.dir := by
      refine side_eq h.2.2.1 ?_
      rw [h.2.2.2.1]
      exact Ne.symm hne
    have hbits : f.red=pick f.dir (f.red f.dir) (f.red f.dir.flip) := (pick_eta f.dir f.red).symm
    obtain ⟨⟨j,hj,hsib⟩,-,hfits⟩ := id hf
    -- the tree with its parent for a root has shrunk
    have retry : ∀ m' t',Holds m' t' ctx → t'.root=some f.key → t'.toList=(f.fill t).toList → Ranked t' (k+2) → Fits ctx (k+3) →
        ∃ m'',(match top ctx with
          | none => some m'
          | some p => removeLoop n m' p (some f.key))=some m'' ∧ Keeps m'' (plug (f.fill t) ctx).toList := by
      intro m' t' h' hroot hlist hrank hfits
      rw [← toList_plug hlist]
      refine ih.retry h' ?_ hroot hrank hfits (Nat.le_of_lt_succ hn)
      unfold nodes
      rw [hlist]
      exact nodes_cons.nodup_iff.mp hnd
    simp only [removeLoop,hside,hup]
    cases hown : f.red f.dir with
    | false =>
      -- the edge to the subtree becomes 2 long
      rw [hown] at hbits hj hfits
      rw [hbits,toggle_pick,Bool.not_false]
      simp only [pick_self,if_true]
      refine ⟨_,rfl,keeps_plug (holds_fill.mpr (holds_recolor _ h hnd)) (ranked_recolor ht hsib rfl hj ?_) hfits fill_recolor⟩
      intro hk hjz
      rw [hk] at ht
      rw [hjz] at hsib
      exact absurd (by rw [ranked_zero ht,ranked_zero hsib]) hne
    | true =>
      rw [hown] at hbits hj hfits
      rw [hbits,toggle_pick,Bool.not_true]
      simp only [pick_self,Bool.false_eq_true,if_false,pick_or,toggleBoth_pick,Bool.not_false]
      cases hother : f.red f.dir.flip with
      | true =>
        rw [hother] at hbits hj
        simp only [edge] at hj
        obtain rfl : k+1=j := by omega
        rw [if_pos (.inr rfl)]
        have hnew := holds_fill.mpr (holds_recolor (pick f.dir true false) h hnd)
        exact retry _ _ hnew rfl fill_recolor (ranked_recolor ht hsib rfl rfl (by omega)) hfits
      | false =>
        rw [hother] at hbits hj
        simp only [edge] at hj
        obtain rfl : k+2=j := by omega
        obtain ⟨sib,reds,subs,hs⟩ := ranked_succ hsib
        have hlink : m.link f.dir.flip f.key=some sib := by
          rw [h.2.2.2.1,hs]
          rfl
        rw [if_neg (by simp),hlink]
        simp only
        have hsibup : m.up sib=⟨some f.key,reds⟩ := (hs ▸ h.2.2.2.2.1 : Rep m (.node sib reds subs) (some f.key)).1
        have hfill : Holds m (.node sib reds subs) ({f with dir := f.dir.flip, sib := t}::ctx) := by
          refine holds_fill.mp ?_
          rw [fill_flip,← hs]
          exact holds_fill.mpr h
        have hndfill : (nodes (.node sib reds subs) ({f with dir := f.dir.flip, sib := t}::ctx)).Nodup := by
          refine nodes_cons.nodup_iff.mpr ?_
          rw [fill_flip,← hs]
          exact nodes_cons.nodup_iff.mp hnd
        obtain ⟨a,b,rfl⟩ : ∃ a b,reds=pick f.dir.flip a b := ⟨_,_,(pick_eta f.dir.flip reds).symm⟩
        rw [hsibup,toggleBoth_pick]
        simp only [pick_and]
        by_cases hboth : a=true ∧ b=true
        · -- the subtrees of both become shorter
          obtain ⟨rfl,rfl⟩ := hboth
          rw [if_pos ⟨rfl,rfl⟩]
          have hnew := holds_fill.mpr (holds_setUp (pick f.dir.flip false false) hfill hndfill)
          rw [fill_flip] at hnew
          refine retry _ _ hnew rfl ?_ (ranked_pick f.dir ht (ranked_shorter (hs ▸ hsib)) ?_ ?_ (by omega)) hfits
          · rw [toList_fill,toList_fill,hs]
            rfl
          · rw [hown]
            rfl
          · rw [hother]
            rfl
        · have hone : a=false ∨ b=false := by
            rw [← Bool.not_eq_true,← Bool.not_eq_true]
            exact not_and_or.mp hboth
          rw [if_neg (by simpa using hboth)]
          have htree : f.fill t=.node f.key (pick f.dir.flip false true) (pick f.dir.flip
              (.node sib (pick f.dir.flip a b) (pick f.dir.flip (subs f.dir.flip) (subs f.dir.flip.flip))) t) := by
            rw [pick_swap,← hbits,pick_eta,← hs,pick_swap]
            rfl
          have hall := holds_fill.mpr h
          have hndall := nodes_cons.nodup_iff.mp hnd
          rw [htree] at hall hndall ⊢
          rw [hs,← pick_eta f.dir.flip subs] at hsib
          have hspec := removeRotate_spec hall hndall ht hsib hfits hone
          rw [Dir.flip_flip] at hspec ⊢
          exact hspec

theorem removeColor_spec (h : Holds m t (f::ctx)) (hnd : (nodes t (f::ctx)).Nodup) (ht : Ranked t k)
    (hf : Fits (f::ctx) (k+1)) (hn : ctx.length<n) :
    ∃ m',removeColor n m f.key t.root=some m' ∧ Keeps m' (plug (f.fill t) ctx).toList := by
  have hcond : (m.link .right f.key=t.root ∧ m.link .left f.key=t.root) ↔ t.root=f.sib.root := by
    have hall : (∀ e,m.link e f.key=t.root) ↔ m.link f.dir f.key=t.root ∧ m.link f.dir.flip f.key=t.root := forall_dir f.dir
    rw [h.2.2.1,h.2.2.2.1] at hall
    exact (forall_dir .right).symm.trans (hall.trans ⟨fun h => h.2.symm,fun h => ⟨rfl,h.symm⟩⟩)
  unfold removeColor
  by_cases hroot : t.root=f.sib.root
  · rw [if_pos (hcond.mpr hroot)]
    -- nothing is left below the parent, which becomes a leaf
    obtain ⟨rfl,hs⟩ : t=.nil ∧ f.sib=.nil := by
      cases t with
      | nil => exact ⟨rfl,root_eq_none.mp hroot.symm⟩
      | node x red sub =>
        exact absurd (List.mem_cons_of_mem f.key (List.mem_append_left (keys ctx) (root_mem hroot.symm)))
          ((nodup_nodes.mp hnd).2.2 (root_mem rfl))
    have hleaf : ({f with red := fun _ => false} : Frame κ).fill .nil=leaf f.key := by
      rw [Frame.fill,hs,pick_const]
      rfl
    have hlist : (leaf f.key).toList=(f.fill .nil).toList := by rw [← hleaf,fill_recolor]
    have hnew := holds_fill.mpr (holds_recolor (fun _ => false) h hnd)
    rw [hleaf] at hnew
    obtain ⟨⟨j,hj,hsib⟩,-,hfits⟩ := hf
    rw [hs,ranked_nil] at hsib
    rw [ranked_nil] at ht
    have htwo : k+1+edge (f.red f.dir)=2 := by
      rcases edge_cases (f.red f.dir) with ⟨-,he⟩ | ⟨-,he⟩ <;>
        rcases edge_cases (f.red f.dir.flip) with ⟨-,he'⟩ | ⟨-,he'⟩ <;> omega
    rw [htwo] at hfits
    rw [← toList_plug hlist,h.2.1]
    have hnd' : (nodes (leaf f.key) ctx).Nodup := by
      unfold nodes
      rw [hlist]
      exact nodes_cons.nodup_iff.mp hnd
    have hret := (removeLoop_spec n).retry hnew hnd' rfl ranked_leaf hfits hn.le
    simp only [Up.clear,setUp_self]
    exact hret
  · rw [if_neg fun hlr => hroot (hcond.mp hlr)]
    exact removeLoop_spec n m t f ctx k h hnd ht hf hroot hn

/-! ### The node that goes -/

section Unlink
variable {m' : Mem κ} {child par : Option κ} {z : κ}

@[simp] theorem adopt_link : (m.adopt child par).link=m.link := by cases child <;> rfl
@[simp] theorem adopt_root : (m.adopt child par).root=m.root := by cases child <;> rfl

theorem adopt_up : (m.adopt child par).up z=if child=some z then ⟨par,fun _ => false⟩ else m.up z := by
  cases child with
  | none => rfl
  | some c =>
    show (m.setUp c _).up z=_
    rw [setUp_up]
    by_cases hz : z=c
    · rw [if_pos hz,if_pos (congrArg some hz.symm)]
    · rw [if_neg hz,if_neg fun h => hz (Option.some.inj h).symm]

theorem store_adopt {sl : Slot κ} {y : Option κ} : ((m.adopt child par).store sl y).link=(m.store sl y).link := by
  cases sl with
  | none => exact adopt_link
  | some s =>
    show Function.update (m.adopt child par).link _ _=_
    rw [adopt_link]
    rfl

theorem swapChild_adopt {opar inn : Option κ} :
    (swapChild m opar out inn).adopt child par=swapChild (m.adopt child par) opar out inn := by
  cases child with
  | none => rfl
  | some c =>
    cases opar with
    | none => rfl
    | some p =>
      by_cases hl : m.link .left p=some out
      · exact (congrArg (Mem.adopt · (some c) par) (if_pos hl)).trans (Eq.symm (if_pos hl))
      · exact (congrArg (Mem.adopt · (some c) par) (if_neg hl)).trans (Eq.symm (if_neg hl))

theorem removeFinish_spec (h : Holds m u ctx) (hnd : (nodes u ctx).Nodup) (hu : Ranked u k) (hf : Fits ctx (k+1))
    (hn : ctx.length≤n) : ∃ m',(match top ctx with
      | none => some m
      | some p => removeColor n m p u.root)=some m' ∧ Keeps m' (plug u ctx).toList := by
  cases ctx with
  | nil => exact ⟨m,rfl,keeps_plug h hu trivial rfl⟩
  | cons f ctx => exact removeColor_spec h hnd hu hf hn

/-- The only child takes the node's place. -/
theorem holds_unlink (h : Holds m (.node x red (pick d .nil u)) ctx) (hnd : (nodes (.node x red (pick d .nil u)) ctx).Nodup)
    (hu : u=.nil ∨ ∃ y,u=leaf y) : Holds ((m.adopt u.root (top ctx)).store (slot ctx) u.root) u ctx := by
  obtain ⟨hrep,hctx⟩ := h
  obtain ⟨-,-,-,hrepu⟩ := (rep_pick d).mp hrep
  obtain ⟨-,hndK,hdis⟩ := nodup_nodes.mp hnd
  have hmem : ∀ z,u.root=some z → z∈(Bintree.node x red (pick d .nil u)).toList :=
    fun z hz => (mem_pick d).mpr (.inr (.inr (root_mem hz)))
  refine ⟨?_,repCtx_store hctx hndK (fun z hz => ⟨?_,fun e => by rw [adopt_link]⟩) adopt_root⟩
  · rcases hu with rfl | ⟨y,rfl⟩
    · trivial
    · refine ⟨?_,fun e => ⟨?_,trivial⟩⟩
      · rw [store_up,adopt_up]
        exact if_pos rfl
      · rw [store_link fun htop => hdis (hmem y rfl) (top_mem htop),adopt_link]
        exact (hrepu.2 e).1
  · rw [adopt_up,if_neg fun heq => hdis (hmem z heq) hz]

/-- Another node takes the node's place. -/
theorem holds_replace (h : Holds m (.node out red sub) ctx) (hnd : (nodes (.node out red sub) ctx).Nodup)
    (hinn : inn∉nodes (.node out red sub) ctx) (hup : m'.up inn=⟨top ctx,red⟩) (hlink : ∀ d,m'.link d inn=(sub d).root)
    (hlinks : ∀ z∈nodes (.node out red sub) ctx,z≠out → ∀ e,m'.link e z=m.link e z)
    (hups : ∀ z∈nodes (.node out red sub) ctx,z≠out → (∀ d,(sub d).root≠some z) → m'.up z=m.up z)
    (hroots : ∀ d z,(sub d).root=some z → m'.up z={m.up z with ptr := some inn}) (hroot : m'.root=m.root) :
    Holds (swapChild m' (top ctx) out (some inn)) (.node inn red sub) ctx := by
  obtain ⟨⟨-,hsub⟩,hctx⟩ := h
  obtain ⟨hndT,hndK,hdis⟩ := nodup_nodes.mp hnd
  have hoK : out∉keys ctx := fun ho => hdis (root_mem rfl) ho
  have hiK : inn∉keys ctx := fun hi => hinn (List.mem_append_right _ hi)
  have hkeys : ∀ z∈keys ctx,m'.up z=m.up z ∧ ∀ e,m'.link e z=m.link e z := by
    intro z hz
    have hzn : z∈nodes (.node out red sub) ctx := List.mem_append_right _ hz
    have hzo : z≠out := fun heq => hoK (heq ▸ hz)
    refine ⟨hups z hzn hzo fun d hd => ?_,hlinks z hzn hzo⟩
    exact hdis ((mem_node d).mpr (.inr (.inl (root_mem hd)))) hz
  rw [swapChild_eq hctx hoK fun z hz => (hkeys z hz).2]
  refine ⟨⟨by rw [store_up,hup],fun d => ⟨?_,?_⟩⟩,repCtx_store hctx hndK hkeys hroot⟩
  · rw [store_link fun htop => hiK (top_mem htop),hlink]
  · obtain ⟨hod,-,hndd,-,hdd⟩ := (nodup_node d).mp hndT
    have hmem : ∀ z∈(sub d).toList,z∈(Bintree.node out red sub).toList := fun z hz => (mem_node d).mpr (.inr (.inl hz))
    have hzo : ∀ z∈(sub d).toList,z≠out := fun z hz heq => hod (heq ▸ hz)
    refine (hsub d).2.adopt hndd (fun z hz e => ?_) (fun z hz hzr => ?_) fun z hz => by rw [store_up,hroots d z hz]
    · rw [store_link fun htop => hdis (hmem z hz) (top_mem htop)]
      exact hlinks z (List.mem_append_left _ (hmem z hz)) (hzo z hz) e
    · rw [store_up]
      refine hups z (List.mem_append_left _ (hmem z hz)) (hzo z hz) fun e he => ?_
      rcases d.eq_or_flip e with rfl | rfl
      · exact hzr he
      · exact hdd hz (root_mem he)

theorem descend_spec (h : Holds m (plug (.node x red (pick d .nil u)) path) ctx) (hdir : ∀ f∈path,f.dir=d)
    (hz : (plug (.node x red (pick d .nil u)) path).root=some z) (hn : path.length<n) : descend m d n z=some x := by
  induction path using List.reverseRecOn generalizing ctx z n with
  | nil =>
    obtain ⟨n,rfl⟩ := Nat.exists_eq_succ_of_ne_zero (Nat.ne_of_gt hn)
    cases hz
    have hlink : m.link d x=none := (h.1.2 d).1.trans (congrArg Bintree.root pick_self)
    simp only [descend,hlink]
  | append_singleton path f ih =>
    rw [List.length_append,List.length_singleton] at hn
    obtain ⟨n,rfl⟩ := Nat.exists_eq_succ_of_ne_zero (Nat.ne_of_gt (Nat.zero_lt_of_lt hn))
    rw [plug_append,plug_cons,plug_nil] at h hz
    cases hz
    have hsub := holds_fill.mp h
    have hfd : f.dir=d := hdir f (List.mem_append_right path List.mem_cons_self)
    obtain ⟨y,hy⟩ : ∃ y,(plug (.node x red (pick d .nil u)) path).root=some y := plug_node_root
    have hlink : m.link d f.key=some y := hfd ▸ hsub.2.2.1.trans hy
    simp only [descend,hlink]
    exact ih hsub (fun g hg => hdir g (List.mem_append_left _ hg)) hy (Nat.lt_of_succ_lt_succ hn)

/-- The next node takes the place of a node with both children; `m'` is the memory before RB_SWAP_CHILD. -/
theorem holds_next {redi : Dir → Bool} (h : Holds m (.node inn redi (pick .left .nil u)) (path++⟨.right,out,red,A⟩::ctx))
    (hnd : (nodes (.node inn redi (pick .left .nil u)) (path++⟨.right,out,red,A⟩::ctx)).Nodup)
    (hu : u=.nil ∨ ∃ y,u=leaf y) (hdir : ∀ f∈path,f.dir=.left)
    (hup : ∀ z,m'.up z=if u.root=some z then ⟨top (path++⟨.right,inn,red,A⟩::ctx),fun _ => false⟩
      else if z=inn then ⟨top ctx,red⟩
      else if A.root=some z ∨ (path≠[] ∧ (plug u path).root=some z) then {m.up z with ptr := some inn} else m.up z)
    (hright : m'.link .right inn=(plug u path).root) (hleft : m'.link .left inn=A.root)
    (hlink : ∀ z,z≠inn → z≠out → ∀ e,m'.link e z=(m.store (slot (path++⟨.right,out,red,A⟩::ctx)) u.root).link e z)
    (hroot : m'.root=m.root) :
    Holds (swapChild m' (top ctx) out (some inn)) u (path++⟨.right,inn,red,A⟩::ctx) := by
  have hndi : (inn::nodes u (path++⟨.right,out,red,A⟩::ctx)).Nodup := hnd
  obtain ⟨hinn,hndu⟩ := List.nodup_cons.mp hndi
  have hperm : (nodes u (path++⟨.right,out,red,A⟩::ctx)).Perm (nodes (.node out red (pick .right (plug u path) A)) ctx) :=
    nodes_append.trans nodes_cons
  have hdis := (nodup_nodes.mp hndu).2.2
  have hunlink := holds_fill.mpr (holds_plug.mpr (holds_unlink h hnd hu))
  refine holds_plug.mp (holds_fill.mp (holds_replace hunlink (hperm.nodup_iff.mp hndu) (fun hi => hinn (hperm.mem_iff.mpr hi))
    ?_ ?_ ?_ ?_ ?_ ?_))
  · rw [hup,if_neg fun hr => hinn (List.mem_append_left _ (root_mem hr)),if_pos rfl]
  · exact (forall_dir .right).mpr ⟨hright,hleft⟩
  · intro z hz hzo e
    rw [hlink z (fun heq => hinn (hperm.mem_iff.mpr (heq ▸ hz))) hzo,store_adopt]
  · intro z hz hzo hz'
    have hzp : (plug u path).root≠some z := hz' .right
    have hzA : A.root≠some z := hz' .left
    have hzi : z≠inn := fun heq => hinn (hperm.mem_iff.mpr (heq ▸ hz))
    rw [hup,store_up,adopt_up,if_neg hzi,if_neg (not_or.mpr ⟨hzA,fun hr => hzp hr.2⟩)]
    split
    · rename_i hzu
      cases path with
      | nil => exact absurd hzu hzp
      | cons f path => rfl
    · rfl
  · refine (forall_dir .right).mpr ⟨fun z hz => ?_,fun z hz => ?_⟩
    · replace hz : (plug u path).root=some z := hz
      rw [hup,store_up,adopt_up]
      by_cases hpath : path=[]
      · subst hpath
        rw [plug_nil] at hz
        rw [if_pos hz,if_pos hz]
        rfl
      · have hzk : z∈keys (path++⟨.right,out,red,A⟩::ctx) := by
          rw [keys_append]
          exact List.mem_append_left _ (root_mem_keys hpath hz)
        have hzu : u.root≠some z := fun hr => hdis (root_mem hr) hzk
        have hzi : z≠inn := fun heq => hinn (List.mem_append_right _ (heq ▸ hzk))
        rw [if_neg hzu,if_neg hzi,if_pos (.inr ⟨hpath,hz⟩),if_neg hzu]
    · replace hz : A.root=some z := hz
      have hzk : z∈keys (path++⟨.right,out,red,A⟩::ctx) := by
        rw [keys_append,keys_cons]
        exact List.mem_append_right _ (List.mem_append_left _ (List.mem_cons_of_mem _ (root_mem hz)))
      have hzu : u.root≠some z := fun hr => hdis (root_mem hr) hzk
      have hzi : z≠inn := fun heq => hinn (List.mem_append_right _ (heq ▸ hzk))
      rw [hup,store_up,adopt_up,if_neg hzu,if_neg hzi,if_pos (.inl hz),if_neg hzu]
  · rw [hroot]
    cases path with
    | nil => exact adopt_root.symm
    | cons f path => exact adopt_root.symm

theorem removeTwo_spec {redi : Dir → Bool} (h : Holds m (.node out red sub) ctx) (hnd : (nodes (.node out red sub) ctx).Nodup)
    (hr : Ranked (plug (.node out red sub) ctx) r) (hsub : sub .right=plug (.node inn redi (pick .left .nil u)) path)
    (hdir : ∀ f∈path,f.dir=.left) (hL : sub .left≠.nil) (hn : (plug (.node out red sub) ctx).depth<n) :
    ∃ m',rbRemove n m out=some m' ∧ Keeps m' (plug (.node inn red (pick .right (plug u path) (sub .left))) ctx).toList := by
  have hfill :
      (⟨.right,out,red,sub .left⟩ : Frame κ).fill (plug (.node inn redi (pick .left .nil u)) path)=.node out red sub := by
    rw [Frame.fill,← hsub]
    exact congrArg _ (pick_eta .right sub)
  -- the next node in its own place
  have hC : Holds m (.node inn redi (pick .left .nil u)) (path++⟨.right,out,red,sub .left⟩::ctx) := by
    refine holds_plug.mp (holds_fill.mp ?_)
    rw [hfill]
    exact h
  have hperm : (nodes (.node inn redi (pick .left .nil u)) (path++⟨.right,out,red,sub .left⟩::ctx)).Perm
      (nodes (.node out red sub) ctx) := hfill ▸ nodes_append.trans nodes_cons
  have hndC := hperm.nodup_iff.mpr hnd
  rw [← hfill] at hr
  obtain ⟨k',hk',hfits'⟩ := plug_ranked (by rw [← plug_cons,← plug_append] at hr; exact hr)
  obtain ⟨k,rfl,hu,hcases⟩ := ranked_single hk'
  have hfits := fits_key (x := inn) hfits'
  obtain ⟨l,hl⟩ := Option.ne_none_iff_exists'.mp fun hnil => hL (root_eq_none.mp hnil)
  obtain ⟨y,hy⟩ : ∃ y,(sub .right).root=some y := hsub ▸ plug_node_root
  have hlinkl : m.link .left out=some l := (h.1.2 .left).1.trans hl
  have hlinky : m.link .right out=some y := (h.1.2 .right).1.trans hy
  have hlen : (path++⟨.right,out,red,sub .left⟩::ctx).length<n := by
    have hdepth : _≤(plug (.node inn redi (pick .left .nil u)) (path++⟨.right,out,red,sub .left⟩::ctx)).depth := depth_plug
    rw [plug_append,plug_cons,hfill] at hdepth
    omega
  have hdesc : descend m .left n y=some inn := by
    refine descend_spec (holds_plug.mpr hC) hdir (hsub ▸ hy) ?_
    rw [List.length_append] at hlen
    omega
  have hup : m.up out=⟨top ctx,red⟩ := h.1.1
  -- which nodes are different
  have hndi : (inn::nodes u (path++⟨.right,out,red,sub .left⟩::ctx)).Nodup := hndC
  obtain ⟨hinn,hndu⟩ := List.nodup_cons.mp hndi
  have hkey : ∀ z∈keys (path++⟨.right,out,red,sub .left⟩::ctx),inn≠z := fun z hz heq =>
    hinn (List.mem_append_right _ (heq ▸ hz))
  have hlkeys : l∈keys (path++⟨.right,out,red,sub .left⟩::ctx) := by
    rw [keys_append,keys_cons]
    exact List.mem_append_right _ (List.mem_append_left _ (List.mem_cons_of_mem _ (root_mem hl)))
  have hfin : ∀ m₁,Holds m₁ u (path++⟨.right,inn,red,sub .left⟩::ctx) →
      ∃ m',(match top (path++⟨.right,inn,red,sub .left⟩::ctx) with
        | none => some m₁
        | some p => removeColor n m₁ p u.root)=some m' ∧
          Keeps m' (plug (.node inn red (pick .right (plug u path) (sub .left))) ctx).toList := by
    intro m₁ h₁
    have hnd₁ := (List.nodup_cons.mp (nodes_key.nodup_iff.mp hndi)).2
    rw [List.length_append,List.length_cons] at hlen
    obtain ⟨m',hm',hkeeps⟩ := removeFinish_spec (n := n) h₁ hnd₁ hu hfits (by rw [List.length_append,List.length_cons]; omega)
    exact ⟨m',hm',by rw [plug_append] at hkeeps; exact hkeeps⟩
  have hchild : ((m.setParent l (some inn)).setLink .left inn (some l)).link .right inn=u.root := by
    rw [setLink_link,if_neg (by simp),setParent_link]
    exact (hC.1.2 .right).1
  unfold rbRemove
  simp only [hlinkl,hlinky,hdesc,Option.bind_some,hchild]
  cases path with
  | nil =>
    obtain rfl : inn=y := Option.some.inj ((congrArg Bintree.root hsub).symm.trans hy)
    rw [if_neg fun h => h rfl]
    unfold removeFinish
    rw [swapChild_adopt,hup]
    refine hfin _ (holds_next hC hndC hcases hdir (fun z => ?_) ?_ ?_ (fun z hzi hzo e => ?_) ?_)
    · rw [adopt_up,setUp_up,setLink_up,setParent_up,hl]
      refine if_congr Iff.rfl rfl (if_congr Iff.rfl rfl ?_)
      by_cases hz : z=l
      · rw [if_pos hz,if_pos (.inl (congrArg some hz.symm)),hz]
      · rw [if_neg hz,if_neg (not_or.mpr ⟨fun h => hz (Option.some.inj h).symm,fun h => h.1 rfl⟩)]
    · rw [adopt_link,setUp_link,hchild]
      rfl
    · rw [adopt_link,setUp_link,setLink_self,hl]
    · rw [adopt_link,setUp_link,setLink_ne hzi,setParent_link]
      exact (setLink_ne hzo).symm
    · rw [adopt_root]
      rfl
  | cons f path =>
    have hfd : f.dir=.left := hdir f List.mem_cons_self
    have hykeys : y∈keys (f::path) := root_mem_keys (List.cons_ne_nil f path) (hsub ▸ hy)
    have hyC : y∈keys (f::path++⟨.right,out,red,sub .left⟩::ctx) := by
      rw [keys_append]
      exact List.mem_append_left _ hykeys
    have hyl : y≠l := by
      intro heq
      have hndk := (nodup_nodes.mp hndu).2.1
      rw [keys_append] at hndk
      refine (List.nodup_append'.mp hndk).2.2 hykeys ?_
      rw [heq,keys_cons]
      exact List.mem_append_left _ (List.mem_cons_of_mem _ (root_mem hl))
    rw [if_pos fun h => hkey y hyC h.symm]
    have hptr : ((((m.setParent l (some inn)).setLink .left inn (some l)).setParent y (some inn)).setLink .right inn
        (some y)).up inn=⟨some f.key,redi⟩ := by
      rw [setLink_up,setParent_up,if_neg (hkey y hyC),setLink_up,setParent_up,if_neg (hkey l hlkeys)]
      exact hC.1.1
    simp only [hptr,Option.bind_some]
    unfold removeFinish
    rw [swapChild_adopt,hup]
    refine hfin _ (holds_next hC hndC hcases hdir (fun z => ?_) ?_ ?_ (fun z hzi hzo e => ?_) ?_)
    · rw [adopt_up,setUp_up,setLink_up,setLink_up,setParent_up,setLink_up,setParent_up,setParent_up,if_neg hyl,hl,
        ← plug_root (t := .node inn redi (pick .left .nil u)) (List.cons_ne_nil f path),← hsub,hy]
      refine if_congr Iff.rfl rfl (if_congr Iff.rfl rfl ?_)
      by_cases hzy : z=y
      · rw [if_pos hzy,if_pos (.inr ⟨List.cons_ne_nil f path,congrArg some hzy.symm⟩),hzy]
      · by_cases hzl : z=l
        · rw [if_neg hzy,if_pos hzl,if_pos (.inl (congrArg some hzl.symm)),hzl]
        · rw [if_neg hzy,if_neg hzl,if_neg]
          exact not_or.mpr ⟨fun h => hzl (Option.some.inj h).symm,fun h => hzy (Option.some.inj h.2).symm⟩
    · rw [adopt_link,setUp_link,setLink_link,if_neg (by simp),setLink_self,
        ← plug_root (t := .node inn redi (pick .left .nil u)) (List.cons_ne_nil f path),← hsub,hy]
    · have hfk : inn≠f.key := hkey f.key List.mem_cons_self
      rw [adopt_link,setUp_link,setLink_ne hfk,setLink_link,if_neg (by simp),setParent_link,setLink_self,hl]
    · show _=(m.setLink f.dir f.key u.root).link e z
      rw [adopt_link,setUp_link,setLink_link,setLink_ne hzi,setParent_link,setLink_ne hzi,setParent_link,setLink_link,hfd]
    · rw [adopt_root]
      rfl

end Unlink

/-- A node with one child at most goes. -/
theorem removeOne_spec (h : Holds m (.node out red (pick d .nil u)) ctx)
    (hnd : (nodes (.node out red (pick d .nil u)) ctx).Nodup) (hr : Ranked (plug (.node out red (pick d .nil u)) ctx) r) (hn : ctx.length≤n) :
    ∃ m',removeFinish n m out (top ctx) u.root u.root (top ctx)=some m' ∧ Keeps m' (plug u ctx).toList := by
  obtain ⟨k',hk',hfits⟩ := plug_ranked hr
  obtain ⟨k,rfl,hu,hcases⟩ := ranked_single hk'
  have hdis := (nodup_nodes.mp hnd).2.2
  have hnew := holds_unlink h hnd hcases
  have hnd' : (nodes u ctx).Nodup := by
    obtain ⟨-,-,-,hndu,-⟩ := (nodup_pick d).mp (nodup_nodes.mp hnd).1
    exact nodup_nodes.mpr ⟨hndu,(nodup_nodes.mp hnd).2.1,fun z hz => hdis ((mem_pick d).mpr (.inr (.inr hz)))⟩
  unfold removeFinish
  rw [swapChild_adopt,swapChild_eq h.2 (fun ho => hdis (root_mem rfl) ho) fun z _ e => by rw [adopt_link]]
  exact removeFinish_spec hnew hnd' hu hfits hn

theorem rbRemove_spec (h : Keeps m xs) (hnd : xs.Nodup) (hout : out∈xs) (hn : Enough n xs) :
    ∃ m',rbRemove n m out=some m' ∧ Keeps m' (xs.erase out) := by
  obtain ⟨t,r,ht,rfl,hr⟩ := h
  have hdepth := depth_lt hr hn
  obtain ⟨red,sub,ctx,rfl⟩ := exists_plug hout
  have hndN : (nodes (.node out red sub) ctx).Nodup := perm_plug.nodup_iff.mp hnd
  have hat : Holds m (.node out red sub) ctx := List.append_nil ctx ▸ holds_plug.mp ht
  have hctx : ctx.length≤n := by
    have hle : _≤(plug (.node out red sub) ctx).depth := depth_plug
    omega
  have hup : m.up out=⟨top ctx,red⟩ := hat.1.1
  have hlink : ∀ d,m.link d out=(sub d).root := fun d => (hat.1.2 d).1
  -- without a child on this side
  have hone : ∀ d,sub d=.nil → ∃ m',removeFinish n m out (top ctx) (sub d.flip).root (sub d.flip).root (top ctx)=some m' ∧
      Keeps m' ((plug (.node out red sub) ctx).toList.erase out) := by
    intro d hd
    have hlist : (sub d.flip).toList=(sub .left).toList++(sub .right).toList := by
      cases d with
      | left =>
        rw [hd]
        rfl
      | right =>
        rw [hd]
        exact (List.append_nil _).symm
    rw [← erase_plug hnd hlist]
    rw [show sub=pick d .nil (sub d.flip) from eq_pick.mpr ⟨hd,rfl⟩] at hat hndN hr
    exact removeOne_spec hat hndN hr hctx
  cases hright : sub .right with
  | nil =>
    have hnone : m.link .right out=none := (hlink .right).trans (congrArg Bintree.root hright)
    unfold rbRemove
    simp only [hnone,hup,hlink .left]
    exact hone .right hright
  | node y redy suby =>
    have hsome : m.link .right out=some y := (hlink .right).trans (congrArg Bintree.root hright)
    cases hleft : sub .left with
    | nil =>
      have hnone : m.link .left out=none := (hlink .left).trans (congrArg Bintree.root hleft)
      have hret := hone .left hleft
      rw [show sub Dir.left.flip=.node y redy suby from hright] at hret
      unfold rbRemove
      simp only [hnone,hsome,hup]
      exact hret
    | node l redl subl =>
      have hne : ∀ d,sub d≠.nil := by
        refine (forall_dir .right).mpr ⟨fun hnil => ?_,fun hnil => ?_⟩
        · cases hright.symm.trans hnil
        · cases hleft.symm.trans hnil
      obtain ⟨inn,redi,u,path,hpath,hdir⟩ := exists_last .left (hne .right)
      have hlist :
          (Bintree.node inn red (pick .right (plug u path) (sub .left))).toList=(sub .left).toList++(sub .right).toList := by
        rw [hpath,toList_pick,toList_last hdir,toList_last hdir,toList_pick]
        rfl
      rw [← erase_plug hnd hlist]
      exact removeTwo_spec hat hndN hr hpath hdir (hne .left) hdepth

end Dpapp.Dprbt
