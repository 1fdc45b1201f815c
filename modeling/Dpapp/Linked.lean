import Mathlib

/-! # Linked lists -/

namespace Dpapp.Linked
variable {κ : Type*}

/-- The nodes that `next` leads through from `h`. -/
def path (next : κ → Option κ) : Option κ → List κ → Prop
  | h,[] => h=none
  | h,k::l => h=some k ∧ path next (next k) l

variable {next next' : κ → Option κ} {h : Option κ} {k : κ} {l l' : List κ}

/-- Nodes outside of a list do not matter to it. -/
theorem path_congr (hp : path next h l) (he : ∀ k∈l,next' k=next k) : path next' h l := by
  induction l generalizing h with
  | nil => exact hp
  | cons k l ih =>
    obtain ⟨hk,hl⟩ := hp
    refine ⟨hk,?_⟩
    rw [he k List.mem_cons_self]
    exact ih hl fun j hj => he j (List.mem_cons_of_mem _ hj)

/-- The first `n` nodes. -/
def walk (next : κ → Option κ) : ℕ → Option κ → List κ
  | 0,_ => []
  | _+1,none => []
  | n+1,some k => k::walk next n (next k)

theorem walk_path (hp : path next h l) : walk next l.length h=l := by
  induction l generalizing h with
  | nil => rfl
  | cons k l ih =>
    obtain ⟨rfl,hl⟩ := hp
    exact congrArg (k::·) (ih hl)

theorem path_unique (hp : path next h l) (hp' : path next h l') : l=l' := by
  induction l generalizing h l' with
  | nil =>
    cases l' with
    | nil => rfl
    | cons k l' =>
      rw [hp] at hp'
      cases hp'.1
  | cons k l ih =>
    obtain ⟨rfl,hl⟩ := hp
    cases l' with
    | nil => cases hp'
    | cons j l' =>
      obtain ⟨hj,hl'⟩ := hp'
      cases hj
      rw [ih hl hl']

theorem path_head (hp : path next h l) : h=l.head? := by
  cases l with
  | nil => exact hp
  | cons k l => exact hp.1

/-- What follows a node of the list. -/
theorem path_rest (hp : path next h (l++k::l')) : path next (next k) l' := by
  induction l generalizing h with
  | nil => exact hp.2
  | cons j l ih => exact ih hp.2

/-- A node that came twice would lead back to itself for ever. -/
theorem path_nodup (hp : path next h l) : l.Nodup := by
  induction l generalizing h with
  | nil => exact List.nodup_nil
  | cons k l ih =>
    refine List.nodup_cons.mpr ⟨fun hk => ?_,ih hp.2⟩
    obtain ⟨m,m',rfl⟩ := List.append_of_mem hk
    have hlen := congrArg List.length (path_unique hp.2 (path_rest hp.2))
    simp only [List.length_append,List.length_cons] at hlen
    omega

/-! ### Doubly linked lists -/

/-- `next` leads from `h` through `l`, and `prev` leads back from `t`. -/
structure Dll (prev next : κ → Option κ) (h t : Option κ) (l : List κ) : Prop where
  fwd : path next h l
  bwd : path prev t l.reverse

variable {prev prev' : κ → Option κ} {t : Option κ} {m : List κ}

theorem Dll.symm (hd : Dll prev next h t l) : Dll next prev t h l.reverse :=
  ⟨hd.bwd,by rw [List.reverse_reverse]; exact hd.fwd⟩

theorem Dll.nil : Dll prev next none none [] := ⟨rfl,rfl⟩

theorem Dll.single (hp : prev k=none) (hn : next k=none) : Dll prev next (some k) (some k) [k] := ⟨⟨rfl,hn⟩,⟨rfl,hp⟩⟩

theorem Dll.congr (hd : Dll prev next h t l) (hp : ∀ k∈l,prev' k=prev k) (hn : ∀ k∈l,next' k=next k) :
    Dll prev' next' h t l :=
  ⟨path_congr hd.fwd hn,path_congr hd.bwd fun k hk => hp k (List.mem_reverse.mp hk)⟩

theorem Dll.head (hd : Dll prev next h t l) : h=l.head? := path_head hd.fwd

theorem Dll.tail (hd : Dll prev next h t l) : t=l.getLast? := by
  rw [path_head hd.bwd,List.head?_reverse]

theorem Dll.nodup (hd : Dll prev next h t l) : l.Nodup := path_nodup hd.fwd

/-- The part of the list before a node, from there back. -/
theorem Dll.before (hd : Dll prev next h t (l++k::m)) : path prev (prev k) l.reverse := by
  refine path_rest (l := m.reverse) (h := t) ?_
  have hbwd := hd.bwd
  rwa [List.reverse_append,List.reverse_cons,List.append_assoc] at hbwd

theorem Dll.prev_next {j : κ} (hd : Dll prev next h t l) (hk : k∈l) (hn : next k=some j) : j∈l ∧ prev j=some k := by
  obtain ⟨l₁,l₂,rfl⟩ := List.append_of_mem hk
  cases l₂ with
  | nil =>
    have hrest := path_rest hd.fwd
    rw [hn] at hrest
    cases hrest
  | cons i l₂ =>
    have hrest := path_rest hd.fwd
    rw [hn] at hrest
    cases hrest.1
    refine ⟨by simp,?_⟩
    have hbefore := Dll.before (l := l₁++[k]) (k := j) (m := l₂) (by rwa [List.append_assoc])
    rw [List.reverse_append] at hbefore
    exact hbefore.1

/-- `prev` and `next` are each other's inverse on the list. -/
theorem Dll.inverse {j : κ} (hd : Dll prev next h t l) (hj : j∈l) (hk : k∈l) : next k=some j ↔ prev j=some k :=
  ⟨fun hn => (hd.prev_next hk hn).2,fun hp => (hd.symm.prev_next (List.mem_reverse.mpr hj) hp).2⟩

/-- The head is the one that nothing comes before. -/
theorem Dll.prev_eq_none (hd : Dll prev next h t l) (hk : k∈l) : prev k=none ↔ h=some k := by
  obtain ⟨l₁,l₂,rfl⟩ := List.append_of_mem hk
  have hbefore := hd.before
  have hhead := hd.head
  cases l₁ with
  | nil => exact ⟨fun _ => hhead,fun _ => hbefore⟩
  | cons j l₁ =>
    rw [List.reverse_cons] at hbefore
    constructor
    · intro hp
      rw [hp] at hbefore
      cases hr : l₁.reverse with
      | nil => rw [hr] at hbefore; cases hbefore.1
      | cons i r => rw [hr] at hbefore; cases hbefore.1
    · intro hh
      rw [hh] at hhead
      cases hhead
      exact absurd hd.nodup (by simp)

/-! ### Relinking -/

variable [DecidableEq κ]

/-- `k` is made to lead to another list. -/
theorem path_relink {h' : Option κ} (hp : path next h (l++k::l')) (hk : k∉l) (hm : path next h' m)
    (hkm : k∉m) : path (Function.update next k h') h (l++k::m) := by
  induction l generalizing h with
  | nil =>
    refine ⟨hp.1,?_⟩
    rw [Function.update_self]
    exact path_congr hm fun j hj => Function.update_of_ne (ne_of_mem_of_not_mem hj hkm) ..
  | cons j l ih =>
    refine ⟨hp.1,?_⟩
    rw [Function.update_of_ne (List.ne_of_not_mem_cons hk).symm]
    exact ih hp.2 (List.not_mem_of_not_mem_cons hk)

theorem append_fwd {x : κ} {h' : Option κ} (hd : Dll prev next h (some x) l) (hm : path next h' m) (hne : ∀ k∈l,k∉m) :
    path (Function.update next x h') h (l++m) := by
  obtain ⟨l₁,rfl⟩ : ∃ l₁,l=l₁++[x] := by
    refine List.getLast?_eq_some_iff.mp ?_
    exact hd.tail.symm
  have hx : x∉l₁ := fun hmem => absurd (List.mem_append_left [] hmem) (List.nodup_cons.mp (List.nodup_middle.mp hd.nodup)).1
  rw [List.append_assoc]
  exact path_relink hd.fwd hx hm (hne x (by simp))

/-- The second list is linked after the first one. -/
theorem Dll.append {x y : κ} (hd : Dll prev next h (some x) l) (hm : Dll prev next (some y) t m)
    (hne : ∀ k∈l,k∉m) : Dll (Function.update prev y (some x)) (Function.update next x (some y)) h t (l++m) := by
  refine ⟨append_fwd hd hm.fwd hne,?_⟩
  rw [List.reverse_append]
  exact append_fwd hm.symm hd.bwd fun k hk hk' => hne k (List.mem_reverse.mp hk') (List.mem_reverse.mp hk)

/-- Nothing, if there is no node. -/
def relink (f : κ → Option κ) (x v : Option κ) : κ → Option κ :=
  match x with
  | some k => Function.update f k v
  | none => f

theorem relink_of_ne {f : κ → Option κ} {x v : Option κ} (hx : x≠some k) : relink f x v k=f k := by
  cases x with
  | none => rfl
  | some j => exact Function.update_of_ne (fun hkj => hx (congrArg some hkj.symm)) ..

theorem remove_fwd (hd : Dll prev next h t (l++k::m)) :
    path (relink next (prev k) (next k)) ((prev k).elim (next k) fun _ => h) (l++m) := by
  have hrest := path_rest hd.fwd
  have hbefore := hd.before
  obtain ⟨hk,-⟩ := List.nodup_cons.mp (List.nodup_middle.mp hd.nodup)
  rcases List.eq_nil_or_concat l with rfl | ⟨l₁,j,rfl⟩
  · rw [show prev k=none from hbefore]
    exact hrest
  · rw [List.concat_eq_append,List.reverse_append] at hbefore
    rw [List.concat_eq_append] at hd ⊢
    have hj := hd.nodup
    rw [List.append_assoc] at hj ⊢
    obtain ⟨hj,-⟩ := List.nodup_cons.mp (List.nodup_middle.mp hj)
    have hfwd := hd.fwd
    rw [List.append_assoc] at hfwd
    rw [show prev k=some j from hbefore.1]
    exact path_relink hfwd (fun hmem => hj (List.mem_append_left _ hmem)) hrest
      fun hmem => hj (List.mem_append_right _ (List.mem_cons_of_mem _ hmem))

/-- A node is taken out of the list. -/
theorem Dll.remove (hd : Dll prev next h t (l++k::m)) :
    Dll (relink prev (next k) (prev k)) (relink next (prev k) (next k)) ((prev k).elim (next k) fun _ => h)
      ((next k).elim (prev k) fun _ => t) (l++m) := by
  refine ⟨remove_fwd hd,?_⟩
  have hsymm := hd.symm
  rw [List.reverse_append,List.reverse_cons,List.append_assoc] at hsymm
  rw [List.reverse_append]
  exact remove_fwd hsymm

end Dpapp.Linked
