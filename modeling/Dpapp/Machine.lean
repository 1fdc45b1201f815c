import Dpapp.Instances
import Mathlib.Logic.Function.Basic
import Mathlib.Data.List.Basic

namespace Dpapp.Machine

/- Partial labelled machines: `step s a` is none where the label is not enabled.
`Reach step ok s` holds of the states that runs from `s` end in, when every step
of the run meets the guard `ok` (the guard reads the label and the state before it). -/
variable {σ τ α β : Type*}

inductive Reach (step : σ → α → Option σ) (ok : σ → α → Prop) (s : σ) : σ → Prop
  | refl : Reach step ok s s
  | tail {t u : σ} {a : α} : Reach step ok s t → ok t a → step t a = some u → Reach step ok s u

/-- No guard: every run. -/
def anyStep : σ → α → Prop := fun _ _ => True

def exec (step : σ → α → Option σ) : σ → List α → Option σ
  | s, [] => some s
  | s, a :: as => (step s a).bind fun t => exec step t as

variable {step : σ → α → Option σ} {ok : σ → α → Prop} {s t u : σ}

theorem Reach.invariant {I : σ → Prop} (h : Reach step ok s t) (hs : I s)
    (hstep : ∀ t a u, I t → ok t a → step t a = some u → I u) : I t := by
  induction h with
  | refl => exact hs
  | tail _ hok ht ih => exact hstep _ _ _ ih hok ht

theorem Reach.mono {ok' : σ → α → Prop} (hok : ∀ t a, ok t a → ok' t a)
    (h : Reach step ok s t) : Reach step ok' s t := by
  induction h with
  | refl => exact .refl
  | tail _ ha ht ih => exact .tail ih (hok _ _ ha) ht

theorem Reach.trans (h : Reach step ok s t) (h' : Reach step ok t u) : Reach step ok s u := by
  induction h' with
  | refl => exact h
  | tail _ ha ht ih => exact .tail ih ha ht

/-- Refinement: a map to an abstract machine that turns each step into a run carries runs to runs. -/
theorem Reach.refine {astep : τ → β → Option τ} {I : σ → Prop} (abs : σ → τ)
    (h : Reach step ok s t) (hI : ∀ t, Reach step ok s t → I t)
    (hstep : ∀ t a u, I t → ok t a → step t a = some u → Reach astep anyStep (abs t) (abs u)) :
    Reach astep anyStep (abs s) (abs t) := by
  induction h with
  | refl => exact .refl
  | tail hr hok ht ih => exact ih.trans (hstep _ _ _ (hI _ hr) hok ht)

theorem exec_reach {as : List α} (h : exec step s as = some t) : Reach step anyStep s t := by
  induction as generalizing s with
  | nil => cases h; exact .refl
  | cons a as ih =>
    obtain ⟨u,hu,hr⟩ := Option.bind_eq_some_iff.mp h
    exact (Reach.tail .refl trivial hu).trans (ih hr)

/-- Forward simulation: what the abstract machine can do, the other one does as well. -/
theorem exec_simulates {R : σ → τ → Prop} {astep : τ → α → Option τ}
    (hstep : ∀ s t a t', R s t → astep t a = some t' → ∃ s', step s a = some s' ∧ R s' t') {as : List α} {t t' : τ}
    (h : R s t) (ht : exec astep t as = some t') : ∃ s', exec step s as = some s' ∧ R s' t' := by
  induction as generalizing s t with
  | nil => cases ht; exact ⟨s,rfl,h⟩
  | cons a as ih =>
    obtain ⟨v,hv,hr⟩ := Option.bind_eq_some_iff.mp ht
    obtain ⟨w,hw,hR⟩ := hstep s t a v h hv
    obtain ⟨s',hs',hR'⟩ := ih hR hr
    exact ⟨s',by simp only [exec,hw,Option.bind_some,hs'],hR'⟩

/-- A run that checks the guard before every step. -/
def execOk (step : σ → α → Option σ) (ok : σ → α → Prop) [∀ s a,Decidable (ok s a)] : σ → List α → Option σ
  | s, [] => some s
  | s, a :: as => if ok s a then (step s a).bind fun t => execOk step ok t as else none

theorem execOk_reach [∀ s a,Decidable (ok s a)] {as : List α} (h : execOk step ok s as = some t) :
    Reach step ok s t := by
  induction as generalizing s with
  | nil => cases h; exact .refl
  | cons a as ih =>
    simp only [execOk] at h
    split at h
    · rename_i hok
      obtain ⟨u,hu,hr⟩ := Option.bind_eq_some_iff.mp h
      exact (Reach.tail .refl hok hu).trans (ih hr)
    · cases h

/-! ### Two runs -/

/-- Runs with their labels. -/
inductive Runs (step : σ → α → Option σ) (ok : σ → α → Prop) : σ → List α → σ → Prop
  | nil (s : σ) : Runs step ok s [] s
  | cons {s t u : σ} {a : α} {as : List α} : ok s a → step s a = some t → Runs step ok t as u → Runs step ok s (a::as) u

theorem Runs.mono {ok' : σ → α → Prop} (hok : ∀ t a,ok t a → ok' t a) {as : List α} (h : Runs step ok s as t) :
    Runs step ok' s as t := by
  induction h with
  | nil s => exact .nil s
  | cons ha ht _ ih => exact .cons (hok _ _ ha) ht ih

theorem exec_runs {as : List α} (h : exec step s as = some t) : Runs step anyStep s as t := by
  induction as generalizing s with
  | nil => cases h; exact .nil _
  | cons a as ih =>
    obtain ⟨u,hu,hr⟩ := Option.bind_eq_some_iff.mp h
    exact .cons trivial hu (ih hr)

theorem execOk_runs [∀ s a,Decidable (ok s a)] {as : List α} (h : execOk step ok s as = some t) :
    Runs step ok s as t := by
  induction as generalizing s with
  | nil => cases h; exact .nil _
  | cons a as ih =>
    simp only [execOk] at h
    split at h
    · rename_i hok
      obtain ⟨u,hu,hr⟩ := Option.bind_eq_some_iff.mp h
      exact .cons hok hu (ih hr)
    · cases h

section Unwinding
variable {R : σ → σ → Prop} {mine : α → Bool}

/-- The steps of others, up to the next one of mine. -/
theorem Runs.skip {bs as : List α} {a : α} {t' : σ}
    (hright : ∀ s t b u, R s t → mine b = false → step t b = some u → R s u)
    (ht : Runs step ok t bs t') (hview : bs.filter mine = a::as) (h : R s t) :
    ∃ u v bs',R s u ∧ ok u a ∧ step u a = some v ∧ Runs step ok v bs' t' ∧ bs'.filter mine = as := by
  induction ht with
  | nil => cases hview
  | @cons t v _ b bs hok hb hrest ih =>
    cases hm : mine b with
    | true =>
      rw [List.filter_cons_of_pos hm] at hview
      cases hview
      exact ⟨t,v,bs,h,hok,hb,hrest,rfl⟩
    | false =>
      rw [List.filter_cons_of_neg (by simp [hm])] at hview
      exact ih hview (hright _ _ _ _ h hm hb)

/-- Unwinding: what I see stays the same in two runs that agree on my steps. -/
theorem Runs.agree {as bs : List α} {s' t' : σ}
    (hmine : ∀ s t a u v, R s t → mine a = true → ok s a → ok t a → step s a = some u → step t a = some v → R u v)
    (hleft : ∀ s t a u, R s t → mine a = false → step s a = some u → R u t)
    (hright : ∀ s t b u, R s t → mine b = false → step t b = some u → R s u)
    (hs : Runs step ok s as s') (ht : Runs step ok t bs t') (hview : as.filter mine = bs.filter mine) (h : R s t) :
    R s' t' := by
  induction hs generalizing t bs with
  | nil s =>
    induction ht with
    | nil => exact h
    | cons _ hb _ ih =>
      cases hm : mine _ with
      | true =>
        rw [List.filter_cons_of_pos hm] at hview
        cases hview
      | false =>
        rw [List.filter_cons_of_neg (by simp [hm])] at hview
        exact ih hview (hright _ _ _ _ h hm hb)
  | @cons s u _ a as hok ha hrest ih =>
    cases hm : mine a with
    | true =>
      rw [List.filter_cons_of_pos hm] at hview
      obtain ⟨t₁,t₂,bs',hR,hok',hstep,hruns,hfilter⟩ := Runs.skip hright ht hview.symm h
      exact ih hruns hfilter.symm (hmine _ _ _ _ _ hR hm hok hok' ha hstep)
    | false =>
      rw [List.filter_cons_of_neg (by simp [hm])] at hview
      exact ih ht hview (hleft _ _ _ _ h hm ha)

end Unwinding

/-- Amortized cost: what a run spends is what it started with and what it was given. -/
theorem exec_potential {I : σ → Prop} (m : σ → ℕ) (cost gain : α → ℕ) {as : List α} (hI : I s)
    (hstep : ∀ t a u, I t → step t a = some u → I u ∧ m u + cost a ≤ m t + gain a)
    (h : exec step s as = some t) : m t + (as.map cost).sum ≤ m s + (as.map gain).sum := by
  induction as generalizing s with
  | nil => cases h; exact Nat.le_refl _
  | cons a as ih =>
    obtain ⟨u,hu,hr⟩ := Option.bind_eq_some_iff.mp h
    have hhead := hstep s a u hI hu
    have htail := ih hhead.1 hr
    simp only [List.map_cons,List.sum_cons]
    omega

end Dpapp.Machine
