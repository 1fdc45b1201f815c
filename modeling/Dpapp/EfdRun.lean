import Dpapp.EfdIo
import Dpapp.Machine

/-! # Runs of the operations of an EFD

The prep and post functions, and the world that their calls act on, are left to the caller. An operation that is over is
recorded with the world that it has found and the one that it has left. -/

namespace Dpapp.EfdRun
open Dpapp.Machine Dpapp.Ret Dpapp.EfdWake Dpapp.EfdIo

variable {δ μ γ σ α ε : Type*}

/- `prep` is what a prep function returns, and `want` the events that it asks for. `kernel` is a call of the post function,
by the label: what becomes of the world, and what the call answers. `env` is what others do to the world. -/
structure Sem (δ μ γ σ α ε : Type*) where
  prep : δ → Dpret
  want : δ → Evts
  post : Post δ μ γ
  kernel : σ → δ → μ → α → Option (σ × γ)
  env : σ → ε → σ

/- `op` is the operation as it was added, and `left` what its functions have left of it. -/
structure Ended (δ σ : Type*) where
  op : δ
  left : δ
  ret : Dpret
  before : σ
  after : σ

/- `begun` is the operation that is going on, as it was added, and the world that it has found. -/
structure Sys (δ μ σ : Type*) where
  fd : Fd δ μ := {}
  world : σ
  begun : Option (δ × σ) := none
  done : List (Ended δ σ) := []

inductive Act (δ α ε : Type*)
  | env (e : ε)
  | add (d : δ)
  | call (a : α)
  | feed (evs : Evts)
  | stop (r : Dpret)

def Sys.settle (s : Sys δ μ σ) (d : δ) (x : Fd δ μ × Option Dpret) : Sys δ μ σ :=
  match x.2,s.begun with
  | some r,some b => {s with fd := x.1, begun := none, done := s.done++[⟨b.1,d,r,b.2,s.world⟩]}
  | _,_ => {s with fd := x.1}

def nextData : Next δ μ → δ
  | .call d _ | .ret d _ => d

def step (m : Sem δ μ γ σ α ε) (s : Sys δ μ σ) : Act δ α ε → Option (Sys δ μ σ)
  | .env e => some {s with world := m.env s.world e}
  | .add d =>
      match s.fd.pend with
      | none =>
          let t := {s with begun := some (d,s.world)}
          if m.prep d=dpeContinue then some (t.settle d (s.fd.add m.post d ⟨m.want d,∅⟩))
          else some (t.settle d (s.fd,some (m.prep d)))
      -- dpevp_addv refuses
      | some _ => some s
  | .call a =>
      match s.fd.pend with
      | some ⟨d,some l⟩ =>
          (m.kernel s.world d l a).map fun x =>
            let n := m.post.turn s.fd.efd.want d l x.2
            Sys.settle {s with world := x.1} (nextData n) (s.fd.next m.post n)
      | _ => none
  | .feed evs =>
      match s.fd.pend with
      | none => (s.fd.feed m.post evs).map fun x => {s with fd := x.1}
      | some ⟨d,_⟩ => (s.fd.feed m.post evs).map (s.settle d)
  | .stop r =>
      match s.fd.pend with
      | some ⟨d,none⟩ => if r≤0 ∧ r≠dpeWait then some (s.settle d (s.fd.stop,some r)) else none
      | _ => none

/-- What has to be kept: `Wait` holds of an operation that waits, `Runs` while its post function runs, and `Fine` of one
that is over. -/
structure Rule (m : Sem δ μ γ σ α ε) (Wait : δ × σ → δ → σ → Prop) (Runs : δ × σ → δ → μ → σ → Prop)
    (Fine : Ended δ σ → Prop) : Prop where
  add : ∀ d w,m.prep d=dpeContinue → Wait (d,w) d w
  refuse : ∀ d w,m.prep d≠dpeContinue → Fine ⟨d,d,m.prep d,w,w⟩
  waits : ∀ b d w e,Wait b d w → Wait b d (m.env w e)
  runs : ∀ b d l w e,Runs b d l w → Runs b d l (m.env w e)
  enter : ∀ b d w,Wait b d w → Runs b d (m.post.enter d) w
  turn : ∀ b d l w a w' c want,Runs b d l w → m.kernel w d l a=some (w',c) → match m.post.turn want d l c with
    | .call d' l' => Runs b d' l' w'
    | .ret d' p => if p.ret=dpeWait then Wait b d' w' else Fine ⟨b.1,d',p.ret,b.2,w'⟩
  stop : ∀ b d w r,Wait b d w → r≤0 → Fine ⟨b.1,d,r,b.2,w⟩

/-- The operation that is going on. -/
def pending (Wait : δ × σ → δ → σ → Prop) (Runs : δ × σ → δ → μ → σ → Prop) (s : Sys δ μ σ) : Prop :=
  match s.fd.pend with
  | none => s.begun=none
  | some ⟨d,none⟩ => ∃ b,s.begun=some b ∧ Wait b d s.world
  | some ⟨d,some l⟩ => ∃ b,s.begun=some b ∧ Runs b d l s.world

section Steps
variable {m : Sem δ μ γ σ α ε} {Wait : δ × σ → δ → σ → Prop} {Runs : δ × σ → δ → μ → σ → Prop} {Fine : Ended δ σ → Prop}
  {s s' : Sys δ μ σ} {b : δ × σ} {d : δ} {x : Efd × Turn} {r : Dpret}

theorem settle_ended {f : Fd δ μ} (hb : s.begun=some b) :
    s.settle d (f,some r)={s with fd := f, begun := none, done := s.done++[⟨b.1,d,r,b.2,s.world⟩]} := by
  unfold Sys.settle
  rw [hb]

theorem fine_ended {f : Fd δ μ} (hdone : ∀ y∈ s.done,Fine y) (hb : s.begun=some b) (hf : Fine ⟨b.1,d,r,b.2,s.world⟩)
    (hp : f.pend=none) : pending Wait Runs (s.settle d (f,some r)) ∧ ∀ y∈ (s.settle d (f,some r)).done,Fine y := by
  rw [settle_ended hb]
  refine ⟨?_,fun y hy => ?_⟩
  · unfold pending
    rw [hp]
  · rcases List.mem_append.mp hy with hy | hy
    · exact hdone y hy
    · rw [List.mem_singleton.mp hy]
      exact hf

/-- The wake loop leaves the operation waiting, calls its post function or ends it. -/
theorem fine_turned (h : Rule m Wait Runs Fine) (hdone : ∀ y∈ s.done,Fine y) (hb : s.begun=some b)
    (hw : x.2=.post ∨ x.2=.ret dpeWait → Wait b d s.world)
    (hf : ∀ r,x.2=.ret r → r≠dpeWait → Fine ⟨b.1,d,r,b.2,s.world⟩) :
    pending Wait Runs (s.settle d (turned m.post d x)) ∧ ∀ y∈ (s.settle d (turned m.post d x)).done,Fine y := by
  rcases turned_cases m.post d x with ⟨hx,heq⟩ | ⟨hx,heq⟩ | ⟨r,hx,hr,heq⟩
  · rw [heq]
    exact ⟨⟨b,hb,hw (.inr hx)⟩,hdone⟩
  · rw [heq]
    exact ⟨⟨b,hb,h.enter b d _ (hw (.inl hx))⟩,hdone⟩
  · rw [heq]
    exact fine_ended hdone hb (hf r hx hr) rfl

theorem fine_woken (h : Rule m Wait Runs Fine) {f : Efd} {o : AscOut} (hdone : ∀ y∈ s.done,Fine y) (hb : s.begun=some b)
    (hw : Wait b d s.world) : pending Wait Runs (s.settle d (turned m.post d (dpefdWake f o))) ∧
      ∀ y∈ (s.settle d (turned m.post d (dpefdWake f o))).done,Fine y := by
  refine fine_turned h hdone hb (fun _ => hw) fun r hx hr => h.stop b d _ r hw ?_
  exact Int.le_of_lt ((dpefdWake_ret hx).2 hr).2.1

theorem step_fine (h : Rule m Wait Runs Fine) {a : Act δ α ε} (hp : pending Wait Runs s) (hdone : ∀ y∈ s.done,Fine y)
    (hu : step m s a=some s') : pending Wait Runs s' ∧ ∀ y∈ s'.done,Fine y := by
  cases a with
  | env e =>
    cases hu
    refine ⟨?_,hdone⟩
    unfold pending at hp ⊢
    split
    · rename_i hpend
      rw [hpend] at hp
      exact hp
    · rename_i d hpend
      rw [hpend] at hp
      obtain ⟨b,hb,hw⟩ := hp
      exact ⟨b,hb,h.waits b d _ e hw⟩
    · rename_i d l hpend
      rw [hpend] at hp
      obtain ⟨b,hb,hw⟩ := hp
      exact ⟨b,hb,h.runs b d l _ e hw⟩
  | add d =>
    simp only [step] at hu
    split at hu
    · rename_i hpend
      split at hu
      · rename_i hprep
        cases hu
        exact fine_woken h (s := {s with begun := some (d,s.world)}) hdone rfl (h.add d s.world hprep)
      · rename_i hprep
        cases hu
        exact fine_ended (s := {s with begun := some (d,s.world)}) hdone rfl (h.refuse d s.world hprep) hpend
    · cases hu
      exact ⟨hp,hdone⟩
  | call a =>
    simp only [step] at hu
    split at hu
    · rename_i d l hpend
      obtain ⟨⟨w,c⟩,hk,rfl⟩ := Option.map_eq_some_iff.mp hu
      unfold pending at hp
      rw [hpend] at hp
      obtain ⟨b,hb,hruns⟩ := hp
      have hturn := h.turn b d l s.world a w c s.fd.efd.want hruns hk
      simp only [Fd.next,nextData]
      cases ht : m.post.turn s.fd.efd.want d l c with
      | call d' l' =>
        rw [ht] at hturn
        exact ⟨⟨b,hb,hturn⟩,hdone⟩
      | ret d' p =>
        rw [ht] at hturn
        refine fine_turned h (s := {s with world := w}) hdone hb (fun hx => ?_) fun r hx hr => ?_
        · -- the post function waits, or it would not be called again
          have hret : p.ret=dpeWait := by
            rcases hx with hx | hx
            · unfold dpefdPosted at hx
              by_contra hne
              rw [if_neg hne] at hx
              cases hx
            · exact (dpefdPosted_ret hx).1.symm
          simp only at hturn
          rwa [if_pos hret] at hturn
        · have hret := (dpefdPosted_ret hx).1
          simp only at hturn
          rw [if_neg (by rw [← hret]; exact hr)] at hturn
          rw [hret]
          exact hturn
    · cases hu
  | feed evs =>
    simp only [step] at hu
    split at hu
    · rename_i hnone
      obtain ⟨y,hy,rfl⟩ := Option.map_eq_some_iff.mp hu
      unfold pending at hp
      rw [hnone] at hp
      rcases feed_cases hy with ⟨-,rfl⟩ | ⟨d,hpend,-⟩
      · exact ⟨hp,hdone⟩
      · rw [hnone] at hpend
        cases hpend
    · rename_i d run hsome
      obtain ⟨y,hy,rfl⟩ := Option.map_eq_some_iff.mp hu
      rcases feed_cases hy with ⟨hpend,-⟩ | ⟨d',hpend,hy⟩
      · rw [hsome] at hpend
        cases hpend
      · cases hsome.symm.trans hpend
        unfold pending at hp
        rw [hpend] at hp
        obtain ⟨b,hb,hw⟩ := hp
        rcases hy with rfl | rfl
        · exact ⟨⟨b,hb,hw⟩,hdone⟩
        · exact fine_woken h hdone hb hw
  | stop r =>
    simp only [step] at hu
    split at hu
    · rename_i d hpend
      unfold pending at hp
      rw [hpend] at hp
      obtain ⟨b,hb,hw⟩ := hp
      split at hu
      · rename_i hr
        cases hu
        exact fine_ended hdone hb (h.stop b d _ r hw hr.1) rfl
      · cases hu
    · cases hu

/-- Each operation that is over is as the rule says, whatever the events, the calls and the others do. -/
theorem Rule.fine (h : Rule m Wait Runs Fine) {w : σ} (hr : Reach (step m) anyStep {world := w} s) : ∀ y∈ s.done,Fine y := by
  have hinv : pending Wait Runs s ∧ ∀ y∈ s.done,Fine y :=
    hr.invariant ⟨rfl,fun _ hy => by cases hy⟩ fun _ _ _ hi _ hu => step_fine h hi.1 hi.2 hu
  exact hinv.2

end Steps

end Dpapp.EfdRun
