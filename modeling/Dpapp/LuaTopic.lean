import Dpapp.Instances
import Dpapp.Ret
import Mathlib.Data.String.Basic
import Mathlib.Data.List.Sort
import Mathlib.Data.List.Nodup

/-! # Topics of Lua calls (dplua.lua, dpasc.lua)

A topic crosses the threads as a number. Each thread makes its own table of the numbers, from its own copy of the user
module. -/

namespace Dpapp.LuaTopic
open Dpapp.Ret

def dpeInvcmd : Dpret := -170

/-! ### Places in a sorted list -/

section Ranks
variable {α : Type*} [LinearOrder α] {l : List α} {a b : α} {n : ℕ}

/-- How many members are below `a`. -/
def rank (l : List α) (a : α) : ℕ := l.countP (·<a)

theorem rank_cons_of_lt (hb : b<a) : rank (b::l) a=rank l a+1 := by simp [rank,hb]

theorem rank_eq_zero (h : ∀ b∈l,¬b<a) : rank l a=0 := by simpa [rank,List.countP_eq_zero] using h

theorem getElem?_iff_rank (hs : l.Pairwise (·<·)) : l[n]?=some a ↔ a∈l ∧ rank l a=n := by
  induction l generalizing n with
  | nil => simp
  | cons b l ih =>
    obtain ⟨hb,hs⟩ := List.pairwise_cons.mp hs
    have hzero : rank (b::l) b=0 := by
      refine rank_eq_zero fun c hc => ?_
      rcases List.mem_cons.mp hc with rfl | hc
      · exact lt_irrefl _
      · exact (hb c hc).not_gt
    cases n with
    | zero =>
      constructor
      · intro h
        cases h
        exact ⟨List.mem_cons_self,hzero⟩
      · rintro ⟨hin,hr⟩
        rcases List.mem_cons.mp hin with rfl | hin
        · rfl
        · rw [rank_cons_of_lt (hb a hin)] at hr
          cases hr
    | succ n =>
      rw [List.getElem?_cons_succ,ih hs]
      constructor
      · rintro ⟨hin,hr⟩
        exact ⟨List.mem_cons_of_mem _ hin,by rw [rank_cons_of_lt (hb a hin),hr]⟩
      · rintro ⟨hin,hr⟩
        rcases List.mem_cons.mp hin with rfl | hin
        · rw [hzero] at hr
          cases hr
        · rw [rank_cons_of_lt (hb a hin)] at hr
          exact ⟨hin,Nat.succ.inj hr⟩

theorem idxOf_eq_rank (hs : l.Pairwise (·<·)) (ha : a∈l) : l.idxOf a=rank l a := by
  have hlt := List.idxOf_lt_length_iff.mpr ha
  have hget : l[l.idxOf a]?=some a := by rw [List.getElem?_eq_getElem hlt,List.getElem_idxOf]
  exact ((getElem?_iff_rank hs).mp hget).2.symm

end Ranks

/-! ### The module table and its topics -/

inductive Key
  | str (s : String)
  | other (n : ℤ)
deriving DecidableEq

/-- What a handler makes of a request: a value that converts to an int, another value, or an error. -/
inductive Out
  | int (v : ℤ)
  | other
  | raise
deriving DecidableEq

abbrev Handler := ℤ → Out

inductive Value
  | fn (f : Handler)
  | other

/-- The table that the user module has returned. -/
structure App where
  entries : List (Key×Value)
  distinct : (entries.map Prod.fst).Nodup

def App.get (app : App) (k : Key) : Option Value := app.entries.lookup k

/-- `not name:match("^__")` -/
def topicIsHandler (name : String) : Bool := name.toList.take 2≠['_','_']

def nameOf : Key×Value → Option String
  | (.str s,.fn _) => if topicIsHandler s then some s else none
  | _ => none

/-- The first loop of `_topic_build_map`. -/
def names (app : App) : List String := app.entries.filterMap nameOf

/-- A thread with its copy of the module; `topics` is both maps, the name at place `id` being that of `id`. -/
structure Thread where
  app : App
  topics : List String

def topicBuildMap (app : App) : Thread := ⟨app,(names app).insertionSort (·≤·)⟩

def Thread.topicId (t : Thread) : Key → Option ℤ
  | .str name => if name∈t.topics then some (t.topics.idxOf name) else none
  | .other _ => none

def Thread.topicName (t : Thread) (id : ℤ) : Option String := if 0≤ id then t.topics[id.toNat]? else none

/-! ### A call -/

/-- The request of the caller; `other` is a value that `_convert_spec` refuses. -/
inductive Req
  | nil
  | number (v : ℤ)
  | cdata (p : ℤ)
  | dpv64 (v : ℤ)
  | other
deriving DecidableEq

def convertSpec : Req → Except Dpret (Option ℤ)
  | .nil => .ok none
  | .number v | .cdata v | .dpv64 v => .ok (some v)
  | .other => .error dpeInval

def ctcArgs (t : Thread) (topic : Key) (req : Req) : Except Dpret (ℤ×ℤ) :=
  match t.topicId topic with
  | none => .error dpeInval
  | some id =>
      match convertSpec req with
      | .error e => .error e
      | .ok spec => .ok (id,spec.getD 0)

/-- What a call has come to: the handler that has run, and what `dpevp_end_ctc_` has been called with. -/
structure Served where
  ran : Option String
  reply : Option Dpret
deriving DecidableEq

/-- On the thread that a number has been sent to. A handler's value that is no int makes the call of `dpevp_end_ctc_`
itself raise an error, and nothing is answered. -/
def runCtc (t : Thread) (id v : ℤ) : Served :=
  match t.topicName id with
  | none => ⟨none,some dpeInvcmd⟩
  | some topic =>
      match t.app.get (.str topic) with
      | some (.fn fun_) =>
          match fun_ v with
          | .int ret => ⟨some topic,some ret⟩
          | .raise => ⟨some topic,some dpeIntr⟩
          | .other => ⟨some topic,none⟩
      | _ => ⟨none,some dpeInvcmd⟩

/-- `M.ctc_once` from thread `s` to thread `t`. -/
def ctcOnce (s t : Thread) (topic : Key) (req : Req) : Served :=
  match ctcArgs s topic req with
  | .error e => ⟨none,some e⟩
  | .ok (id,v) => runCtc t id v

/-- The request as the handler gets it. -/
def Req.spec (req : Req) : ℤ := ((convertSpec req).toOption.bind id).getD 0

/-- The handler that has run is the one of this very name, and its result is the reply; or the reply is an error. -/
def Answered (t : Thread) (topic : Key) (req : Req) (x : Served) : Prop :=
  ∃ r,x.reply=some r ∧
    match x.ran with
    | none => dpretIserr r
    | some name => topic=.str name ∧ ∃ f,t.app.get topic=some (.fn f) ∧
        match f req.spec with
        | .int v => r=v
        | .other | .raise => dpretIserr r

/-- The tables agree on the number of the topic, and its handler makes an int of the request or raises an error; or the
number is past the end of the target's table. -/
def agrees (s t : App) (name : String) (v : ℤ) : Prop :=
  (names t).length≤rank (names s) name ∨
    name∈names t ∧ rank (names t) name=rank (names s) name ∧ ∀ f,t.get (.str name)=some (.fn f) → f v≠.other

section Calls
variable {app s t : App} {name : String} {topic : Key} {req : Req}

theorem lookup_of_mem {l : List (Key×Value)} {k : Key} {v : Value} (hn : (l.map Prod.fst).Nodup) (h : (k,v)∈l) :
    l.lookup k=some v := by
  induction l with
  | nil => cases h
  | cons e l ih =>
    obtain ⟨hne,hn⟩ := List.nodup_cons.mp hn
    rcases List.mem_cons.mp h with rfl | h
    · exact List.lookup_cons_self
    · have hk : (k==e.1)=false := by
        rw [beq_eq_false_iff_ne]
        rintro rfl
        exact hne (List.mem_map.mpr ⟨_,h,rfl⟩)
      rw [List.lookup_cons,hk]
      exact ih hn h

theorem nameOf_iff {e : Key×Value} : nameOf e=some name ↔ topicIsHandler name ∧ ∃ f,e=(.str name,.fn f) := by
  unfold nameOf
  split
  · rename_i s f
    split
    · rename_i hs
      constructor
      · intro h
        cases h
        exact ⟨hs,f,rfl⟩
      · rintro ⟨-,g,h⟩
        cases h
        rfl
    · rename_i hs
      refine ⟨fun h => (by cases h),?_⟩
      rintro ⟨hname,g,h⟩
      cases h
      exact (hs hname).elim
  · rename_i hne
    refine ⟨fun h => (by cases h),?_⟩
    rintro ⟨-,g,rfl⟩
    exact (hne name g rfl).elim

theorem get_of_names (h : name∈names app) : ∃ f,app.get (.str name)=some (.fn f) := by
  obtain ⟨e,hin,he⟩ := List.mem_filterMap.mp h
  obtain ⟨-,f,rfl⟩ := nameOf_iff.mp he
  exact ⟨f,lookup_of_mem app.distinct hin⟩

theorem names_sublist (l : List (Key×Value)) : ((l.filterMap nameOf).map Key.str).Sublist (l.map Prod.fst) := by
  induction l with
  | nil => exact List.Sublist.refl _
  | cons e l ih =>
    cases he : nameOf e with
    | none =>
      rw [List.filterMap_cons_none he]
      exact ih.cons _
    | some name =>
      obtain ⟨-,f,rfl⟩ := nameOf_iff.mp he
      rw [List.filterMap_cons_some he]
      exact ih.cons_cons _

theorem names_nodup (app : App) : (names app).Nodup := ((names_sublist app.entries).nodup app.distinct).of_map

theorem topics_perm (app : App) : (topicBuildMap app).topics.Perm (names app) := List.perm_insertionSort ..

theorem topics_sorted (app : App) : (topicBuildMap app).topics.Pairwise (·<·) := by
  have hle := List.pairwise_insertionSort (·≤·) (names app)
  have hne := (topics_perm app).nodup_iff.mpr (names_nodup app)
  exact (List.Pairwise.and hle hne).imp fun h => lt_of_le_of_ne h.1 h.2

theorem rank_topics (app : App) (name : String) : rank (topicBuildMap app).topics name=rank (names app) name :=
  (topics_perm app).countP_eq _

theorem topicId_eq (app : App) (name : String) :
    (topicBuildMap app).topicId (.str name)=if name∈names app then some (rank (names app) name : ℤ) else none := by
  unfold Thread.topicId
  simp only
  by_cases h : name∈names app
  · have hin := (topics_perm app).mem_iff.mpr h
    rw [if_pos hin,if_pos h,idxOf_eq_rank (topics_sorted app) hin,rank_topics]
  · rw [if_neg (fun hin => h ((topics_perm app).mem_iff.mp hin)),if_neg h]

theorem topicName_iff (app : App) (name : String) (n : ℕ) :
    (topicBuildMap app).topicName n=some name ↔ name∈names app ∧ rank (names app) name=n := by
  rw [Thread.topicName,if_pos (Int.natCast_nonneg n),Int.toNat_natCast,getElem?_iff_rank (topics_sorted app),
    (topics_perm app).mem_iff,rank_topics]

theorem topicName_none (app : App) (n : ℕ) : (topicBuildMap app).topicName n=none ↔ (names app).length≤n := by
  rw [Thread.topicName,if_pos (Int.natCast_nonneg n),Int.toNat_natCast,List.getElem?_eq_none_iff,(topics_perm app).length_eq]

theorem handler_of_agrees {v : ℤ} (h : agrees s t name v) :
    (topicBuildMap t).topicName (rank (names s) name)=none ∨
      (topicBuildMap t).topicName (rank (names s) name)=some name ∧
        ∃ f,t.get (.str name)=some (.fn f) ∧ f v≠.other := by
  rcases h with hlen | ⟨hin,hrank,hint⟩
  · exact .inl ((topicName_none t _).mpr hlen)
  · obtain ⟨f,hf⟩ := get_of_names hin
    exact .inr ⟨(topicName_iff t name _).mpr ⟨hin,hrank⟩,f,hf,hint f hf⟩

theorem answered_error {t : Thread} {e : Dpret} (h : dpretIserr e) : Answered t topic req ⟨none,some e⟩ := ⟨e,rfl,h⟩

theorem answered_of_agrees (h : agrees s t name req.spec) :
    Answered (topicBuildMap t) (.str name) req (runCtc (topicBuildMap t) (rank (names s) name) req.spec) := by
  unfold runCtc
  rcases handler_of_agrees h with hnone | ⟨hname,f,hf,hint⟩
  · rw [hnone]
    exact answered_error (by decide)
  · have hget : (topicBuildMap t).app.get (.str name)=some (.fn f) := hf
    rw [hname]
    simp only [hget]
    cases hout : f req.spec with
    | int v => exact ⟨v,rfl,rfl,f,hget,by rw [hout]⟩
    | other => exact (hint hout).elim
    | raise => exact ⟨_,rfl,rfl,f,hget,by rw [hout]; decide⟩

theorem agrees_of_answered
    (h : Answered (topicBuildMap t) (.str name) req (runCtc (topicBuildMap t) (rank (names s) name) req.spec)) :
    agrees s t name req.spec := by
  unfold runCtc at h
  cases hname : (topicBuildMap t).topicName (rank (names s) name) with
  | none => exact .inl ((topicName_none t _).mp hname)
  | some name' =>
    obtain ⟨hin,hrank⟩ := (topicName_iff t name' _).mp hname
    obtain ⟨f,hf⟩ := get_of_names hin
    have hget : (topicBuildMap t).app.get (.str name')=some (.fn f) := hf
    rw [hname] at h
    simp only [hget] at h
    cases hout : f req.spec with
    | int v =>
      rw [hout] at h
      obtain ⟨r,-,heq,-⟩ := h
      cases heq
      refine .inr ⟨hin,hrank,fun g hg => ?_⟩
      cases hf.symm.trans hg
      rw [hout]
      exact Out.noConfusion
    | other =>
      rw [hout] at h
      obtain ⟨r,hr,-⟩ := h
      cases hr
    | raise =>
      rw [hout] at h
      obtain ⟨r,-,heq,-⟩ := h
      cases heq
      refine .inr ⟨hin,hrank,fun g hg => ?_⟩
      cases hf.symm.trans hg
      rw [hout]
      exact Out.noConfusion

theorem spec_ok (h : req≠.other) : ∃ spec,convertSpec req=.ok spec ∧ req.spec=spec.getD 0 := by
  cases req with
  | nil | number _ | cdata _ | dpv64 _ => exact ⟨_,rfl,rfl⟩
  | other => exact (h rfl).elim

/-- For every two module tables and every value that is submitted as a topic. -/
theorem ctc_topic : Answered (topicBuildMap t) topic req (ctcOnce (topicBuildMap s) (topicBuildMap t) topic req) ↔
    (req≠.other → ∀ name∈names s,topic=.str name → agrees s t name req.spec) := by
  unfold ctcOnce ctcArgs
  cases topic with
  | other n => exact iff_of_true (answered_error (by decide)) (fun _ _ _ h => (by cases h))
  | str name =>
    rw [topicId_eq]
    by_cases hin : name∈names s
    · rw [if_pos hin]
      by_cases hreq : req=.other
      · subst hreq
        exact iff_of_true (answered_error (by decide)) fun h => (h rfl).elim
      · obtain ⟨spec,hspec,hv⟩ := spec_ok hreq
        simp only [hspec,← hv]
        constructor
        · intro h _ name' _ heq
          cases heq
          exact agrees_of_answered h
        · intro h
          exact answered_of_agrees (h hreq name hin rfl)
    · rw [if_neg hin]
      refine iff_of_true (answered_error (by decide)) fun _ name' hin' heq => ?_
      cases heq
      exact (hin hin').elim

end Calls

def constant (k : String×ℤ) : Key×Value := (.str k.1,.fn fun _ => .int k.2)

/-- A module whose handlers answer with a number each. -/
def table (ks : List (String×ℤ)) (h : ((ks.map constant).map Prod.fst).Nodup) : App := ⟨ks.map constant,h⟩

/-- The worker has registered one more handler, of an earlier name. -/
theorem ctc_topic_shifted : ¬∀ (s t : App) (topic : Key) (req : Req),
    Answered (topicBuildMap t) topic req (ctcOnce (topicBuildMap s) (topicBuildMap t) topic req) := by
  intro hall
  obtain ⟨r,-,heq,-⟩ := hall (table [("get",1)] (by decide)) (table [("del",2),("get",1)] (by decide)) (.str "get") .nil
  change Key.str "get"=Key.str "del" at heq
  exact absurd heq (by decide)

end Dpapp.LuaTopic
