import Dpapp.EngineFrame

/-! # Accepted connections and streams (dpqic.c)

The listeners and connections of one thread over its engine: `_dpqic_accept_prep`, `_dpqic_stream_prep` and the
callbacks lsquic announces connections and streams with. -/

set_option linter.unusedSectionVars false

namespace Dpapp.QicAccept
open Dpapp.Machine Dpapp.Ret Dpapp.EfdWake Dpapp.Engine Dpapp.EngineFrame
open Dpapp.CtcChannel (deqPushBack)
open Dpapp.EngineQueues (count_deqPushBack count_rbInsert)

variable {κ : Type*} [LinearOrder κ]

def dpeClosed : Dpret := -154

inductive Role | listen | conect
  deriving DecidableEq

/-- A new connection or stream, and whether it is a stream that has been opened on this side. -/
abbrev Item (κ : Type*) := κ × Bool

/- `_dpqic_listen_t` and `_dpqic_conect_t`: `conn` tells whether uconn->conn is set, `out` is out_conn or out_stm,
which points to the result variable of an operation, and `ready` the queue between ready_conn_head or
ready_stm_head and its tail. `var` are the result variables. History: the number of operations so far, which of
them open a stream, the one that is going on, what has been announced, what has been stored for whom, and what
dpevp_pop has returned. -/
structure Port (κ : Type*) where
  role : Role
  conn : Bool := true
  out : Option ℕ := none
  ready : List (Item κ) := []
  var : ℕ → Option κ := fun _ => none
  ops : ℕ := 0
  opens : ℕ → Bool := fun _ => false
  cur : Option ℕ := none
  came : List (Item κ) := []
  given : List (ℕ × Item κ) := []
  done : List (ℕ × Dpret × Option κ) := []

structure Qic (κ : Type*) where
  evp : Dpevp κ := {}
  port : κ → Option (Port κ) := fun _ => none

def Qic.setPort (l : Qic κ) (k : κ) (p : Option (Port κ)) : Qic κ := {l with port := Function.update l.port k p}

/-- dpqic_accept and dpqic_stream -/
def dpqicAsc : Asc := ⟨fun kind aio => decide (kind=.usd) && aio,false,false,fun h => by cases h⟩

/-! ### The prep functions -/

def Port.begin (p : Port κ) (new_ : Bool) : Port κ :=
  {p with ops := p.ops+1, opens := Function.update p.opens p.ops new_, cur := some p.ops}

/-- `*out=x` -/
def Port.store (p : Port κ) (n : ℕ) (x : Item κ) : Port κ :=
  {p with var := Function.update p.var n (some x.1), given := p.given++[(n,x)]}

/-- `_dpqic_accept_prep` of operation `n`. -/
def dpqicAcceptPrep (p : Port κ) (n : ℕ) : Port κ × Dpret :=
  match p.ready with
  | [] => ({p with out := some n},dpeContinue)
  | x::ready => ({p with ready := ready}.store n x,dpeOk)

/-- `_dpqic_stream_prep`, up to lsquic_conn_make_stream where it calls it. -/
def dpqicStreamPrep (p : Port κ) (n : ℕ) (new_ : Bool) : Port κ × Option Dpret :=
  if p.conn=false then (p,some dpePerm)
  else
    let p := {p with var := Function.update p.var n none}
    if new_ then ({p with out := some n},none)
    else ((dpqicAcceptPrep p n).1,some (dpqicAcceptPrep p n).2)

/-- `_dpqic_stream_prep` after lsquic_conn_make_stream. -/
def streamMade (p : Port κ) : Dpret := if p.out=none then dpeOk else dpeContinue

/-- The operation is over before dpevp_add returns. -/
def Port.refuse (p : Port κ) : Port κ := {p with cur := none}

/-! ### The callbacks of lsquic -/

/-- `_dpqic_cb_on_new_conn`, `_dpqic_cb_on_new_stream`: whether it calls dpevp_end. -/
def onNew (p : Port κ) (x : Item κ) : Port κ × Bool :=
  let p := {p with came := p.came++[x]}
  match p.out with
  | some n => ({p with out := none}.store n x,true)
  | none => ({p with ready := p.ready++[x]},false)

/-- `_dpqic_cb_on_conn_closed` -/
def onConnClosed (p : Port κ) : Port κ := {p with out := none, conn := false}

/-- dpevp_pop has completed the operation; a deleted element is not returned. -/
def Port.finish (p : Port κ) (ret : Dpret) (alive : Bool) : Port κ :=
  {p with cur := none, done := p.done++if alive then (p.cur.map fun n => (n,ret,p.var n)).toList else []}

inductive Act (κ : Type*)
  | new (k : κ) (role : Role)
  | accept (k : κ) (now : ℤ)
  | stream (k : κ) (new_ : Bool) (now : ℤ)
  | made (k : κ) (now : ℤ)
  | announce (k : κ) (x : Item κ)
  | closed (k : κ)
  | engine (a : Engine.Act κ)

/-- An engine step that the application or the loop makes. -/
def free (l : Qic κ) : Engine.Act κ → Bool
  | .add k _ => (l.port k).isNone
  | .prepRet ret out now => (subject l.evp (.prepRet ret out now)).all fun k => (l.port k).isNone
  | a => hasRef l.evp a

/-- After a step of the engine. -/
def settle (l : Qic κ) (a : Engine.Act κ) (t : Dpevp κ) : Qic κ :=
  let l' := {l with evp := t}
  match a with
  | .new k .. | .dup _ k _ => l'.setPort k none
  | a =>
      match overDone l.evp t a with
      | some k => l'.setPort k ((l.port k).map fun p => p.finish (t.ele k).ret ((t.ele k).refc≠0))
      | none => l'

/-- dpevp_add up to the prep function: none in the second place where it returns DPE_PERM before. -/
def addQic (l : Qic κ) (k : κ) (p : Port κ) (new_ : Bool) : Option (Qic κ × Option (Port κ)) :=
  (Engine.step l.evp (.add k dpqicAsc)).map fun s =>
    ({l with evp := s},if dpeleIsDoing (l.evp.ele k) then none else some (p.begin new_))

/-- The prep function has returned. -/
def prepDone (l : Qic κ) (k : κ) (p : Port κ) (ret : Dpret) (now : ℤ) : Option (Qic κ) :=
  (Engine.step l.evp (.prepRet ret {} now)).map fun s =>
    {l with evp := s}.setPort k (some (if dpretIserr ret ∧ ret≠dpeContinue then p.refuse else p))

/-- Nothing in the engine refers to the memory. -/
def unused (s : Dpevp κ) (k : κ) : Prop := k∉s.timer ∧ k∉s.ready ∧ frames s k=[]

instance (s : Dpevp κ) (k : κ) : Decidable (unused s k) :=
  decidable_of_iff (k∉s.timer ∧ k∉s.ready ∧ (frames s k).isEmpty=true)
    (and_congr_right fun _ => and_congr_right fun _ => List.isEmpty_iff)

def step (l : Qic κ) : Act κ → Option (Qic κ)
  | .new k role =>
      if unused l.evp k then
        (Engine.step l.evp (.new k .usd true true [] true)).map fun s =>
          {l with evp := s}.setPort k (some {role := role})
      else none
  | .accept k now =>
      match l.port k with
      | some p =>
          if p.role=.listen then
            (addQic l k p false).bind fun (l,p?) => p?.elim (some l) fun p' =>
              prepDone l k (dpqicAcceptPrep p' p.ops).1 (dpqicAcceptPrep p' p.ops).2 now
          else none
      | none => none
  | .stream k new_ now =>
      match l.port k with
      | some p =>
          if p.role=.conect then
            (addQic l k p new_).bind fun (l,p?) => p?.elim (some l) fun p' =>
              match dpqicStreamPrep p' p.ops new_ with
              | (q,some ret) => prepDone l k q ret now
              | (q,none) => some (l.setPort k (some q))
          else none
      | none => none
  | .made k now =>
      match l.port k with
      | some p => if subject l.evp (.prepRet 0 {} now)=some k then prepDone l k p (streamMade p) now else none
      | none => none
  | .announce k x =>
      match l.port k with
      | some p =>
          if (l.evp.dels=[] ∧ l.evp.alive k=true) ∧ (p.role=.listen → x.2=false) ∧ p.conn=true then
            if (onNew p x).2 then
              (Engine.step l.evp (.end_ k dpeOk)).map fun s => {l with evp := s}.setPort k (some (onNew p x).1)
            else some (l.setPort k (some (onNew p x).1))
          else none
      | none => none
  | .closed k =>
      match l.port k with
      | some p =>
          if p.role=.conect ∧ p.conn=true then
            (Engine.step l.evp (.end_ k dpeClosed)).map fun s => {l with evp := s}.setPort k (some (onConnClosed p))
          else none
      | none => none
  | .engine a => if free l a=true then (Engine.step l.evp a).map (settle l a) else none

/-! ### Who has got what -/

/-- How far the operation of a listener or connection has come: `failed` has ended without an item. -/
inductive Stage | idle | waiting (n : ℕ) | got (n : ℕ) | failed (n : ℕ)

def Stage.op : Stage → Option ℕ
  | .idle => none
  | .waiting n | .got n | .failed n => some n

def Stage.out : Stage → Option ℕ
  | .waiting n => some n
  | .idle | .got _ | .failed _ => none

/-- Every item is in one place: with the operation it has been stored for, or in the queue. -/
structure Ledger (p : Port κ) (st : Stage) : Prop where
  out : p.out=st.out
  cur : p.cur=st.op
  peers : p.came.filter (·.2=false)=(p.given.map Prod.snd).filter (·.2=false)++p.ready
  locals : p.came.filter (·.2=true)=(p.given.map Prod.snd).filter (·.2=true)
  empty : ∀ n,st=.waiting n → p.opens n=false → p.ready=[]
  kinds : ∀ n x,(n,x)∈p.given → x.2=p.opens n
  nodup : (p.given.map Prod.fst).Nodup
  givenLt : ∀ n x,(n,x)∈p.given → n<p.ops
  curLt : ∀ n∈st.op,n<p.ops
  doneLt : ∀ n r v,(n,r,v)∈p.done → n<p.ops
  notDone : ∀ n∈st.op,∀ r v,(n,r,v)∉p.done
  fresh : ∀ n,st=.waiting n ∨ st=.failed n → ∀ x,(n,x)∉p.given
  settled : ∀ n x,(n,x)∈p.given → (st=.got n ∧ p.var n=some x.1) ∨ ∃ r,(n,r,some x.1)∈p.done ∧ dpretIsok r
  kept : ∀ n,st=.got n → ∃ x,(n,x)∈p.given
  done : ∀ n r v,(n,r,v)∈p.done → dpretIsok r → ∃ x,(n,x)∈p.given ∧ v=some x.1

section Ledgers
variable {p : Port κ} {n : ℕ} {st : Stage} {x : Item κ}

theorem ledger_start (role : Role) : Ledger ({role := role} : Port κ) .idle := by
  constructor <;> simp [Stage.out,Stage.op]

theorem ledger_begin (h : Ledger p .idle) (b : Bool) : Ledger (p.begin b) (.failed p.ops) where
  out := h.out
  cur := rfl
  peers := h.peers
  locals := h.locals
  empty m hm := by cases hm
  kinds m x hx := by
    have hlt := h.givenLt m x hx
    simpa [Port.begin,hlt.ne] using h.kinds m x hx
  nodup := h.nodup
  givenLt m x hx := Nat.lt_succ_of_lt (h.givenLt m x hx)
  curLt m hm := by
    cases hm
    exact Nat.lt_succ_self _
  doneLt m r v hm := Nat.lt_succ_of_lt (h.doneLt m r v hm)
  notDone m hm r v hd := by
    cases hm
    exact (h.doneLt _ r v hd).ne rfl
  fresh m hm x hx := by
    rcases hm with hm | hm
    · cases hm
    · cases hm
      exact (h.givenLt _ x hx).ne rfl
  settled m x hx := by
    rcases h.settled m x hx with ⟨hgot,-⟩ | hdone
    · cases hgot
    · exact .inr hdone
  kept m hm := by cases hm
  done := h.done

theorem ledger_refuse (h : Ledger p (.failed n)) : Ledger p.refuse .idle where
  out := h.out
  cur := rfl
  peers := h.peers
  locals := h.locals
  empty m hm := by cases hm
  kinds := h.kinds
  nodup := h.nodup
  givenLt := h.givenLt
  curLt m hm := by cases hm
  doneLt := h.doneLt
  notDone m hm := by cases hm
  fresh m hm := by rcases hm with hm | hm <;> cases hm
  settled m x hx := by
    rcases h.settled m x hx with ⟨hgot,-⟩ | hdone
    · cases hgot
    · exact .inr hdone
  kept m hm := by cases hm
  done := h.done

theorem ledger_reset (h : Ledger p (.failed n)) : Ledger {p with var := Function.update p.var n none} (.failed n) where
  out := h.out
  cur := h.cur
  peers := h.peers
  locals := h.locals
  empty m hm := by cases hm
  kinds := h.kinds
  nodup := h.nodup
  givenLt := h.givenLt
  curLt := h.curLt
  doneLt := h.doneLt
  notDone := h.notDone
  fresh := h.fresh
  settled m x hx := by
    rcases h.settled m x hx with ⟨hgot,-⟩ | hdone
    · cases hgot
    · exact .inr hdone
  kept m hm := by cases hm
  done := h.done

theorem ledger_wait (h : Ledger p (.failed n)) (hempty : p.opens n=false → p.ready=[]) :
    Ledger {p with out := some n} (.waiting n) where
  out := rfl
  cur := h.cur
  peers := h.peers
  locals := h.locals
  empty m hm := by
    cases hm
    exact hempty
  kinds := h.kinds
  nodup := h.nodup
  givenLt := h.givenLt
  curLt := h.curLt
  doneLt := h.doneLt
  notDone := h.notDone
  fresh m hm := by
    rcases hm with hm | hm
    · cases hm
      exact h.fresh n (.inr rfl)
    · cases hm
  settled m x hx := by
    rcases h.settled m x hx with ⟨hgot,-⟩ | hdone
    · cases hgot
    · exact .inr hdone
  kept m hm := by cases hm
  done := h.done

/-- Storing an item, once the queue and the announcements account for it. -/
theorem ledger_store (came ready : List (Item κ)) (h : Ledger p st) (hst : st=.waiting n ∨ st=.failed n)
    (hx : x.2=p.opens n) (hpeers : came.filter (·.2=false)=
      (p.given.map Prod.snd).filter (·.2=false)++(if x.2 then [] else [x])++ready)
    (hlocals : came.filter (·.2=true)=(p.given.map Prod.snd).filter (·.2=true)++(if x.2 then [x] else [])) :
    Ledger ({p with came := came, out := none, ready := ready}.store n x) (.got n) where
  out := rfl
  cur := by
    refine h.cur.trans ?_
    rcases hst with rfl | rfl <;> rfl
  peers := by
    refine hpeers.trans ?_
    cases hb : x.2 <;> simp [Port.store,hb]
  locals := by
    refine hlocals.trans ?_
    cases hb : x.2 <;> simp [Port.store,hb]
  empty m hm := by cases hm
  kinds m y hy := by
    rcases List.mem_append.mp hy with hy | hy
    · exact h.kinds m y hy
    · cases List.mem_singleton.mp hy
      exact hx
  nodup := by
    change ((p.given++[(n,x)]).map Prod.fst).Nodup
    rw [List.map_append]
    refine List.Nodup.append h.nodup (List.nodup_singleton _) fun m hm hm' => ?_
    obtain ⟨⟨i,y⟩,hy,rfl⟩ := List.mem_map.mp hm
    rw [List.map_singleton,List.mem_singleton] at hm'
    cases hm'
    exact h.fresh n hst y hy
  givenLt m y hy := by
    rcases List.mem_append.mp hy with hy | hy
    · exact h.givenLt m y hy
    · cases List.mem_singleton.mp hy
      refine h.curLt n ?_
      rcases hst with rfl | rfl <;> rfl
  curLt m hm := by
    cases hm
    refine h.curLt n ?_
    rcases hst with rfl | rfl <;> rfl
  doneLt := h.doneLt
  notDone m hm := by
    cases hm
    refine h.notDone n ?_
    rcases hst with rfl | rfl <;> rfl
  fresh m hm := by rcases hm with hm | hm <;> cases hm
  settled m y hy := by
    rcases List.mem_append.mp hy with hy | hy
    · rcases h.settled m y hy with ⟨rfl,-⟩ | hdone
      · rcases hst with hst | hst <;> cases hst
      · exact .inr hdone
    · cases List.mem_singleton.mp hy
      exact .inl ⟨rfl,by simp [Port.store]⟩
  kept m hm := by
    cases hm
    exact ⟨x,List.mem_append_right _ (List.mem_singleton_self _)⟩
  done m r v hm hr := by
    obtain ⟨y,hy,hv⟩ := h.done m r v hm hr
    exact ⟨y,List.mem_append_left _ hy,hv⟩

theorem ledger_queue (h : Ledger p st) (hout : p.out=none) (hx : x.2=false) :
    Ledger {p with came := p.came++[x], ready := p.ready++[x]} st where
  out := h.out
  cur := h.cur
  peers := by
    rw [List.filter_append,h.peers]
    simp [hx]
  locals := by
    rw [List.filter_append,h.locals]
    simp [hx]
  empty m hm := by
    rw [h.out,hm] at hout
    cases hout
  kinds := h.kinds
  nodup := h.nodup
  givenLt := h.givenLt
  curLt := h.curLt
  doneLt := h.doneLt
  notDone := h.notDone
  fresh := h.fresh
  settled := h.settled
  kept := h.kept
  done := h.done

theorem ledger_fail (h : Ledger p (.waiting n)) : Ledger (onConnClosed p) (.failed n) where
  out := rfl
  cur := h.cur
  peers := h.peers
  locals := h.locals
  empty m hm := by cases hm
  kinds := h.kinds
  nodup := h.nodup
  givenLt := h.givenLt
  curLt := h.curLt
  doneLt := h.doneLt
  notDone := h.notDone
  fresh m hm := by
    rcases hm with hm | hm
    · cases hm
    · cases hm
      exact h.fresh n (.inl rfl)
  settled m x hx := by
    rcases h.settled m x hx with ⟨hgot,-⟩ | hdone
    · cases hgot
    · exact .inr hdone
  kept m hm := by cases hm
  done := h.done

theorem ledger_close (h : Ledger p .idle) : Ledger (onConnClosed p) .idle :=
  ⟨rfl,h.cur,h.peers,h.locals,h.empty,h.kinds,h.nodup,h.givenLt,h.curLt,h.doneLt,h.notDone,h.fresh,h.settled,h.kept,h.done⟩

/-- An operation that has got an item is returned with it, one that has not is returned with an error. -/
theorem ledger_finish {r : Dpret} (h : Ledger p st) (hst : (∃ n,st=.got n) ∧ dpretIsok r ∨ (∃ n,st=.failed n) ∧ ¬dpretIsok r) :
    Ledger (p.finish r true) .idle := by
  have hdone : ∃ n,st.op=some n ∧ (p.finish r true).done=p.done++[(n,r,p.var n)] := by
    rcases hst with ⟨⟨n,rfl⟩,-⟩ | ⟨⟨n,rfl⟩,-⟩
    · exact ⟨n,rfl,by simp [Port.finish,h.cur,Stage.op]⟩
    · exact ⟨n,rfl,by simp [Port.finish,h.cur,Stage.op]⟩
  obtain ⟨n,hop,hdone⟩ := hdone
  refine ⟨?_,rfl,h.peers,h.locals,fun m hm => (by cases hm),h.kinds,h.nodup,h.givenLt,fun m hm => (by cases hm),fun m q v hm => ?_,
    fun m hm => (by cases hm),fun m hm => (by rcases hm with hm | hm <;> cases hm),fun m x hx => .inr ?_,fun m hm => (by cases hm),fun m q v hm hq => ?_⟩
  · rw [show (p.finish r true).out=p.out from rfl,h.out]
    rcases hst with ⟨⟨n,rfl⟩,-⟩ | ⟨⟨n,rfl⟩,-⟩ <;> rfl
  · rw [hdone] at hm
    rcases List.mem_append.mp hm with hm | hm
    · exact h.doneLt m q v hm
    · cases List.mem_singleton.mp hm
      exact h.curLt n hop
  · rw [hdone]
    rcases h.settled m x hx with ⟨rfl,hvar⟩ | ⟨q,hq,hok⟩
    · rcases hst with ⟨-,hok⟩ | ⟨⟨_,hno⟩,-⟩
      · cases hop
        exact ⟨r,List.mem_append_right _ (by rw [hvar]; exact List.mem_singleton_self _),hok⟩
      · cases hno
    · exact ⟨q,List.mem_append_left _ hq,hok⟩
  · rw [hdone] at hm
    rcases List.mem_append.mp hm with hm | hm
    · exact h.done m q v hm hq
    · cases List.mem_singleton.mp hm
      rcases hst with ⟨⟨i,rfl⟩,-⟩ | ⟨-,hno⟩
      · cases hop
        obtain ⟨x,hx⟩ := h.kept n rfl
        rcases h.settled n x hx with ⟨-,hvar⟩ | ⟨q,hq,hok⟩
        · exact ⟨x,hx,hvar⟩
        · exact (h.notDone n rfl q _ hq).elim
      · exact (hno hq).elim

end Ledgers

/-! ### Where the engine has the element -/

def Stage.ended : Stage → ℕ
  | .got _ | .failed _ => 1
  | .idle | .waiting _ => 0

def Stage.result : Stage → Dpret → Prop
  | .got _,r => dpretIsok r
  | .failed _,r => ¬dpretIsok r
  | .idle,_ | .waiting _,_ => True

structure Stands (s : Dpevp κ) (k : κ) (st : Stage) : Prop where
  kind : (s.ele k).kind=.usd
  aio : (s.ele k).aio=true
  want : (s.ele k).efd.want=∅
  timing : s.timer.count k=if (s.ele k).isTiming then 1 else 0
  doing : dpeleIsDoing (s.ele k)=st.op.isSome
  timer : st.out=none → s.timer.count k=0
  ready : s.ready.count k=st.ended
  frames : frames s k=[] ∨ frames s k=[.prep k] ∧ (∃ n,st=.waiting n ∨ st=.got n) ∧ s.timer.count k=0
  result : st.result (s.ele k).ret
  refc : st.op.isSome=true → 0<(s.ele k).refc

section Engine
variable {s t : Dpevp κ} {k : κ} {n : ℕ} {st : Stage}

theorem Stands.apart (h : Stands s k st) (ha : Apart s t k) : Stands t k st := by
  obtain ⟨kind,aio,want,timing,doing,timer,ready,frames,result,refc⟩ := h
  refine ⟨?_,?_,?_,?_,?_,?_,?_,?_,?_,?_⟩
  all_goals simp only [ha.ele,ha.timer,ha.ready,ha.frames]; assumption

/-- The parts of the element that only memory and the application look at may change. -/
theorem Stands.plain {e : Ele κ} (h : Stands s k st) (h1 : e.kind=(s.ele k).kind) (h2 : e.aio=(s.ele k).aio)
    (h3 : e.efd.want=(s.ele k).efd.want) (h4 : e.isTiming=(s.ele k).isTiming) (h5 : e.asc=(s.ele k).asc)
    (h6 : e.ret=(s.ele k).ret) (h7 : st.op.isSome=true → 0<e.refc) : Stands (s.setEle k e) k st := by
  have hele : (s.setEle k e).ele k=e := by simp [Dpevp.setEle]
  refine ⟨?_,?_,?_,?_,?_,h.timer,h.ready,h.frames,?_,?_⟩
  all_goals rw [hele]
  · exact h1.trans h.kind
  · exact h2.trans h.aio
  · exact h3.trans h.want
  · rw [h4]
    exact h.timing
  · rw [dpeleIsDoing,h5]
    exact h.doing
  · rw [h6]
    exact h.result
  · exact h7

theorem frames_idle (h : Stands s k .idle) : frames s k=[] := by
  rcases h.frames with hf | ⟨-,⟨n,hn | hn⟩,-⟩
  · exact hf
  · cases hn
  · cases hn

theorem stands_new (h : Engine.step s (.new k .usd true true [] true)=some t) (hu : unused s k) : Stands t k .idle := by
  obtain ⟨htimer,hready,hframes⟩ := hu
  simp only [Engine.step] at h
  split at h
  · rw [if_pos trivial] at h
    cases h
    refine ⟨?_,?_,?_,?_,?_,fun _ => List.count_eq_zero.mpr htimer,List.count_eq_zero.mpr hready,.inl hframes,trivial,?_⟩
    all_goals simp [alloc,dpeleIsDoing,Stage.op]
    exact List.count_eq_zero.mpr htimer
  · cases h

theorem add_doing (h : Stands s k st) (hdoing : dpeleIsDoing (s.ele k)=true)
    (ht : Engine.step s (.add k dpqicAsc)=some t) : t=s := by
  simp only [Engine.step] at ht
  split at ht
  · rw [if_neg (by simp [dpqicAsc,h.kind,h.aio]),if_pos ⟨hdoing,rfl⟩] at ht
    exact (Option.some.inj ht).symm
  · cases ht

theorem stands_add (h : Stands s k .idle) (ht : Engine.step s (.add k dpqicAsc)=some t) (n : ℕ) :
    Stands t k (.waiting n) ∧ ∀ ret now,subject t (.prepRet ret {} now)=some k := by
  simp only [Engine.step] at ht
  split at ht
  · rename_i howns
    have htypes : dpqicAsc.types (s.ele k).kind (s.ele k).aio≠false := by simp [dpqicAsc,h.kind,h.aio]
    have hidle : ¬(dpeleIsDoing (s.ele k)=true ∧ dpqicAsc.allowDoing=false) := by
      rw [h.doing]
      simp [Stage.op]
    rw [if_neg htypes,if_neg hidle] at ht
    cases ht
    have hframes := frames_idle h
    have hpush : frames ({s.setEle k {s.ele k with asc := some dpqicAsc} with stack := .prep k::s.stack} : Dpevp κ) k=
        [.prep k] := by
      rw [EngineFrame.frames,List.filter_cons_of_pos (by simp [Frame.key])]
      exact congrArg _ hframes
    have hele : ({s.setEle k {s.ele k with asc := some dpqicAsc} with stack := .prep k::s.stack} : Dpevp κ).ele k=
        {s.ele k with asc := some dpqicAsc} := by simp [Dpevp.setEle]
    refine ⟨⟨?_,?_,?_,?_,?_,fun hn => (by cases hn),h.ready,.inr ⟨hpush,⟨n,.inl rfl⟩,h.timer rfl⟩,trivial,?_⟩,fun _ _ => rfl⟩
    all_goals rw [hele]
    · exact h.kind
    · exact h.aio
    · exact h.want
    · exact h.timing
    · rfl
    · exact fun _ => howns.2.2
  · cases ht

theorem remove_spec (htiming : s.timer.count k=if (s.ele k).isTiming then 1 else 0) :
    (dptmrsetRemove s k).ele k={s.ele k with isTiming := false} ∧ (dptmrsetRemove s k).timer.count k=0 ∧
      (dptmrsetRemove s k).ready=s.ready ∧ (dptmrsetRemove s k).stack=s.stack := by
  unfold dptmrsetRemove
  split
  · rename_i hon
    rw [if_pos hon] at htiming
    exact ⟨by simp [Dpevp.setEle],by simp [htiming],rfl,rfl⟩
  · rename_i hoff
    rw [if_neg hoff] at htiming
    refine ⟨?_,htiming,rfl,rfl⟩
    rw [← Bool.eq_false_iff.mpr hoff]

/-- dpevp_end of an element that is doing. -/
theorem end_spec {r : Dpret} (ht : Engine.step s (.end_ k r)=some t) (hdoing : dpeleIsDoing (s.ele k)=true)
    (hkind : (s.ele k).kind=.usd) (htiming : s.timer.count k=if (s.ele k).isTiming then 1 else 0) :
    t.ele k={s.ele k with isTiming := false, ret := r} ∧ t.timer.count k=0 ∧
      t.ready=deqPushBack s.ready k ∧ frames t k=frames s k := by
  obtain ⟨hele,htimer,hready,hstack⟩ := remove_spec htiming
  simp only [Engine.step] at ht
  split at ht
  · cases ht
    refine ⟨?_,htimer,congrArg (deqPushBack · k) hready,congrArg (List.filter _) hstack⟩
    simp [Dpevp.setEle,Dpevp.setPending,hele,hkind]
  · cases ht

/-- dpevp_end of an operation that waits. -/
theorem stands_end {r : Dpret} {st' : Stage} (h : Stands s k (.waiting n)) (ht : Engine.step s (.end_ k r)=some t)
    (hst : st'=.got n ∧ dpretIsok r ∨ st'=.failed n ∧ ¬dpretIsok r ∧ frames s k=[]) : Stands t k st' := by
  obtain ⟨hele,htimer,hready,hframes⟩ := end_spec ht h.doing h.kind h.timing
  have hready0 : s.ready.count k=0 := h.ready
  have hcount : t.ready.count k=1 := by
    rw [hready,count_deqPushBack,if_pos ⟨rfl,hready0⟩]
  have hop : st'.op=some n ∧ st'.out=none ∧ st'.ended=1 ∧ st'.result r := by
    rcases hst with ⟨rfl,hr⟩ | ⟨rfl,hr,-⟩ <;> exact ⟨rfl,rfl,rfl,hr⟩
  obtain ⟨hop,-,hended,hresult⟩ := hop
  refine ⟨?_,?_,?_,?_,?_,fun _ => htimer,hcount.trans hended.symm,?_,?_,fun _ => ?_⟩
  · rw [hele]
    exact h.kind
  · rw [hele]
    exact h.aio
  · rw [hele]
    exact h.want
  · rw [hele,htimer]
    rfl
  · rw [hele,hop]
    exact h.doing
  · rw [hframes]
    rcases hst with ⟨rfl,-⟩ | ⟨rfl,-,hnil⟩
    · rcases h.frames with hf | ⟨hf,-⟩
      · exact .inl hf
      · exact .inr ⟨hf,⟨n,.inr rfl⟩,htimer⟩
    · exact .inl hnil
  · rw [hele]
    exact hresult
  · rw [hele]
    exact h.refc rfl

/-- dpevp_end of an operation that has got its item, or of an idle element. -/
theorem stands_endAgain {r : Dpret} (h : Stands s k st) (ht : Engine.step s (.end_ k r)=some t)
    (hst : st=.idle ∨ (∃ n,st=.got n ∨ st=.failed n) ∧ st.result r) : Stands t k st := by
  rcases hst with rfl | ⟨⟨n,hn⟩,hr⟩
  · simp only [Engine.step] at ht
    split at ht
    · rw [if_neg (by rw [h.doing]; decide)] at ht
      cases ht
      exact h
    · cases ht
  · have hop : st.op.isSome=true ∧ st.ended=1 := by rcases hn with rfl | rfl <;> exact ⟨rfl,rfl⟩
    have hdoing : dpeleIsDoing (s.ele k)=true := h.doing.trans hop.1
    obtain ⟨hele,htimer,hready,hframes⟩ := end_spec ht hdoing h.kind h.timing
    have hready1 : s.ready.count k=1 := h.ready.trans hop.2
    refine ⟨?_,?_,?_,?_,?_,fun _ => htimer,?_,?_,?_,fun _ => ?_⟩
    · rw [hele]
      exact h.kind
    · rw [hele]
      exact h.aio
    · rw [hele]
      exact h.want
    · rw [hele,htimer]
      rfl
    · rw [hele,hop.1]
      exact hdoing
    · rw [hready,count_deqPushBack,if_neg (by rw [hready1]; simp)]
      exact h.ready
    · rw [hframes]
      exact h.frames.imp_right fun hf => ⟨hf.1,hf.2.1,htimer⟩
    · rw [hele]
      exact hr
    · rw [hele]
      exact h.refc hop.1

theorem not_timing (htiming : s.timer.count k=if (s.ele k).isTiming then 1 else 0) (h0 : s.timer.count k=0) :
    (s.ele k).isTiming=false := by
  refine Bool.eq_false_iff.mpr fun hon => ?_
  rw [if_pos hon,h0] at htiming
  cases htiming

/-- The timer of an element that has none may start. -/
theorem upsert_spec (now : ℤ) (hoff : (s.ele k).isTiming=false) (h0 : s.timer.count k=0) :
    ∃ spec b,(dptmrsetUpsert s k now).ele k={s.ele k with spec := spec, isTiming := b} ∧
      (dptmrsetUpsert s k now).timer.count k=(if b then 1 else 0) ∧ (dptmrsetUpsert s k now).ready=s.ready ∧
      (dptmrsetUpsert s k now).stack=s.stack := by
  have hnone : k∉s.timer := List.count_eq_zero.mp h0
  unfold dptmrsetUpsert
  split
  · exact ⟨(s.ele k).spec,false,by rw [← hoff],h0,rfl,rfl⟩
  · rename_i x _
    split
    · exact ⟨(s.ele k).spec,false,by rw [← hoff],h0,rfl,rfl⟩
    · refine ⟨some {x with expire := now+x.after},true,?_⟩
      simp [Dpevp.setEle,hoff,hnone,count_rbInsert,h0]

/-- The prep function of a listener or connection returns. -/
theorem stands_prepRet {r : Dpret} {now : ℤ} {st' : Stage} (h : Stands s k st)
    (ht : Engine.step s (.prepRet r {} now)=some t) (hk : subject s (.prepRet r {} now)=some k)
    (hst : (r=dpeOk ∧ (st=.waiting n ∨ st=.got n) ∧ st'=.got n) ∨ (r=dpeContinue ∧ st=.waiting n ∧ st'=.waiting n) ∨
      (r=dpePerm ∧ st=.waiting n ∧ st'=.idle)) : Stands t k st' := by
  simp only [Engine.step] at ht
  split at ht
  · rename_i j stack hstack
    have hjk : j=k := by simpa [subject,hstack,Frame.key] using hk
    subst hjk
    have hprep : frames s j=.prep j::stack.filter (·.key=j) := by
      rw [EngineFrame.frames,hstack]
      exact List.filter_cons_of_pos (by simp [Frame.key])
    obtain ⟨hnil,htimer0⟩ : stack.filter (·.key=j)=[] ∧ s.timer.count j=0 := by
      rcases h.frames with hf | ⟨hf,-,h0⟩
      · rw [hprep] at hf
        cases hf
      · rw [hprep] at hf
        injection hf with _ hf
        exact ⟨hf,h0⟩
    have hoff := not_timing h.timing htimer0
    have hop : st.op=some n := by
      rcases hst with ⟨-,rfl | rfl,-⟩ | ⟨-,rfl,-⟩ | ⟨-,rfl,-⟩ <;> rfl
    have hdoing : dpeleIsDoing (s.ele j)=true := by rw [h.doing,hop]; rfl
    have hrefc : 0<(s.ele j).refc := h.refc (by rw [hop]; rfl)
    split at ht
    · rcases hst with ⟨rfl,hst,rfl⟩ | ⟨rfl,rfl,rfl⟩ | ⟨rfl,rfl,rfl⟩
      · rw [if_pos (by decide)] at ht
        cases ht
        simp only [addFinish,if_pos (show dpretIsok dpeOk by decide)]
        have hele : (({s with stack := stack}.setEle j {s.ele j with ret := dpeOk}).ele j)={s.ele j with ret := dpeOk} := by
          simp [Dpevp.setEle]
        refine ⟨?_,?_,?_,?_,?_,fun _ => htimer0,?_,.inl hnil,?_,fun _ => ?_⟩
        all_goals simp only [Dpevp.setPending,hele]
        · exact h.kind
        · exact h.aio
        · exact h.want
        · exact h.timing
        · exact hdoing
        · rw [count_deqPushBack]
          rcases hst with rfl | rfl
          · rw [if_pos ⟨rfl,h.ready⟩]
            rfl
          · have hready1 : s.ready.count j=1 := h.ready
            rw [if_neg (by simp [hready1])]
            exact hready1
        · exact (by decide : dpretIsok dpeOk)
        · exact hrefc
      · rw [if_neg (by simp),if_neg (by rw [h.kind]; decide)] at ht
        cases ht
        simp only [addFinish,if_neg (show ¬dpretIsok dpeWait by decide),if_true]
        obtain ⟨spec,b,hele,htimer,hready,hstk⟩ := upsert_spec now (k := j)
          (s := {s with stack := stack}.setEle j {s.ele j with ret := dpeInprogress})
          (by simpa [Dpevp.setEle] using hoff) htimer0
        have hele : (dptmrsetUpsert ({s with stack := stack}.setEle j {s.ele j with ret := dpeInprogress}) j now).ele j=
            {s.ele j with ret := dpeInprogress, spec := spec, isTiming := b} := by
          rw [hele]
          simp [Dpevp.setEle]
        refine ⟨?_,?_,?_,?_,?_,fun hn => (by cases hn),?_,.inl ?_,trivial,fun _ => ?_⟩
        all_goals simp only [Dpevp.setPending]
        · rw [hele]
          exact h.kind
        · rw [hele]
          exact h.aio
        · rw [hele]
          exact h.want
        · refine htimer.trans ?_
          simp only [hele]
        · rw [hele]
          exact hdoing
        · rw [hready]
          exact h.ready
        · rw [EngineFrame.frames]
          simp only [hstk]
          exact hnil
        · rw [hele]
          exact hrefc
      · rw [if_pos (by decide)] at ht
        cases ht
        simp only [addFinish,if_neg (show ¬dpretIsok dpePerm by decide),if_neg (show dpePerm≠dpeWait by decide)]
        have hele : (({s with stack := stack}.setEle j {s.ele j with ret := dpePerm, asc := none}).ele j)=
            {s.ele j with ret := dpePerm, asc := none} := by simp [Dpevp.setEle]
        refine ⟨?_,?_,?_,?_,?_,fun _ => htimer0,h.ready,.inl hnil,trivial,fun hn => (by cases hn)⟩
        all_goals simp only [Dpevp.setPending,hele]
        · exact h.kind
        · exact h.aio
        · exact h.want
        · exact h.timing
        · rfl
    · cases ht
  · cases ht

theorem stands_unref (h : Stands s k st) (hlast : (s.ele k).refc=1 → st=.idle) (hr : 0<(s.ele k).refc) :
    Stands (unref s k) k st := by
  have hset : Stands (s.setEle k {s.ele k with refc := (s.ele k).refc-1}) k st := by
    refine h.plain rfl rfl rfl rfl rfl rfl fun hop => ?_
    have hne : (s.ele k).refc≠1 := by
      intro h1
      rw [hlast h1] at hop
      cases hop
    change 0<(s.ele k).refc-1
    omega
  unfold unref
  simp only
  split
  · exact hset.apart apart_dpeleDel
  · exact hset

theorem stands_reapUsd (h : Stands s k st) (ht : Engine.step s .reapUsd=some t) (hk : subject s .reapUsd=some k) :
    (∃ n,st=.got n ∨ st=.failed n) ∧ Stands t k .idle ∧ overDone s t .reapUsd=some k ∧
      (t.ele k).ret=(s.ele k).ret ∧ (t.ele k).refc=(s.ele k).refc := by
  simp only [Engine.step] at ht
  split at ht
  · rename_i j ready hready
    have hjk : j=k := by simpa [subject,hready] using hk
    subst hjk
    split at ht
    · rename_i hpop
      cases ht
      have hcount : ready.count j+1=st.ended := by
        rw [← h.ready,hready,List.count_cons_self]
      have hst : (∃ n,st=.got n ∨ st=.failed n) ∧ st.out=none ∧ ready.count j=0 ∧ 0<(s.ele j).refc := by
        cases st with
        | idle | waiting n => cases hcount
        | got n => exact ⟨⟨n,.inl rfl⟩,rfl,Nat.succ_inj.mp hcount,h.refc rfl⟩
        | failed n => exact ⟨⟨n,.inr rfl⟩,rfl,Nat.succ_inj.mp hcount,h.refc rfl⟩
      obtain ⟨hst,hout,hready0,hrefc⟩ := hst
      have hover : dpeleAscOver {s with ready := ready} j=
          (({s with ready := ready}.setEle j {s.ele j with efd := {(s.ele j).efd with want := ∅}, asc := none}).setPending j
            false) := by
        unfold dpeleAscOver
        simp only [h.aio,or_true,if_true]
        unfold ascEnd
        rw [if_neg]
        simpa [Dpevp.setEle,Dpevp.setPending] using hrefc.ne'
      rw [hover]
      have hele : (({s with ready := ready}.setEle j {s.ele j with efd := {(s.ele j).efd with want := ∅}, asc := none}).setPending
          j false).ele j={s.ele j with efd := {(s.ele j).efd with want := ∅}, asc := none} := by
        simp [Dpevp.setEle,Dpevp.setPending]
      have hnil : EngineFrame.frames s j=[] := by
        rw [EngineFrame.frames,hpop.1.2]
        rfl
      refine ⟨hst,⟨?_,?_,?_,?_,?_,fun _ => h.timer hout,hready0,.inl hnil,trivial,fun hn => (by cases hn)⟩,?_,?_,?_⟩
      all_goals first | rw [hele] | skip
      · exact h.kind
      · exact h.aio
      · exact h.timing
      · rfl
      · change (if s.stack=[] then s.ready.head? else none)=some j
        rw [if_pos hpop.1.2,hready]
        rfl
    · cases ht
  · cases ht

/-- A step of the application or the loop on the element, which leaves its operation where it is. -/
theorem stands_still {a : Engine.Act κ} (h : Stands s k st) (ht : Engine.step s a=some t) (hk : subject s a=some k)
    (hr : hasRef s a=true) (hbegin : begins k a → ∃ b,a=.setDetach k b)
    (hprep : ∀ ret out now,a≠.prepRet ret out now)
    (hends : ∀ r,a=.end_ k r → st=.idle ∨ (∃ n,st=.got n ∨ st=.failed n) ∧ st.result r)
    (hdels : a=.del k ∨ a=.cont → (s.ele k).refc=1 → st=.idle) (hexpires : ∀ now,a=.reapTmr now → st=.idle)
    (hreap : a≠.reapUsd) : Stands t k st ∧ overDone s t a=none := by
  cases a with
  | new j kind aio fd lower ok =>
    cases hk
    obtain ⟨b,hb⟩ := hbegin rfl
    cases hb
  | dup i j ok =>
    cases hk
    obtain ⟨b,hb⟩ := hbegin rfl
    cases hb
  | add j asc =>
    cases hk
    obtain ⟨b,hb⟩ := hbegin rfl
    cases hb
  | prepRet ret out now => exact (hprep ret out now rfl).elim
  | ref j =>
    cases hk
    simp only [Engine.step] at ht
    split at ht
    · rename_i howns
      cases ht
      have hpos := howns.2.2
      exact ⟨h.plain rfl rfl rfl rfl rfl rfl fun _ => (by change 0<(s.ele k).refc+1; omega),rfl⟩
    · cases ht
  | setDetach j b =>
    cases hk
    simp only [Engine.step] at ht
    split at ht
    · split at ht <;> cases ht
      · exact ⟨h,rfl⟩
      · exact ⟨h.plain rfl rfl rfl rfl rfl rfl h.refc,rfl⟩
    · cases ht
  | setTimeout j sec =>
    cases hk
    simp only [Engine.step] at ht
    split at ht <;> cases ht
    exact ⟨h.plain rfl rfl rfl rfl rfl rfl h.refc,rfl⟩
  | end_ j r =>
    cases hk
    exact ⟨stands_endAgain h ht (hends r rfl),rfl⟩
  | del j =>
    cases hk
    simp only [Engine.step] at ht
    split at ht
    · rename_i howns
      cases ht
      exact ⟨stands_unref h (hdels (.inl rfl)) howns.2.2,rfl⟩
    · cases ht
  | cont =>
    simp only [Engine.step] at ht
    split at ht
    · rename_i j dels hd
      have hjk : j=k := by simpa [subject,hd] using hk
      subst hjk
      cases ht
      have hpos : 0<(s.ele j).refc := by simpa [hasRef,hd] using hr
      have hpop : Apart s {s with dels := dels} j := ⟨rfl,rfl,rfl,rfl⟩
      exact ⟨stands_unref (h.apart hpop) (hdels (.inr rfl)) hpos,rfl⟩
    · rename_i hd
      simp [subject,hd] at hk
    · cases ht
  | harvest evs => cases hk
  | postRet p now =>
    -- no post function of the element runs
    have hprep : ∀ fr stack,s.stack=fr::stack → fr.key=k → fr=.prep k := by
      intro fr stack hstack hkey
      have hcons : EngineFrame.frames s k=fr::stack.filter (·.key=k) := by
        rw [EngineFrame.frames,hstack]
        exact List.filter_cons_of_pos (by simpa using hkey)
      rcases h.frames with hf | ⟨hf,-⟩
      · rw [hcons] at hf
        cases hf
      · rw [hcons] at hf
        injection hf
    simp only [Engine.step] at ht
    split at ht
    · rename_i j add stack hstack
      have := hprep _ _ hstack (by simpa [subject,hstack] using hk)
      cases this
    · rename_i j stack hstack
      have := hprep _ _ hstack (by simpa [subject,hstack] using hk)
      cases this
    · cases ht
  | reapEfd =>
    simp only [Engine.step] at ht
    split at ht
    · rename_i en evs hevs
      have hjk : en.key=k := by simpa [subject,hevs] using hk
      split at ht
      · rw [if_pos (.inl (by rw [hjk]; exact h.want))] at ht
        cases ht
        have hset : Stands (s.setEle en.key {s.ele en.key with efd := {(s.ele en.key).efd with
            able := (s.ele en.key).efd.able∪en.evt.bits}}) k st := by
          subst hjk
          exact h.plain rfl rfl rfl rfl rfl rfl h.refc
        refine ⟨hset.apart ⟨rfl,rfl,rfl,rfl⟩,?_⟩
        simp only [overDone,hevs,List.head?_cons,Option.bind_some]
        refine if_neg ?_
        rintro ⟨hon,hoff⟩
        simp only [dpeleIsDoing,Dpevp.setEle,Function.update_self] at hon hoff
        rw [hon] at hoff
        cases hoff
      · cases ht
    · cases ht
  | reapUsd => exact (hreap rfl).elim
  | reapTmr now =>
    simp only [Engine.step] at ht
    split at ht
    · rename_i j timer htimer
      have hjk : j=k := by simpa [subject,htimer] using hk
      subst hjk
      have h0 := h.timer (by rw [hexpires now rfl]; rfl)
      rw [htimer,List.count_cons_self] at h0
      cases h0
    · cases ht

theorem overDone_subject {a : Engine.Act κ} (h : overDone s t a=some k) : subject s a=some k := by
  unfold overDone at h
  split at h
  · split at h
    · exact h
    · cases h
  · split at h
    · exact h
    · cases h
  · obtain ⟨en,hen,hif⟩ := Option.bind_eq_some_iff.mp h
    split at hif <;> cases hif
    simp [subject,hen]
  · split at h
    · rename_i hstack
      cases h
      simp [subject,hstack,Frame.key]
    · rename_i hstack
      split at h <;> cases h
      simp [subject,hstack,Frame.key]
    · cases h
  · cases h

end Engine

/-! ### One step -/

/-- An operation that goes on is left alone: it neither times out nor is it ended by anybody else, and its element
keeps a reference. -/
def undisturbed (l : Qic κ) (k : κ) (p : Port κ) : Engine.Act κ → Prop
  | .end_ _ r => p.cur≠none → p.out=none ∧ (dpretIsok r ↔ dpretIsok (l.evp.ele k).ret)
  | .del _ | .cont => (l.evp.ele k).refc=1 → p.cur=none
  | .reapTmr _ => p.cur=none
  | _ => True

/-- Besides, a stream is announced while the operation that waits, if there is one, asks for its kind, a stream of
this side only while one waits, and a connection is closed only while its operation, if it has one, waits. -/
def patient (l : Qic κ) : Act κ → Prop
  | .announce k x => ∀ p∈l.port k,(∀ n∈p.out,x.2=p.opens n) ∧ (p.out=none → x.2=false)
  | .closed k => ∀ p∈l.port k,p.cur≠none → p.out≠none ∧ frames l.evp k=[]
  | .engine (.dup i _ _) => l.port i=none ∨ dpeleIsDoing (l.evp.ele i)=true
  | .engine a => ∀ k∈subject l.evp a,∀ p∈l.port k,undisturbed l k p a
  | _ => True

def Inv (l : Qic κ) : Prop := ∀ k p,l.port k=some p → ∃ st,Ledger p st ∧ Stands l.evp k st

section Steps
variable {l l' : Qic κ} {k : κ} {p q : Port κ} {n : ℕ} {st : Stage}

/-- Only the element that the step is about has to be looked at. -/
theorem inv_setPort {s : Dpevp κ} {o : Option (Port κ)} (h : Inv l) (ha : ∀ j,j≠k → Apart l.evp s j)
    (hk : ∀ q,o=some q → ∃ st,Ledger q st ∧ Stands s k st) : Inv (({l with evp := s} : Qic κ).setPort k o) := by
  intro j q hq
  by_cases hjk : j=k
  · subst hjk
    exact hk q (by simpa [Qic.setPort] using hq)
  · obtain ⟨st,hl,hs⟩ := h j q (by simpa [Qic.setPort,hjk] using hq)
    exact ⟨st,hl,hs.apart (ha j hjk)⟩

theorem apart_subject {s t : Dpevp κ} {a : Engine.Act κ} (h : Engine.step s a=some t) (hk : subject s a=some k) :
    ∀ j,j≠k → Apart s t j := by
  intro j hjk
  refine step_apart h fun hj => hjk ?_
  rw [hk] at hj
  exact (Option.some.inj hj).symm

theorem mem_ready (h : Ledger p st) {x : Item κ} (hx : x∈p.ready) : x.2=false := by
  have hmem : x∈p.came.filter (·.2=false) := by
    rw [h.peers]
    exact List.mem_append_right _ hx
  simpa using (List.mem_filter.mp hmem).2

/-- An accept operation gets the head of the queue or waits. -/
theorem ledger_accept (h : Ledger p (.failed n)) (hn : p.opens n=false) :
    ((dpqicAcceptPrep p n).2=dpeContinue ∧ Ledger (dpqicAcceptPrep p n).1 (.waiting n)) ∨
      ((dpqicAcceptPrep p n).2=dpeOk ∧ Ledger (dpqicAcceptPrep p n).1 (.got n)) := by
  unfold dpqicAcceptPrep
  split
  · rename_i hready
    exact .inl ⟨rfl,ledger_wait h fun _ => hready⟩
  · rename_i x ready hready
    refine .inr ⟨rfl,?_⟩
    have hx : x.2=false := mem_ready h (by rw [hready]; exact List.mem_cons_self)
    have hout : p.out=none := h.out
    have hstore := ledger_store p.came ready h (.inr rfl) (hx.trans hn.symm)
      (by rw [h.peers,hready]; simp [hx]) (by rw [h.locals]; simp [hx])
    rw [← hout] at hstore
    exact hstore

theorem begun {s : Dpevp κ} (h : Inv l) (hp : l.port k=some p) (hadd : Engine.step l.evp (.add k dpqicAsc)=some s)
    (hidle : dpeleIsDoing (l.evp.ele k)=false) (b : Bool) : Ledger (p.begin b) (.failed p.ops) ∧
      Stands s k (.waiting p.ops) ∧ ∀ ret now,subject s (.prepRet ret {} now)=some k := by
  obtain ⟨st,hl,hs⟩ := h k p hp
  have hst : st=.idle := by
    have hop := hs.doing
    rw [hidle] at hop
    cases st with
    | idle => rfl
    | waiting | got | failed => cases hop
  subst hst
  obtain ⟨hwait,hsub⟩ := stands_add hs hadd p.ops
  exact ⟨ledger_begin hl b,hwait,hsub⟩

theorem inv_prepDone {s : Dpevp κ} {ret : Dpret} {now : ℤ} (h : Inv l) (ha : ∀ j,j≠k → Apart l.evp s j)
    (hs : Stands s k st) (hsub : subject s (.prepRet ret {} now)=some k)
    (hu : prepDone {l with evp := s} k q ret now=some l')
    (hcase : (ret=dpeOk ∧ (st=.waiting n ∨ st=.got n) ∧ Ledger q (.got n)) ∨
      (ret=dpeContinue ∧ st=.waiting n ∧ Ledger q (.waiting n)) ∨ (ret=dpePerm ∧ st=.waiting n ∧ Ledger q (.failed n))) :
    Inv l' := by
  obtain ⟨t,ht,rfl⟩ := Option.map_eq_some_iff.mp hu
  have ht : Engine.step s (.prepRet ret {} now)=some t := ht
  change Inv (({l with evp := t} : Qic κ).setPort k _)
  refine inv_setPort h (fun j hj => (ha j hj).trans (apart_subject ht hsub j hj)) fun q' hq => ?_
  rcases hcase with ⟨rfl,hst,hl⟩ | ⟨rfl,hst,hl⟩ | ⟨rfl,hst,hl⟩
  · rw [if_neg (by decide)] at hq
    cases hq
    exact ⟨_,hl,stands_prepRet hs ht hsub (.inl ⟨rfl,hst,rfl⟩)⟩
  · rw [if_neg (by decide)] at hq
    cases hq
    exact ⟨_,hl,stands_prepRet hs ht hsub (.inr (.inl ⟨rfl,hst,rfl⟩))⟩
  · rw [if_pos (by decide)] at hq
    cases hq
    exact ⟨_,ledger_refuse hl,stands_prepRet hs ht hsub (.inr (.inr ⟨rfl,hst,rfl⟩))⟩

/-- dpevp_add returns DPE_PERM. -/
theorem inv_addQic {s : Dpevp κ} (h : Inv l) (hp : l.port k=some p) (hadd : Engine.step l.evp (.add k dpqicAsc)=some s)
    (hdoing : dpeleIsDoing (l.evp.ele k)=true) : Inv {l with evp := s} := by
  obtain ⟨st,-,hs⟩ := h k p hp
  rw [add_doing hs hdoing hadd]
  exact h

theorem inv_accept {now : ℤ} (h : Inv l) (hu : step l (.accept k now)=some l') : Inv l' := by
  simp only [step] at hu
  split at hu
  · rename_i p hp
    split at hu
    · obtain ⟨⟨m,p?⟩,hadd,hu⟩ := Option.bind_eq_some_iff.mp hu
      obtain ⟨s,hs,hm⟩ := Option.map_eq_some_iff.mp hadd
      cases hdoing : dpeleIsDoing (l.evp.ele k) with
      | true =>
        rw [hdoing,if_pos rfl] at hm
        cases hm
        cases hu
        exact inv_addQic h hp hs hdoing
      | false =>
        rw [hdoing,if_neg (by decide)] at hm
        cases hm
        obtain ⟨hl,hwait,hsub⟩ := begun h hp hs hdoing false
        refine inv_prepDone (n := p.ops) h (apart_subject hs rfl) hwait (hsub ..) hu ?_
        rcases ledger_accept hl (by simp [Port.begin]) with ⟨hret,hl'⟩ | ⟨hret,hl'⟩
        · exact .inr (.inl ⟨hret,rfl,hl'⟩)
        · exact .inl ⟨hret,.inl rfl,hl'⟩
    · cases hu
  · cases hu

theorem inv_stream {new_ : Bool} {now : ℤ} (h : Inv l) (hu : step l (.stream k new_ now)=some l') : Inv l' := by
  simp only [step] at hu
  split at hu
  · rename_i p hp
    split at hu
    · obtain ⟨⟨m,p?⟩,hadd,hu⟩ := Option.bind_eq_some_iff.mp hu
      obtain ⟨s,hs,hm⟩ := Option.map_eq_some_iff.mp hadd
      cases hdoing : dpeleIsDoing (l.evp.ele k) with
      | true =>
        rw [hdoing,if_pos rfl] at hm
        cases hm
        cases hu
        exact inv_addQic h hp hs hdoing
      | false =>
        rw [hdoing,if_neg (by decide)] at hm
        cases hm
        obtain ⟨hl,hwait,hsub⟩ := begun h hp hs hdoing new_
        have hreset := ledger_reset hl
        simp only [Option.elim_some,dpqicStreamPrep] at hu
        by_cases hconn : (p.begin new_).conn=false
        · rw [if_pos hconn] at hu
          exact inv_prepDone h (apart_subject hs rfl) hwait (hsub ..) hu (.inr (.inr ⟨rfl,rfl,hl⟩))
        · rw [if_neg hconn] at hu
          cases new_ with
          | true =>
            -- lsquic_conn_make_stream is called, and its callbacks come in between
            cases hu
            refine inv_setPort h (apart_subject hs rfl) fun q hq => ?_
            cases hq
            refine ⟨_,ledger_wait hreset fun hopens => ?_,hwait⟩
            simp [Port.begin] at hopens
          | false =>
            refine inv_prepDone (n := p.ops) h (apart_subject hs rfl) hwait (hsub ..) hu ?_
            rcases ledger_accept hreset (by simp [Port.begin]) with ⟨hret,hl'⟩ | ⟨hret,hl'⟩
            · exact .inr (.inl ⟨hret,rfl,hl'⟩)
            · exact .inl ⟨hret,.inl rfl,hl'⟩
    · cases hu
  · cases hu

theorem inv_made {now : ℤ} (h : Inv l) (hu : step l (.made k now)=some l') : Inv l' := by
  simp only [step] at hu
  split at hu
  · rename_i p hp
    split at hu
    · rename_i hsub
      obtain ⟨st,hl,hs⟩ := h k p hp
      have hsub : ∀ ret,subject l.evp (.prepRet ret {} now)=some k := fun _ => hsub
      have hst : ∃ n,st=.waiting n ∨ st=.got n := by
        rcases hs.frames with hnil | ⟨-,hst,-⟩
        · simp only [subject] at hsub
          obtain ⟨fr,hfr,hkey⟩ := Option.map_eq_some_iff.mp (hsub 0)
          obtain ⟨rest,hstack⟩ := List.head?_eq_some_iff.mp hfr
          rw [EngineFrame.frames,hstack,List.filter_cons_of_pos (by simpa using hkey)] at hnil
          cases hnil
        · exact hst
      obtain ⟨n,rfl | rfl⟩ := hst
      · have hret : streamMade p=dpeContinue := by
          rw [streamMade,hl.out]
          rfl
        rw [hret] at hu
        exact inv_prepDone h (fun j _ => .refl _ j) hs (hsub _) hu (.inr (.inl ⟨rfl,rfl,hl⟩))
      · have hret : streamMade p=dpeOk := by
          rw [streamMade,hl.out]
          rfl
        rw [hret] at hu
        exact inv_prepDone h (fun j _ => .refl _ j) hs (hsub _) hu (.inl ⟨rfl,.inr rfl,hl⟩)
    · cases hu
  · cases hu

theorem inv_announce {x : Item κ} (h : Inv l) (hok : patient l (.announce k x)) (hu : step l (.announce k x)=some l') :
    Inv l' := by
  simp only [step] at hu
  split at hu
  · rename_i p hp
    obtain ⟨hkind,hqueue⟩ := hok p hp
    obtain ⟨st,hl,hs⟩ := h k p hp
    split at hu
    · cases hout : p.out with
      | some n =>
        have hst : st=.waiting n := by
          have hout' := hl.out
          rw [hout] at hout'
          cases st with
          | waiting m => cases hout'; rfl
          | idle | got | failed => cases hout'
        subst hst
        have honNew : onNew p x=({p with came := p.came++[x], out := none}.store n x,true) := by
          simp only [onNew,hout]
        rw [honNew,if_pos rfl] at hu
        obtain ⟨s,ht,rfl⟩ := Option.map_eq_some_iff.mp hu
        refine inv_setPort h (apart_subject ht rfl) fun q hq => ?_
        cases hq
        refine ⟨.got n,?_,stands_end hs ht (.inl ⟨rfl,by decide⟩)⟩
        refine ledger_store _ _ hl (.inl rfl) (hkind n hout) ?_ ?_
        · rw [List.filter_append,hl.peers]
          cases hx : x.2 with
          | true => simp [hx]
          | false =>
            -- the operation has found the queue empty
            rw [hl.empty n rfl ((hkind n hout).symm.trans hx)]
            simp [hx]
        · rw [List.filter_append,hl.locals]
          cases hx : x.2 <;> simp [hx]
      | none =>
        have honNew : onNew p x=({p with came := p.came++[x], ready := p.ready++[x]},false) := by
          simp only [onNew,hout]
        rw [honNew,if_neg (by simp)] at hu
        cases hu
        refine inv_setPort (s := l.evp) h (fun j _ => .refl _ j) fun q hq => ?_
        cases hq
        exact ⟨st,ledger_queue hl hout (hqueue hout),hs⟩
    · cases hu
  · cases hu

theorem inv_closed (h : Inv l) (hok : patient l (.closed k)) (hu : step l (.closed k)=some l') : Inv l' := by
  simp only [step] at hu
  split at hu
  · rename_i p hp
    obtain ⟨st,hl,hs⟩ := h k p hp
    split at hu
    · obtain ⟨s,ht,rfl⟩ := Option.map_eq_some_iff.mp hu
      refine inv_setPort h (apart_subject ht rfl) fun q hq => ?_
      cases hq
      cases st with
      | idle => exact ⟨.idle,ledger_close hl,stands_endAgain hs ht (.inl rfl)⟩
      | waiting n =>
        have hframes := (hok p hp (by rw [hl.cur]; simp [Stage.op])).2
        exact ⟨.failed n,ledger_fail hl,stands_end hs ht (.inr ⟨rfl,by decide,hframes⟩)⟩
      | got n | failed n => exact ((hok p hp (by rw [hl.cur]; simp [Stage.op])).1 hl.out).elim
    · cases hu
  · cases hu

theorem free_add {s : Dpevp κ} {asc : Asc} {j : κ} (hf : free l (.add j asc)=true) (hk : subject s (.add j asc)=some k) :
    l.port k=none := by
  cases hk
  simpa [free] using hf

theorem inv_engine {a : Engine.Act κ} (h : Inv l) (hok : patient l (.engine a)) (hu : step l (.engine a)=some l') :
    Inv l' := by
  simp only [step] at hu
  split at hu
  · rename_i hfree
    obtain ⟨t,ht,rfl⟩ := Option.map_eq_some_iff.mp hu
    by_cases hfresh : ∃ k,subject l.evp a=some k ∧ settle l a t=({l with evp := t} : Qic κ).setPort k none
    · obtain ⟨k,hk,hset⟩ := hfresh
      rw [hset]
      exact inv_setPort h (apart_subject ht hk) fun _ hq => (by cases hq)
    · have hset : settle l a t=match overDone l.evp t a with
          | some k => ({l with evp := t} : Qic κ).setPort k ((l.port k).map fun p => p.finish (t.ele k).ret ((t.ele k).refc≠0))
          | none => {l with evp := t} := by
        cases a with
        | new j kind aio fd lower ok => exact (hfresh ⟨j,rfl,rfl⟩).elim
        | dup i j ok => exact (hfresh ⟨j,rfl,rfl⟩).elim
        | ref | setDetach | setTimeout | add | prepRet | end_ | del | postRet | cont | harvest | reapEfd | reapUsd | reapTmr => rfl
      rw [hset]
      intro k p hp
      by_cases hk : subject l.evp a=some k
      · -- the step is about this listener or connection
        have hport : ∃ q,l.port k=some q := by
          split at hp
          · rename_i j hover
            have hjk : j=k := Option.some.inj ((overDone_subject hover).symm.trans hk)
            subst hjk
            obtain ⟨q,hq,-⟩ := Option.map_eq_some_iff.mp (show (l.port j).map _=some p by simpa [Qic.setPort] using hp)
            exact ⟨q,hq⟩
          · exact ⟨p,hp⟩
        obtain ⟨q,hq⟩ := hport
        obtain ⟨st,hl,hs⟩ := h k q hq
        by_cases hreap : a=.reapUsd
        · subst hreap
          obtain ⟨hst,hidle,hover,hret,hrefc⟩ := stands_reapUsd hs ht hk
          simp only [hover,Qic.setPort,Function.update_self,hq,Option.map_some] at hp
          cases hp
          have hpos : (t.ele k).refc≠0 := by
            have := hs.refc (by obtain ⟨n,rfl | rfl⟩ := hst <;> rfl)
            omega
          rw [decide_eq_true hpos,hret]
          refine ⟨.idle,ledger_finish hl ?_,?_⟩
          · have hresult := hs.result
            obtain ⟨n,rfl | rfl⟩ := hst
            · exact .inl ⟨⟨n,rfl⟩,hresult⟩
            · exact .inr ⟨⟨n,rfl⟩,hresult⟩
          · simpa [hover,Qic.setPort] using hidle
        · have hcalm : undisturbed l k q a := by
            cases a with
            | dup i j ok => exact (hfresh ⟨j,rfl,rfl⟩).elim
            | new | ref | setDetach | setTimeout | add | prepRet | end_ | del | postRet | cont | harvest | reapEfd | reapUsd
            | reapTmr => exact hok k hk q hq
          have hidle : q.cur=none → st=.idle := by
            intro hc
            rw [hl.cur] at hc
            cases st with
            | idle => rfl
            | waiting | got | failed => cases hc
          have hstill := stands_still hs ht hk ?_ ?_ ?_ ?_ ?_ ?_ hreap
          · rw [hstill.2] at hp ⊢
            cases hq.symm.trans hp
            exact ⟨st,hl,hstill.1⟩
          · cases a with
            | add | prepRet => rfl
            | new | dup | ref | setDetach | setTimeout | end_ | del | postRet | cont | harvest | reapEfd | reapUsd | reapTmr =>
              exact hfree
          · intro hb
            cases a with
            | setDetach j b =>
              cases hb
              exact ⟨b,rfl⟩
            | new j => exact (hfresh ⟨j,rfl,rfl⟩).elim
            | dup i j => exact (hfresh ⟨j,rfl,rfl⟩).elim
            | add j asc =>
              rw [free_add hfree hk] at hq
              cases hq
            | ref | setTimeout | prepRet | end_ | del | postRet | cont | harvest | reapEfd | reapUsd | reapTmr => exact hb.elim
          · rintro ret out now rfl
            have hnone : (l.port k).isNone=true := by
              simp only [free,hk] at hfree
              exact hfree
            rw [hq] at hnone
            cases hnone
          · rintro r rfl
            by_cases hc : q.cur=none
            · exact .inl (hidle hc)
            · obtain ⟨hout,hret⟩ := hcalm hc
              rw [hl.out] at hout
              have hresult := hs.result
              cases st with
              | idle => exact .inl rfl
              | waiting n => cases hout
              | got n => exact .inr ⟨⟨n,.inl rfl⟩,hret.mpr hresult⟩
              | failed n => exact .inr ⟨⟨n,.inr rfl⟩,fun hr => hresult (hret.mp hr)⟩
          · rintro (rfl | rfl) h1
            · exact hidle (hcalm h1)
            · exact hidle (hcalm h1)
          · rintro now rfl
            exact hidle hcalm
      · -- it is about another element
        have hap := step_apart ht hk
        have hsame : ∃ st,Ledger p st ∧ Stands l.evp k st := by
          split at hp
          · rename_i j hover
            have hjk : k≠j := fun hjk => hk (by rw [hjk]; exact overDone_subject hover)
            exact h k p (by simpa [Qic.setPort,hjk] using hp)
          · exact h k p hp
        obtain ⟨st,hl,hs⟩ := hsame
        refine ⟨st,hl,?_⟩
        split
        · exact hs.apart hap
        · exact hs.apart hap
  · cases hu

theorem step_inv (a : Act κ) (h : Inv l) (hok : patient l a) (hu : step l a=some l') : Inv l' := by
  cases a with
  | new k role =>
    simp only [step] at hu
    split at hu
    · rename_i hunused
      obtain ⟨s,ht,rfl⟩ := Option.map_eq_some_iff.mp hu
      refine inv_setPort h (apart_subject ht rfl) fun q hq => ?_
      cases hq
      exact ⟨.idle,ledger_start role,stands_new ht hunused⟩
    · cases hu
  | accept k now => exact inv_accept h hu
  | stream k new_ now => exact inv_stream h hu
  | made k now => exact inv_made h hu
  | announce k x => exact inv_announce h hok hu
  | closed k => exact inv_closed h hok hu
  | engine a => exact inv_engine h hok hu

/-- What the application may rely on: connections and streams of the peer are stored for operations in the order of
their arrival and the rest waits in the queue, an operation gets one at most and of the kind it has asked for, one
that has got it ends with a success and one that ends with a success has got it, and the pointer is set while the
operation that has set it waits. -/
structure Orderly (l : Qic κ) (k : κ) (p : Port κ) : Prop where
  peers : p.came.filter (·.2=false)=(p.given.map Prod.snd).filter (·.2=false)++p.ready
  locals : p.came.filter (·.2=true)=(p.given.map Prod.snd).filter (·.2=true)
  once : (p.given.map Prod.fst).Nodup
  kinds : ∀ n x,(n,x)∈p.given → x.2=p.opens n
  reported : ∀ n x,(n,x)∈p.given → (p.cur=some n ∧ k∈l.evp.ready ∧ dpretIsok (l.evp.ele k).ret ∧ p.var n=some x.1) ∨
    ∃ r,(n,r,some x.1)∈p.done ∧ dpretIsok r
  results : ∀ n r v,(n,r,v)∈p.done → dpretIsok r → ∃ x,(n,x)∈p.given ∧ v=some x.1
  pointer : ∀ n,p.out=some n → p.cur=some n ∧ dpeleIsDoing (l.evp.ele k)=true ∧ k∉l.evp.ready

theorem orderly (hl : Ledger p st) (hs : Stands l.evp k st) : Orderly l k p where
  peers := hl.peers
  locals := hl.locals
  once := hl.nodup
  kinds := hl.kinds
  reported n x hx := by
    rcases hl.settled n x hx with ⟨rfl,hvar⟩ | hdone
    · have hready : l.evp.ready.count k=1 := hs.ready
      exact .inl ⟨hl.cur,List.count_pos_iff.mp (by rw [hready]; exact Nat.one_pos),hs.result,hvar⟩
    · exact .inr hdone
  results := hl.done
  pointer n hn := by
    rw [hl.out] at hn
    cases st with
    | waiting m =>
      cases hn
      exact ⟨hl.cur,hs.doing,List.count_eq_zero.mp hs.ready⟩
    | idle | got | failed => cases hn

theorem qic_handoff (h : Reach step patient {} l) (hp : l.port k=some p) : Orderly l k p := by
  have hinv : Inv l := h.invariant (fun _ _ hno => (by cases hno)) fun _ a _ hi hok hu => step_inv a hi hok hu
  obtain ⟨st,hl,hs⟩ := hinv k p hp
  exact orderly hl hs

end Steps

instance (l : Qic κ) (k : κ) (p : Port κ) : (a : Engine.Act κ) → Decidable (undisturbed l k p a)
  | .end_ _ _ => inferInstanceAs (Decidable (_ → _ ∧ _))
  | .del _ | .cont => inferInstanceAs (Decidable (_ → _))
  | .reapTmr _ => inferInstanceAs (Decidable (_=_))
  | .new .. | .dup .. | .ref _ | .setDetach .. | .setTimeout .. | .add .. | .prepRet .. | .postRet .. | .harvest _
  | .reapEfd | .reapUsd => .isTrue trivial

instance (l : Qic κ) : (a : Act κ) → Decidable (patient l a)
  | .announce k x => inferInstanceAs (Decidable (∀ p∈l.port k,(∀ n∈p.out,x.2=p.opens n) ∧ (p.out=none → x.2=false)))
  | .closed k => inferInstanceAs (Decidable (∀ p∈l.port k,p.cur≠none → p.out≠none ∧ frames l.evp k=[]))
  | .engine (.dup i _ _) => decidable_of_iff ((l.port i).isNone=true ∨ dpeleIsDoing (l.evp.ele i)=true)
    (or_congr_left Option.isNone_iff_eq_none)
  | .engine (.new ..) | .engine (.ref _) | .engine (.setDetach ..) | .engine (.setTimeout ..) | .engine (.add ..)
  | .engine (.prepRet ..) | .engine (.end_ ..) | .engine (.del _) | .engine (.postRet ..) | .engine .cont
  | .engine (.harvest _) | .engine .reapEfd | .engine .reapUsd | .engine (.reapTmr _) =>
    inferInstanceAs (Decidable (∀ k∈subject l.evp _,∀ p∈l.port k,undisturbed l k p _))
  | .new .. | .accept .. | .stream .. | .made .. => .isTrue trivial

/-- A connection arrives while an accept waits and another one before the next accept; a stream is opened, and
announced before lsquic_conn_make_stream returns. -/
def handedOff : List (Act (Fin 6)) :=
  [.new 0 .listen,.accept 0 0,.announce 0 (2,false),.engine .reapUsd,.announce 0 (3,false),.accept 0 0,.engine .reapUsd,
    .new 1 .conect,.stream 1 true 0,.announce 1 (4,true),.made 1 0,.engine .reapUsd]

theorem qic_handoff_served : ∃ (l : Qic (Fin 6)) (p q : Port (Fin 6)),l.port 0=some p ∧ l.port 1=some q ∧
    p.given=[(0,2,false),(1,3,false)] ∧ q.done=[(0,dpeOk,some 4)] ∧ Orderly l 0 p ∧ Orderly l 1 q := by
  have hrun : ((execOk step patient {} handedOff).any fun l => (l.port 0).any (fun p => p.given=[(0,2,false),(1,3,false)]) &&
      (l.port 1).any fun q => q.done=[(0,dpeOk,some 4)])=true := by decide +kernel
  obtain ⟨l,hl,hf⟩ := (Option.any_eq_true _ _).mp hrun
  obtain ⟨h0,h1⟩ := Bool.and_eq_true_iff.mp hf
  obtain ⟨p,hp,hgiven⟩ := (Option.any_eq_true _ _).mp h0
  obtain ⟨q,hq,hdone⟩ := (Option.any_eq_true _ _).mp h1
  have hreach := execOk_reach hl
  exact ⟨l,p,q,hp,hq,of_decide_eq_true hgiven,of_decide_eq_true hdone,qic_handoff hreach hp,qic_handoff hreach hq⟩

/-- An accept is cancelled, and a connection arrives. -/
def cancelledAccept : List (Act (Fin 2)) :=
  [.new 0 .listen,.accept 0 0,.engine (.end_ 0 dpeIntr),.engine .reapUsd,.announce 0 (1,false)]

/-- The connection is stored for the operation that has returned DPE_INTR. -/
theorem qic_accept_lost : ¬∀ (l : Qic (Fin 2)) (k : Fin 2) (p : Port (Fin 2)),Reach step anyStep {} l → l.port k=some p →
    Orderly l k p := by
  intro hall
  have hrun : ((exec step {} cancelledAccept).any fun l => (l.port 0).any fun p =>
      p.given=[(0,1,false)] && p.cur=none && p.done=[(0,dpeIntr,none)])=true := by decide +kernel
  obtain ⟨l,hl,hf⟩ := (Option.any_eq_true _ _).mp hrun
  obtain ⟨p,hp,hf⟩ := (Option.any_eq_true _ _).mp hf
  obtain ⟨hf,hdone⟩ := Bool.and_eq_true_iff.mp hf
  obtain ⟨hgiven,hcur⟩ := Bool.and_eq_true_iff.mp hf
  have hreported := (hall l 0 p (exec_reach hl) hp).reported 0 (1,false) (by rw [of_decide_eq_true hgiven]; exact List.mem_cons_self)
  rcases hreported with ⟨hcur',-⟩ | ⟨r,hr,-⟩
  · rw [of_decide_eq_true hcur] at hcur'
    cases hcur'
  · rw [of_decide_eq_true hdone] at hr
    cases List.mem_singleton.mp hr

end Dpapp.QicAccept
