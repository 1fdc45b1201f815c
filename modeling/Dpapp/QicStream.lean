import Dpapp.Machine
import Dpapp.Ret
import Mathlib.Logic.Function.Basic

/-! # A QUIC stream and its avatar (dpqic.c)

One lsquic stream, the elements that have stood for it, and the operations that are added to them. lsquic calls back with
the element that is the stream's context. -/

set_option linter.unusedSectionVars false

namespace Dpapp.QicStream
open Dpapp.Machine Dpapp.Ret

inductive Dir | recv | send
  deriving DecidableEq

inductive Asc | recv | recvv | recvHdrset | send | sendv | sendHdrset
  deriving DecidableEq

def Asc.dir : Asc → Dir
  | .recv | .recvv | .recvHdrset => .recv
  | .send | .sendv | .sendHdrset => .send

def dpeClosed : Dpret := -154

/-- What lsquic returns, and errno. -/
structure Answer where
  res : ℤ
  errno : ℤ

/-- `_dpqic_recv_post`, `_dpqic_recvv_post` -/
def recvPost (a : Answer) : Dpret := if a.res<0 then -a.errno else if a.res=0 then dpeEof else a.res
/-- `_dpqic_send_post`, `_dpqic_sendv_post` -/
def sendPost (a : Answer) : Dpret := if 0<a.res then a.res else if a.res=0 then dpeWait else dpeBadfd
/-- `_dpqic_recv_hdrset_post`: no header set is a zero. -/
def recvHdrsetPost (a : Answer) : Dpret := if a.res≠0 then dpeOk else -a.errno
/-- `_dpqic_send_hdrset_post` -/
def sendHdrsetPost (a : Answer) : Dpret := if a.res=0 then dpeOk else -a.errno

def post : Asc → Answer → Dpret
  | .recv | .recvv => recvPost
  | .send | .sendv => sendPost
  | .recvHdrset => recvHdrsetPost
  | .sendHdrset => sendHdrsetPost

/-- The bytes that lsquic has given or taken. -/
def bytes : Asc → Answer → ℤ
  | .recv,a | .recvv,a | .send,a | .sendv,a => max a.res 0
  | .recvHdrset,_ | .sendHdrset,_ => 0

/-- Who ends an operation: a callback, the caller (dpevp_end), or the timeout. -/
inductive By | read | write | close | user | time
  deriving DecidableEq

/- History: `ends` are those who have ended it, `bytes` what its post has moved, and `late` tells whether its post has run
after an end. -/
structure Oper where
  asc : Asc
  ret : Dpret := dpeInprogress
  ends : List By := []
  bytes : ℤ := 0
  late : Bool := false
  deriving DecidableEq

/-- `_dpqic_stream_t` and what the engine keeps of the element; `op` is the operation from dpevp_add to dpevp_pop. -/
structure Ele (κ : Type*) where
  op : Option Oper := none
  refc : ℤ := 0
  stream : Bool := false
  avatar : Option κ := none
  isOwner : Bool := false

/- `isOpen` tells whether lsquic still has the stream. History: `reports` are the operations that have left dpevp_pop. -/
structure Sys (κ : Type*) where
  ele : κ → Ele κ := fun _ => {}
  alive : κ → Bool := fun _ => false
  ctx : Option κ := none
  wantread : Bool := false
  wantwrite : Bool := false
  isOpen : Bool := true
  reports : List Oper := []

variable {κ : Type*} [DecidableEq κ]

def Sys.setEle (s : Sys κ) (k : κ) (e : Ele κ) : Sys κ := {s with ele := Function.update s.ele k e}
def Sys.setOp (s : Sys κ) (k : κ) (op : Option Oper) : Sys κ := s.setEle k {s.ele k with op := op}

def Sys.want (s : Sys κ) : Dir → Bool
  | .recv => s.wantread
  | .send => s.wantwrite

def Sys.setWant (s : Sys κ) (d : Dir) (b : Bool) : Sys κ :=
  match d with
  | .recv => {s with wantread := b}
  | .send => {s with wantwrite := b}

/-- `_dpqic_cb_on_new_stream` makes the first element. -/
def start (k : κ) : Sys κ :=
  {ele := fun _ => {refc := 1, stream := true, isOwner := true}, alive := fun j => decide (j=k), ctx := some k}

/-- `_dpqic_stream_copy` -/
def streamCopy (s : Sys κ) (k j : κ) : Sys κ :=
  (s.setEle k {s.ele k with avatar := some j}).setEle j {refc := 1, stream := (s.ele k).stream, avatar := some k}

/-- `_dpqic_stream_clean` -/
def streamClean (s : Sys κ) (k : κ) : Sys κ :=
  match (s.ele k).avatar with
  | some j => s.setEle j {s.ele j with isOwner := true, avatar := none}
  | none => if (s.ele k).stream=true then {s with ctx := none, isOpen := false} else s

/-- `_dpele_del` -/
def free (s : Sys κ) (k : κ) : Sys κ :=
  let s := streamClean s k
  {s with alive := Function.update s.alive k false}

/-- dpevp_end on an operation that dpevp_pop has not seen. -/
def Oper.end (o : Oper) (ret : Dpret) (by_ : By) : Oper := {o with ret := ret, ends := o.ends++[by_]}

def dpevpEnd (s : Sys κ) (k : κ) (ret : Dpret) (by_ : By) : Sys κ :=
  s.setOp k ((s.ele k).op.map fun o => o.end ret by_)

/-- The post function runs. -/
def Oper.run (o : Oper) (a : Answer) : Oper :=
  {o with bytes := o.bytes+QicStream.bytes o.asc a, late := o.late || !o.ends.isEmpty}

/-- DPQIC_PREP_CHECK_RECV_STREAM, DPQIC_PREP_CHECK_SEND_STREAM -/
def prepCheck (e : Ele κ) : Dir → Dpret
  | .recv => if e.stream=false then dpeClosed else if e.isOwner=false then dpePerm else dpeContinue
  | .send => if e.stream=false then dpeClosed else if e.isOwner=true ∧ e.avatar≠none then dpePerm else dpeContinue

/-- `_dpele_asc_over` of a USD element with an I/O type. -/
def ascOver (s : Sys κ) (k : κ) (o : Oper) : Sys κ :=
  let s := {s.setOp k none with reports := s.reports++[o]}
  if (s.ele k).refc≤0 then free s k else s

def Dir.callback : Dir → By
  | .recv => .read
  | .send => .write

/-- `_dpqic_cb_on_read` and `_dpqic_cb_on_write`: they take the operation of the context's element, whatever its
direction. -/
def cbOn (s : Sys κ) (d : Dir) (a : Answer) : Option (Sys κ) :=
  match s.ctx with
  | some k =>
      if s.isOpen=true ∧ s.want d=true then
        match (s.ele k).op with
        | some o =>
            let r := post o.asc a
            if r=dpeWait then some ((s.setOp k (some (o.run a))).setWant d true)
            else some ((s.setOp k (some ((o.run a).end r d.callback))).setWant d false)
        | none => some (s.setWant d false)
      else none
  | none => none

/- The prep of `add` has found its arguments right, and the engine for header sets, if `ok`; the dpele_dup of `dup`
goes all the way if `ok`: it copies the stream before it registers a descriptor, and does not undo that. -/
inductive Act (κ : Type*)
  | ref (k : κ)
  | del (k : κ)
  | dup (k j : κ) (ok : Bool)
  | add (k : κ) (asc : Asc) (ok : Bool)
  | cease (k : κ) (ret : Dpret)
  | pop (k : κ)
  | timeout (k : κ)
  | onRead (a : Answer)
  | onWrite (a : Answer)
  | onClose

def owns (s : Sys κ) (k : κ) : Prop := s.alive k=true ∧ 0<(s.ele k).refc

instance (s : Sys κ) (k : κ) : Decidable (owns s k) := inferInstanceAs (Decidable (_ ∧ _))

def step (s : Sys κ) : Act κ → Option (Sys κ)
  | .ref k => if owns s k then some (s.setEle k {s.ele k with refc := (s.ele k).refc+1}) else none
  -- an element that is doing is deleted by the loop
  | .del k =>
      if owns s k then
        let last := (s.ele k).refc=1 ∧ (s.ele k).op=none
        let s := s.setEle k {s.ele k with refc := (s.ele k).refc-1}
        if last then some (free s k) else some s
      else none
  | .dup k j ok =>
      if owns s k ∧ s.alive j=false then
        if (s.ele k).op≠none ∨ (s.ele k).avatar≠none then some s
        else
          let s := streamCopy s k j
          some (if ok=true then {s with alive := Function.update s.alive j true} else s)
      else none
  | .add k asc ok =>
      if owns s k then
        if (s.ele k).op≠none ∨ ok=false ∨ prepCheck (s.ele k) asc.dir≠dpeContinue then some s
        else
          some ((s.setOp k (some {asc := asc})).setWant asc.dir true)
      else none
  | .cease k ret => if s.alive k=true then some (dpevpEnd s k ret .user) else none
  | .pop k =>
      match (s.ele k).op with
      | some o => if s.alive k=true ∧ o.ends≠[] then some (ascOver s k o) else none
      | none => none
  | .timeout k =>
      match (s.ele k).op with
      | some o => if s.alive k=true ∧ o.ends=[] then some (ascOver s k (o.end dpeTime .time)) else none
      | none => none
  | .onRead a => cbOn s .recv a
  | .onWrite a => cbOn s .send a
  | .onClose =>
      if s.isOpen=true then
        let s := {s with isOpen := false}
        match s.ctx with
        | none => some s
        | some k =>
            let s := dpevpEnd (s.setEle k {s.ele k with stream := false}) k dpeClosed .close
            let s := match (s.ele k).avatar with
              | some j => dpevpEnd (s.setEle j {s.ele j with stream := false}) j dpeClosed .close
              | none => s
            some {s with ctx := none}
      else none

/-! ### Each operation is completed once, by its own callback -/

/-- It has been ended once, a callback that did so was the one of its direction, its post has not run since, and the result
tells the bytes. -/
def Oper.good (o : Oper) : Prop :=
  ∃ who,o.ends=[who] ∧ (who=.read → o.asc.dir=.recv) ∧ (who=.write → o.asc.dir=.send) ∧ o.late=false ∧
    (o.bytes≠0 → o.ret=o.bytes)

/-- An operation of the direction that nobody has ended. -/
def pending (s : Sys κ) (k : κ) (d : Dir) : Prop :=
  s.alive k=true ∧ ∃ o,(s.ele k).op=some o ∧ o.ends=[] ∧ o.asc.dir=d

/-- The element may go: it is not the context's, or there is no avatar to be left with. -/
def leaves (s : Sys κ) (k : κ) : Prop := s.ctx=some k → (s.ele k).avatar=none

/-- lsquic calls on_read when the context's element has no operation but a receive that nobody has ended; on_write when
it has none but such a send, and the avatar has no such send; on_close when neither has one that waits for dpevp_pop. An
operation is not ceased once it has ended; dpele_dup does not fail late; and the context's element does not go before its
avatar. -/
def calm (s : Sys κ) : Act κ → Prop
  | .onRead _ => ∀ k∈s.ctx,∀ o∈(s.ele k).op,o.asc.dir=.recv ∧ o.ends=[]
  | .onWrite _ => ∀ k∈s.ctx,(∀ o∈(s.ele k).op,o.asc.dir=.send ∧ o.ends=[]) ∧
      ∀ j∈(s.ele k).avatar,∀ o∈(s.ele j).op,¬(o.asc.dir=.send ∧ o.ends=[])
  | .onClose => ∀ k∈s.ctx,(∀ o∈(s.ele k).op,o.ends=[]) ∧ ∀ j∈(s.ele k).avatar,∀ o∈(s.ele j).op,o.ends=[]
  | .cease k _ => ∀ o∈(s.ele k).op,o.ends=[]
  | .dup _ _ ok => ok=true
  | .del k => (s.ele k).refc=1 → (s.ele k).op=none → leaves s k
  | .pop k | .timeout k => (s.ele k).refc≤0 → leaves s k
  | _ => True

/-- The context is an element that has not been deleted, or nothing. What has left dpevp_pop is good; on_read leaves the
sends and completes the pending receive unless that waits on, on_write the other way round, and on_close leaves nothing
pending. -/
structure Sound (s : Sys κ) : Prop where
  ctx : ∀ k,s.ctx=some k → s.alive k=true
  reports : ∀ o∈s.reports,o.good
  read : ∀ a s',step s (.onRead a)=some s' → calm s (.onRead a) → ∀ k,
    (pending s k .send → (s'.ele k).op=(s.ele k).op) ∧
      ∀ o,pending s k .recv → (s.ele k).op=some o → post o.asc a≠dpeWait → ∃ o',(s'.ele k).op=some o' ∧ o'.ends=[.read]
  write : ∀ a s',step s (.onWrite a)=some s' → calm s (.onWrite a) → ∀ k,
    (pending s k .recv → (s'.ele k).op=(s.ele k).op) ∧
      ∀ o,pending s k .send → (s.ele k).op=some o → post o.asc a≠dpeWait → ∃ o',(s'.ele k).op=some o' ∧ o'.ends=[.write]
  close : ∀ s',step s .onClose=some s' → calm s .onClose → ∀ k d,¬pending s' k d

/-! ### Operations -/

section Ops
variable {o : Oper} {a : Answer} {ret : Dpret} {who : By}

/-- A post that has moved bytes returns their number, and does not wait on. -/
theorem post_bytes (asc : Asc) (a : Answer) : bytes asc a=0 ∨ bytes asc a=post asc a ∧ post asc a≠dpeWait := by
  have hpos : 0<a.res → a.res≠dpeWait := by
    intro h heq
    rw [heq] at h
    exact absurd h (by decide)
  cases asc with
  | recv | recvv =>
    simp only [bytes,post,recvPost]
    by_cases h : 0<a.res
    · rw [if_neg (by omega),if_neg (by omega),Int.max_eq_left (Int.le_of_lt h)]
      exact .inr ⟨rfl,hpos h⟩
    · exact .inl (Int.max_eq_right (Int.not_lt.mp h))
  | send | sendv =>
    simp only [bytes,post,sendPost]
    by_cases h : 0<a.res
    · rw [if_pos h,Int.max_eq_left (Int.le_of_lt h)]
      exact .inr ⟨rfl,hpos h⟩
    · exact .inl (Int.max_eq_right (Int.not_lt.mp h))
  | recvHdrset | sendHdrset => exact .inl rfl

/-- Nobody has ended it, and its post has moved nothing. -/
structure Oper.untouched (o : Oper) : Prop where
  ends : o.ends=[]
  bytes : o.bytes=0
  late : o.late=false

def Oper.live (o : Oper) : Prop := o.untouched ∨ o.good

theorem untouched_of_live (h : o.live) (he : o.ends=[]) : o.untouched := by
  rcases h with h | ⟨who,hw,-⟩
  · exact h
  · rw [he] at hw
    cases hw

theorem good_of_live (h : o.live) (he : o.ends≠[]) : o.good := h.resolve_left fun hu => he hu.ends

theorem untouched_new (asc : Asc) : Oper.untouched {asc := asc} := ⟨rfl,rfl,rfl⟩

/-- Somebody else than a callback with a post ends it. -/
theorem good_end (h : o.untouched) (hr : who≠.read) (hw : who≠.write) : (o.end ret who).good :=
  ⟨who,by simp [Oper.end,h.ends],fun heq => absurd heq hr,fun heq => absurd heq hw,h.late,fun hb => absurd h.bytes hb⟩

theorem untouched_run (h : o.untouched) (hwait : post o.asc a=dpeWait) : (o.run a).untouched := by
  refine ⟨h.ends,?_,by simp [Oper.run,h.late,h.ends]⟩
  rcases post_bytes o.asc a with hz | ⟨-,hne⟩
  · simp [Oper.run,h.bytes,hz]
  · exact absurd hwait hne

/-- A callback of its direction runs the post and ends it. -/
theorem good_run (h : o.untouched) (hr : who=.read → o.asc.dir=.recv) (hw : who=.write → o.asc.dir=.send) :
    ((o.run a).end (post o.asc a) who).good := by
  refine ⟨who,by simp [Oper.end,Oper.run,h.ends],hr,hw,by simp [Oper.end,Oper.run,h.late,h.ends],fun hb => ?_⟩
  simp only [Oper.end,Oper.run,h.bytes,Int.zero_add] at hb ⊢
  exact ((post_bytes o.asc a).resolve_left hb).1.symm

end Ops

/-! ### The pair -/

/-- The stream is gone from its elements; or one of them stands for it alone; or there is an avatar too, which sends. -/
inductive Shape (s : Sys κ) : Prop
  | gone (hctx : s.ctx=none)
      (hnone : ∀ k,s.alive k=true → (s.ele k).stream=false ∧ ∀ o,(s.ele k).op=some o → o.ends≠[]) : Shape s
  | single (f : κ) (hctx : s.ctx=some f) (ha : s.alive f=true) (hstream : (s.ele f).stream=true)
      (howner : (s.ele f).isOwner=true) (havatar : (s.ele f).avatar=none) (hall : ∀ k,s.alive k=true → k=f) : Shape s
  | pair (f j : κ) (hctx : s.ctx=some f) (ha : s.alive f=true) (hstream : (s.ele f).stream=true)
      (howner : (s.ele f).isOwner=true) (havatar : (s.ele f).avatar=some j) (hne : j≠f) (ha' : s.alive j=true)
      (hstream' : (s.ele j).stream=true) (howner' : (s.ele j).isOwner=false) (havatar' : (s.ele j).avatar=some f)
      (hall : ∀ k,s.alive k=true → k=f ∨ k=j) (hop : ∀ o,(s.ele f).op=some o → o.asc.dir=.recv)
      (hop' : ∀ o,(s.ele j).op=some o → o.asc.dir=.send) : Shape s

structure Inv (s : Sys κ) : Prop where
  shape : Shape s
  ops : ∀ k,s.alive k=true → ∀ o,(s.ele k).op=some o → o.live
  reports : ∀ o∈s.reports,o.good

section Steps
variable {s s' : Sys κ} {j k : κ} {e : Ele κ} {a : Answer} {o : Oper}

theorem inv_start (k : κ) : Inv (start k) :=
  ⟨.single k rfl (by simp [start]) rfl rfl rfl fun j hj => by simpa [start] using hj,fun _ _ _ h => (by cases h),
    fun _ h => (by cases h)⟩

/-- Only operations have changed, and each is still what it was, or over. -/
theorem shape_ops (h : Shape s) (hctx : s'.ctx=s.ctx) (ha : s'.alive=s.alive)
    (hele : ∀ k,(s'.ele k).stream=(s.ele k).stream ∧ (s'.ele k).isOwner=(s.ele k).isOwner ∧
      (s'.ele k).avatar=(s.ele k).avatar)
    (hop : ∀ k o',(s'.ele k).op=some o' → ∃ o,(s.ele k).op=some o ∧ o'.asc=o.asc ∧ (o'.ends=[] → o.ends=[])) :
    Shape s' := by
  cases h with
  | gone hc hnone =>
    refine .gone (hctx.trans hc) fun k hk => ?_
    obtain ⟨hst,hends⟩ := hnone k (by rw [← ha]; exact hk)
    refine ⟨(hele k).1.trans hst,fun o' ho' he => ?_⟩
    obtain ⟨o,ho,-,hends'⟩ := hop k o' ho'
    exact hends o ho (hends' he)
  | single f hc haf hst how hav hall =>
    exact .single f (hctx.trans hc) (by rw [ha]; exact haf) ((hele f).1.trans hst) ((hele f).2.1.trans how)
      ((hele f).2.2.trans hav) fun k hk => hall k (by rw [← ha]; exact hk)
  | pair f j hc haf hst how hav hne haj hst' how' hav' hall hop1 hop2 =>
    refine .pair f j (hctx.trans hc) (by rw [ha]; exact haf) ((hele f).1.trans hst) ((hele f).2.1.trans how)
      ((hele f).2.2.trans hav) hne (by rw [ha]; exact haj) ((hele j).1.trans hst') ((hele j).2.1.trans how')
      ((hele j).2.2.trans hav') (fun k hk => hall k (by rw [← ha]; exact hk)) (fun o' ho' => ?_) fun o' ho' => ?_
    · obtain ⟨o,ho,hasc,-⟩ := hop f o' ho'
      rw [hasc]
      exact hop1 o ho
    · obtain ⟨o,ho,hasc,-⟩ := hop j o' ho'
      rw [hasc]
      exact hop2 o ho

theorem setEle_self : (s.setEle k e).ele k=e := by simp [Sys.setEle]

theorem setEle_ne (hjk : j≠k) : (s.setEle k e).ele j=s.ele j := by simp [Sys.setEle,hjk]

theorem setOp_self (op : Option Oper) : (s.setOp k op).ele k={s.ele k with op := op} := setEle_self

theorem setOp_ne {op : Option Oper} (hjk : j≠k) : (s.setOp k op).ele j=s.ele j := setEle_ne hjk

/-- An element whose operation and context are as before. -/
theorem inv_setEle (h : Inv s) (hst : e.stream=(s.ele k).stream) (how : e.isOwner=(s.ele k).isOwner)
    (hav : e.avatar=(s.ele k).avatar) (hop : e.op=(s.ele k).op) : Inv (s.setEle k e) := by
  have hsame : ∀ i,((s.setEle k e).ele i).op=(s.ele i).op := by
    intro i
    by_cases hik : i=k
    · subst hik
      rw [setEle_self,hop]
    · rw [setEle_ne hik]
  refine ⟨shape_ops h.shape rfl rfl (fun i => ?_) fun i o' ho' => ⟨o',(hsame i).symm.trans ho',rfl,id⟩,
    fun i hi o ho => h.ops i hi o ((hsame i).symm.trans ho),h.reports⟩
  by_cases hik : i=k
  · subst hik
    rw [setEle_self]
    exact ⟨hst,how,hav⟩
  · rw [setEle_ne hik]
    exact ⟨rfl,rfl,rfl⟩

/-- The operation of an element has gone on, or has left. -/
theorem inv_setOp {op : Option Oper} (h : Inv s)
    (hop : ∀ o',op=some o' → o'.live ∧ ∃ o,(s.ele k).op=some o ∧ o'.asc=o.asc ∧ (o'.ends=[] → o.ends=[])) :
    Inv (s.setOp k op) := by
  refine ⟨shape_ops h.shape rfl rfl (fun i => ?_) fun i o' ho' => ?_,fun i hi o ho => ?_,h.reports⟩
  · by_cases hik : i=k
    · subst hik
      rw [setOp_self]
      exact ⟨rfl,rfl,rfl⟩
    · rw [setOp_ne hik]
      exact ⟨rfl,rfl,rfl⟩
  · by_cases hik : i=k
    · subst hik
      rw [setOp_self] at ho'
      exact (hop o' ho').2
    · rw [setOp_ne hik] at ho'
      exact ⟨o',ho',rfl,id⟩
  · by_cases hik : i=k
    · subst hik
      rw [setOp_self] at ho
      exact (hop o ho).1
    · rw [setOp_ne hik] at ho
      exact h.ops i hi o ho

theorem setWant_ele (d : Dir) (b : Bool) : (s.setWant d b).ele=s.ele := by
  cases d <;> rfl

theorem inv_setWant {d : Dir} {b : Bool} (h : Inv s) : Inv (s.setWant d b) := by
  cases d with
  | recv | send =>
    exact ⟨shape_ops h.shape rfl rfl (fun _ => ⟨rfl,rfl,rfl⟩) fun _ o' ho' => ⟨o',ho',rfl,id⟩,h.ops,h.reports⟩

/-! ### Deleting -/

theorem free_alive {i : κ} (hi : (free s k).alive i=true) : i≠k ∧ s.alive i=true := by
  have halive : (streamClean s k).alive=s.alive := by
    unfold streamClean
    split
    · rfl
    · split <;> rfl
  by_cases hik : i=k
  · subst hik
    simp [free] at hi
  · simp only [free,Function.update_of_ne hik,halive] at hi
    exact ⟨hik,hi⟩

theorem free_op (i : κ) : ((free s k).ele i).op=(s.ele i).op := by
  change ((streamClean s k).ele i).op=(s.ele i).op
  unfold streamClean
  split
  · rename_i j _
    by_cases hij : i=j
    · subst hij
      rw [setEle_self]
    · rw [setEle_ne hij]
  · split <;> rfl

theorem free_reports : (free s k).reports=s.reports := by
  change (streamClean s k).reports=s.reports
  unfold streamClean
  split
  · rfl
  · split <;> rfl

theorem shape_free (h : Shape s) (hk : s.alive k=true) (hleave : leaves s k) : Shape (free s k) := by
  cases h with
  | gone hc hnone =>
    refine .gone ?_ fun i hi => ?_
    · change (streamClean s k).ctx=none
      unfold streamClean
      split
      · exact hc
      · split
        · rfl
        · exact hc
    · obtain ⟨-,hi⟩ := free_alive hi
      obtain ⟨hst,hends⟩ := hnone i hi
      refine ⟨?_,fun o ho => hends o ((free_op i).symm.trans ho)⟩
      change ((streamClean s k).ele i).stream=false
      unfold streamClean
      split
      · rename_i j _
        by_cases hij : i=j
        · subst hij
          rw [setEle_self]
          exact hst
        · rw [setEle_ne hij]
          exact hst
      · split <;> exact hst
  | single f hc haf hst how hav hall =>
    have hkf := hall k hk
    subst hkf
    refine .gone ?_ fun i hi => absurd (hall i (free_alive hi).2) (free_alive hi).1
    simp only [free,streamClean,hav,if_pos hst]
  | pair f j hc haf hst how hav hne haj hst' how' hav' hall hop1 hop2 =>
    rcases hall k hk with rfl | rfl
    · rw [hleave hc] at hav
      cases hav
    · -- the avatar goes, and the first element is alone again
      have hclean : free s k={s.setEle f {s.ele f with isOwner := true, avatar := none} with
          alive := Function.update s.alive k false} := by
        simp only [free,streamClean,hav']
        rfl
      have hself : (free s k).ele f={s.ele f with isOwner := true, avatar := none} := by
        rw [hclean]
        exact setEle_self
      refine .single f (by rw [hclean]; exact hc) ?_ (by rw [hself]; exact hst) (by rw [hself]) (by rw [hself]) fun i hi => ?_
      · rw [hclean]
        simpa [Function.update_of_ne (Ne.symm hne)] using haf
      · obtain ⟨hik,hi⟩ := free_alive hi
        exact (hall i hi).resolve_right hik

theorem inv_free (h : Inv s) (hk : s.alive k=true) (hleave : leaves s k) : Inv (free s k) :=
  ⟨shape_free h.shape hk hleave,fun i hi o ho => h.ops i (free_alive hi).2 o ((free_op i).symm.trans ho),
    fun o ho => h.reports o (by rw [← free_reports (s := s) (k := k)]; exact ho)⟩

theorem inv_ascOver (h : Inv s) (hk : s.alive k=true) (ho : o.good) (hleave : (s.ele k).refc≤0 → leaves s k) :
    Inv (ascOver s k o) := by
  have hnone : Inv (s.setOp k none) := inv_setOp h fun _ h => by cases h
  have hreport : Inv {s.setOp k none with reports := s.reports++[o]} := by
    refine ⟨shape_ops hnone.shape rfl rfl (fun _ => ⟨rfl,rfl,rfl⟩) fun _ o' ho' => ⟨o',ho',rfl,id⟩,hnone.ops,fun o' ho' => ?_⟩
    rcases List.mem_append.mp ho' with ho' | ho'
    · exact h.reports o' ho'
    · rcases List.mem_singleton.mp ho' with rfl
      exact ho
  unfold ascOver
  simp only
  split
  · rename_i hrefc
    refine inv_free hreport hk fun hctx => ?_
    have hrefc' : (s.ele k).refc≤0 := by
      have : ((s.setOp k none).ele k).refc=(s.ele k).refc := by rw [setOp_self]
      rw [← this]
      exact hrefc
    have havatar : ((s.setOp k none).ele k).avatar=(s.ele k).avatar := by rw [setOp_self]
    exact havatar.trans (hleave hrefc' hctx)
  · exact hreport

theorem inv_del (h : Inv s) (hok : calm s (.del k)) (hu : step s (.del k)=some s') : Inv s' := by
  simp only [step] at hu
  split at hu
  · rename_i hown
    have hset := inv_setEle (k := k) (e := {s.ele k with refc := (s.ele k).refc-1}) h rfl rfl rfl rfl
    split at hu <;> cases hu
    · rename_i hlast
      refine inv_free hset hown.1 fun hctx => ?_
      rw [setEle_self]
      exact hok hlast.1 hlast.2 hctx
    · exact hset
  · cases hu

theorem inv_pop (h : Inv s) (hok : calm s (.pop k)) (hu : step s (.pop k)=some s') : Inv s' := by
  simp only [step] at hu
  split at hu
  · rename_i o ho
    split at hu
    · rename_i hc
      cases hu
      exact inv_ascOver h hc.1 (good_of_live (h.ops k hc.1 o ho) hc.2) hok
    · cases hu
  · cases hu

theorem inv_timeout (h : Inv s) (hok : calm s (.timeout k)) (hu : step s (.timeout k)=some s') : Inv s' := by
  simp only [step] at hu
  split at hu
  · rename_i o ho
    split at hu
    · rename_i hc
      cases hu
      have huntouched := untouched_of_live (h.ops k hc.1 o ho) hc.2
      exact inv_ascOver h hc.1 (good_end huntouched (by simp) (by simp)) hok
    · cases hu
  · cases hu

/-! ### Duplicating and adding -/

theorem streamCopy_ele (i : κ) : (streamCopy s k j).ele i=
    if i=j then {refc := 1, stream := (s.ele k).stream, avatar := some k}
    else if i=k then {s.ele k with avatar := some j} else s.ele i := by
  unfold streamCopy
  by_cases hij : i=j
  · rw [if_pos hij,hij,setEle_self]
  · rw [if_neg hij,setEle_ne hij]
    by_cases hik : i=k
    · rw [if_pos hik,hik,setEle_self]
    · rw [if_neg hik,setEle_ne hik]

theorem inv_copy (h : Inv s) (hk : s.alive k=true) (hj : s.alive j=false) (hop : (s.ele k).op=none)
    (hav : (s.ele k).avatar=none) :
    Inv {streamCopy s k j with alive := Function.update s.alive j true} := by
  have hjk : j≠k := by
    rintro rfl
    rw [hk] at hj
    cases hj
  have hele := streamCopy_ele (s := s) (k := k) (j := j)
  have hnew : ∀ i,i≠j → Function.update s.alive j true i=true → s.alive i=true := fun i hi ha => by
    rwa [Function.update_of_ne hi] at ha
  have hopof : ∀ i,i≠j → ((streamCopy s k j).ele i).op=(s.ele i).op := by
    intro i hi
    rw [hele,if_neg hi]
    split
    · rename_i hik
      rw [hik]
    · rfl
  refine ⟨?_,fun i hi o ho => ?_,h.reports⟩
  · cases h.shape with
    | gone hc hnone =>
      refine .gone hc fun i hi => ?_
      by_cases hij : i=j
      · rw [show (streamCopy s k j).ele i=_ from (hele i).trans (if_pos hij)]
        exact ⟨(hnone k hk).1,fun _ ho => by cases ho⟩
      · obtain ⟨hst,hends⟩ := hnone i (hnew i hij hi)
        refine ⟨?_,fun o ho => hends o ((hopof i hij).symm.trans ho)⟩
        rw [hele,if_neg hij]
        split
        · rename_i hik
          rw [← hik]
          exact hst
        · exact hst
    | single f hc haf hst how hav' hall =>
      have hkf := hall k hk
      subst hkf
      have hself : (streamCopy s k j).ele k={s.ele k with avatar := some j} := by
        rw [hele,if_neg (Ne.symm hjk),if_pos rfl]
      have hother : (streamCopy s k j).ele j={refc := 1, stream := (s.ele k).stream, avatar := some k} := by
        rw [hele,if_pos rfl]
      refine .pair k j hc (by simpa [Function.update_of_ne (Ne.symm hjk)] using haf) (by rw [hself]; exact hst)
        (by rw [hself]; exact how) (by rw [hself]) hjk (by simp) (by rw [hother]; exact hst) (by rw [hother])
        (by rw [hother]) (fun i hi => ?_) (fun o ho => ?_) fun o ho => ?_
      · by_cases hij : i=j
        · exact .inr hij
        · exact .inl (hall i (hnew i hij hi))
      · rw [hself] at ho
        rw [show (s.ele k).op=some o from ho] at hop
        cases hop
      · rw [hother] at ho
        cases ho
    | pair f i hc haf hst how hav' hne hai hst' how' hav'' hall hop1 hop2 =>
      rcases hall k hk with rfl | rfl
      · rw [hav] at hav'
        cases hav'
      · rw [hav] at hav''
        cases hav''
  · by_cases hij : i=j
    · rw [hele,if_pos hij] at ho
      cases ho
    · rw [hopof i hij] at ho
      exact h.ops i (hnew i hij hi) o ho

theorem inv_dup {ok : Bool} (h : Inv s) (hok : calm s (.dup k j ok)) (hu : step s (.dup k j ok)=some s') : Inv s' := by
  simp only [step] at hu
  split at hu
  · rename_i hc
    split at hu
    · cases hu
      exact h
    · rename_i hfree
      cases hu
      obtain ⟨hop,hav⟩ := not_or.mp hfree
      rw [if_pos (show ok=true from hok)]
      exact inv_copy h hc.1.1 hc.2 (not_not.mp hop) (not_not.mp hav)
  · cases hu

theorem prepCheck_ok {d : Dir} (h : prepCheck e d=dpeContinue) : e.stream=true ∧ (d=.recv → e.isOwner=true) ∧
    (d=.send → e.isOwner=true → e.avatar=none) := by
  cases d with
  | recv =>
    simp only [prepCheck] at h
    split at h
    · exact absurd h (by decide)
    · rename_i hst
      split at h
      · exact absurd h (by decide)
      · rename_i how
        exact ⟨by simpa using hst,fun _ => by simpa using how,fun hd => by cases hd⟩
  | send =>
    simp only [prepCheck] at h
    split at h
    · exact absurd h (by decide)
    · rename_i hst
      split at h
      · exact absurd h (by decide)
      · rename_i hav
        exact ⟨by simpa using hst,fun hd => (by cases hd),fun _ how => not_not.mp fun hne => hav ⟨how,hne⟩⟩

/-- An operation is added to an element that has none, and that may have it. -/
theorem inv_begin {asc : Asc} (h : Inv s) (hk : s.alive k=true) (hprep : prepCheck (s.ele k) asc.dir=dpeContinue) :
    Inv (s.setOp k (some {asc := asc})) := by
  obtain ⟨hstream,hrecv,hsend⟩ := prepCheck_ok hprep
  have hsame : ∀ i,((s.setOp k (some {asc := asc})).ele i).stream=(s.ele i).stream ∧
      ((s.setOp k (some {asc := asc})).ele i).isOwner=(s.ele i).isOwner ∧
      ((s.setOp k (some {asc := asc})).ele i).avatar=(s.ele i).avatar := by
    intro i
    by_cases hik : i=k
    · subst hik
      rw [setOp_self]
      exact ⟨rfl,rfl,rfl⟩
    · rw [setOp_ne hik]
      exact ⟨rfl,rfl,rfl⟩
  refine ⟨?_,fun i hi o ho => ?_,h.reports⟩
  · cases h.shape with
    | gone hc hnone =>
      rw [(hnone k hk).1] at hstream
      cases hstream
    | single f hc haf hst how hav hall =>
      exact .single f hc haf ((hsame f).1.trans hst) ((hsame f).2.1.trans how) ((hsame f).2.2.trans hav) hall
    | pair f j hc haf hst how hav hne haj hst' how' hav' hall hop1 hop2 =>
      refine .pair f j hc haf ((hsame f).1.trans hst) ((hsame f).2.1.trans how) ((hsame f).2.2.trans hav) hne haj
        ((hsame j).1.trans hst') ((hsame j).2.1.trans how') ((hsame j).2.2.trans hav') hall (fun o ho => ?_) fun o ho => ?_
      · by_cases hfk : f=k
        · subst hfk
          rw [setOp_self] at ho
          cases ho
          -- the first element of a pair may not send
          cases hd : asc.dir with
          | recv => rfl
          | send =>
            rw [hsend hd how] at hav
            cases hav
        · rw [setOp_ne hfk] at ho
          exact hop1 o ho
      · by_cases hjk : j=k
        · subst hjk
          rw [setOp_self] at ho
          cases ho
          cases hd : asc.dir with
          | recv =>
            rw [hrecv hd] at how'
            cases how'
          | send => rfl
        · rw [setOp_ne hjk] at ho
          exact hop2 o ho
  · by_cases hik : i=k
    · subst hik
      rw [setOp_self] at ho
      cases ho
      exact .inl (untouched_new asc)
    · rw [setOp_ne hik] at ho
      exact h.ops i hi o ho

theorem inv_add {asc : Asc} {ok : Bool} (h : Inv s) (hu : step s (.add k asc ok)=some s') : Inv s' := by
  simp only [step] at hu
  split at hu
  · rename_i hown
    split at hu
    · cases hu
      exact h
    · rename_i hgo
      obtain ⟨-,hgo⟩ := not_or.mp hgo
      cases hu
      exact inv_setWant (inv_begin h hown.1 (not_not.mp (not_or.mp hgo).2))
  · cases hu

/-! ### The callbacks -/

theorem inv_end {ret : Dpret} {who : By} (h : Inv s) (hk : s.alive k=true) (hends : ∀ o∈(s.ele k).op,o.ends=[])
    (hr : who≠.read) (hw : who≠.write) : Inv (dpevpEnd s k ret who) := by
  refine inv_setOp h fun o' ho' => ?_
  obtain ⟨o,ho,rfl⟩ := Option.map_eq_some_iff.mp ho'
  have hu := untouched_of_live (h.ops k hk o ho) (hends o ho)
  exact ⟨.inr (good_end hu hr hw),o,ho,rfl,fun _ => hu.ends⟩

/-- The post of the context's element has run, and waits on. -/
theorem inv_wait (h : Inv s) (ho : (s.ele k).op=some o) (hu : o.untouched) (hwait : post o.asc a=dpeWait) :
    Inv (s.setOp k (some (o.run a))) :=
  inv_setOp h fun o' ho' => by
    cases ho'
    exact ⟨.inl (untouched_run hu hwait),o,ho,rfl,fun _ => hu.ends⟩

/-- The post of the context's element has run, and is over. -/
theorem inv_over {who : By} (h : Inv s) (ho : (s.ele k).op=some o) (hu : o.untouched)
    (hr : who=.read → o.asc.dir=.recv) (hw : who=.write → o.asc.dir=.send) :
    Inv (s.setOp k (some ((o.run a).end (post o.asc a) who))) :=
  inv_setOp h fun o' ho' => by
    cases ho'
    exact ⟨.inr (good_run hu hr hw),o,ho,rfl,fun _ => hu.ends⟩

theorem ctx_alive (h : Shape s) (hc : s.ctx=some k) : s.alive k=true := by
  cases h with
  | gone hn =>
    rw [hn] at hc
    cases hc
  | single f hf ha =>
    rw [hf] at hc
    cases hc
    exact ha
  | pair f j hf ha =>
    rw [hf] at hc
    cases hc
    exact ha

theorem inv_cbOn {d : Dir} (h : Inv s) (hok : ∀ k∈s.ctx,∀ o∈(s.ele k).op,o.asc.dir=d ∧ o.ends=[])
    (hu : cbOn s d a=some s') : Inv s' := by
  simp only [cbOn] at hu
  split at hu
  · rename_i k hc
    split at hu
    · split at hu
      · rename_i o ho
        obtain ⟨hdir,hends⟩ := hok k hc o ho
        have huntouched := untouched_of_live (h.ops k (ctx_alive h.shape hc) o ho) hends
        split at hu <;> cases hu
        · rename_i hwait
          exact inv_setWant (inv_wait h ho huntouched hwait)
        · refine inv_setWant (inv_over h ho huntouched ?_ ?_) <;> cases d <;> simp [Dir.callback,hdir]
      · cases hu
        exact inv_setWant h
    · cases hu
  · cases hu

/-- What on_close makes of an element. -/
def shut (e : Ele κ) : Ele κ := {e with stream := false, op := e.op.map fun o => o.end dpeClosed .close}

theorem end_shut : dpevpEnd (s.setEle k {s.ele k with stream := false}) k dpeClosed .close=s.setEle k (shut (s.ele k)) := by
  unfold dpevpEnd Sys.setOp
  rw [setEle_self]
  simp only [Sys.setEle,Function.update_idem]
  rfl

/-- The elements that on_close reaches are all that there are. -/
theorem onClose_ele (h : Shape s) (hu : step s .onClose=some s') : s'.ctx=none ∧ s'.alive=s.alive ∧
    s'.reports=s.reports ∧ (s.ctx=none ∧ s'.ele=s.ele ∨
      s.ctx≠none ∧ ∀ i,s.alive i=true → s'.ele i=shut (s.ele i)) := by
  simp only [step] at hu
  split at hu
  · split at hu
    · rename_i hc
      cases hu
      exact ⟨hc,rfl,rfl,.inl ⟨hc,rfl⟩⟩
    · rename_i k hc
      simp only [end_shut] at hu
      rw [setEle_self,show (shut (s.ele k)).avatar=(s.ele k).avatar from rfl] at hu
      cases h with
      | gone hn =>
        rw [show s.ctx=some k from hc] at hn
        cases hn
      | single f hf ha hst how hav hall =>
        rw [show s.ctx=some k from hc] at hf
        cases hf
        rw [hav] at hu
        cases hu
        refine ⟨rfl,rfl,rfl,.inr ⟨by simp [hc],fun i hi => ?_⟩⟩
        have hik := hall i hi
        subst hik
        exact setEle_self
      | pair f j hf ha hst how hav hne haj hst' how' hav' hall hop1 hop2 =>
        rw [show s.ctx=some k from hc] at hf
        cases hf
        rw [hav] at hu
        simp only at hu
        cases hu
        refine ⟨rfl,rfl,rfl,.inr ⟨by simp [hc],fun i hi => ?_⟩⟩
        rcases hall i hi with rfl | rfl
        · exact (setEle_ne (Ne.symm hne)).trans setEle_self
        · refine setEle_self.trans ?_
          rw [setEle_ne hne]
  · cases hu

/-- All that has not ended is about to be ended by on_close. -/
theorem onClose_calm (h : Shape s) (hok : calm s .onClose) (hc : s.ctx≠none) :
    ∀ i,s.alive i=true → ∀ o,(s.ele i).op=some o → o.ends=[] := by
  intro i hi o ho
  cases h with
  | gone hn => exact absurd hn hc
  | single f hf ha hst how hav hall =>
    have hif := hall i hi
    subst hif
    exact (hok i hf).1 o ho
  | pair f j hf ha hst how hav hne haj hst' how' hav' hall hop1 hop2 =>
    rcases hall i hi with rfl | rfl
    · exact (hok i hf).1 o ho
    · exact (hok f hf).2 i hav o ho

theorem inv_onClose (h : Inv s) (hok : calm s .onClose) (hu : step s .onClose=some s') : Inv s' := by
  obtain ⟨hctx,ha,hrep,hcase⟩ := onClose_ele h.shape hu
  rcases hcase with ⟨hc,hele⟩ | ⟨hc,hele⟩
  · refine ⟨shape_ops h.shape (hctx.trans hc.symm) ha (fun i => ?_) fun i o ho => ⟨o,?_,rfl,id⟩,fun i hi o ho => ?_,
      fun o ho => h.reports o (by rw [← hrep]; exact ho)⟩
    · rw [hele]
      exact ⟨rfl,rfl,rfl⟩
    · rw [← hele]
      exact ho
    · exact h.ops i (by rw [← ha]; exact hi) o (by rw [← hele]; exact ho)
  · have hends := onClose_calm h.shape hok hc
    refine ⟨.gone hctx fun i hi => ?_,fun i hi o' ho' => ?_,fun o ho => h.reports o (by rw [← hrep]; exact ho)⟩
    · rw [ha] at hi
      rw [hele i hi]
      refine ⟨rfl,fun o' ho' => ?_⟩
      obtain ⟨o,-,rfl⟩ := Option.map_eq_some_iff.mp ho'
      simp [Oper.end]
    · rw [ha] at hi
      rw [hele i hi] at ho'
      obtain ⟨o,ho,rfl⟩ := Option.map_eq_some_iff.mp ho'
      exact .inr (good_end (untouched_of_live (h.ops i hi o ho) (hends i hi o ho)) (by simp) (by simp))

theorem inv_ref (h : Inv s) (hu : step s (.ref k)=some s') : Inv s' := by
  simp only [step] at hu
  split at hu
  · cases hu
    exact inv_setEle h rfl rfl rfl rfl
  · cases hu

theorem inv_cease {ret : Dpret} (h : Inv s) (hok : calm s (.cease k ret)) (hu : step s (.cease k ret)=some s') :
    Inv s' := by
  simp only [step] at hu
  split at hu
  · rename_i hk
    cases hu
    exact inv_end h hk hok (by simp) (by simp)
  · cases hu

theorem step_inv {act : Act κ} (h : Inv s) (hok : calm s act) (hu : step s act=some s') : Inv s' := by
  cases act with
  | ref k => exact inv_ref h hu
  | del k => exact inv_del h hok hu
  | dup k j ok => exact inv_dup h hok hu
  | add k asc ok => exact inv_add h hu
  | cease k ret => exact inv_cease h hok hu
  | pop k => exact inv_pop h hok hu
  | timeout k => exact inv_timeout h hok hu
  | onRead a => exact inv_cbOn h hok hu
  | onWrite a => exact inv_cbOn h (fun k hk => (hok k hk).1) hu
  | onClose => exact inv_onClose h hok hu

/-! ### Soundness -/

/-- A callback leaves the other elements, and ends the operation that it takes unless that waits on. -/
theorem cbOn_ele {d : Dir} (hu : cbOn s d a=some s') : ∃ k,s.ctx=some k ∧ (∀ i,i≠k → s'.ele i=s.ele i) ∧
    ∀ o,(s.ele k).op=some o → post o.asc a≠dpeWait → ∃ o',(s'.ele k).op=some o' ∧ o'.ends=o.ends++[d.callback] := by
  simp only [cbOn] at hu
  split at hu
  · rename_i k hc
    refine ⟨k,hc,?_⟩
    split at hu
    · split at hu
      · rename_i o ho
        split at hu <;> cases hu <;> rw [setWant_ele]
        · rename_i hwait
          refine ⟨fun i hi => setOp_ne hi,fun o' ho' hne => ?_⟩
          rw [ho] at ho'
          cases ho'
          exact absurd hwait hne
        · refine ⟨fun i hi => setOp_ne hi,fun o' ho' _ => ⟨_,congrArg Ele.op (setOp_self _),?_⟩⟩
          rw [ho] at ho'
          cases ho'
          rfl
      · rename_i hnone
        cases hu
        rw [setWant_ele]
        refine ⟨fun i _ => rfl,fun o' ho' => ?_⟩
        rw [hnone] at ho'
        cases ho'
    · cases hu
  · cases hu

/-- What is pending is at the context's element, unless it is the send of the avatar. -/
theorem pending_ctx {d : Dir} (h : Shape s) (hp : pending s k d) :
    s.ctx=some k ∨ d=.send ∧ ∃ f,s.ctx=some f ∧ (s.ele f).avatar=some k := by
  obtain ⟨hk,o,ho,hends,hd⟩ := hp
  cases h with
  | gone hc hnone => exact absurd hends ((hnone k hk).2 o ho)
  | single f hc haf hst how hav hall =>
    rw [hall k hk]
    exact .inl hc
  | pair f j hc haf hst how hav hne haj hst' how' hav' hall hop1 hop2 =>
    rcases hall k hk with rfl | rfl
    · exact .inl hc
    · exact .inr ⟨hd.symm.trans (hop2 o ho),f,hc,hav⟩

theorem sound_read (h : Shape s) (hu : step s (.onRead a)=some s') (hok : calm s (.onRead a)) (k : κ) :
    (pending s k .send → (s'.ele k).op=(s.ele k).op) ∧
      ∀ o,pending s k .recv → (s.ele k).op=some o → post o.asc a≠dpeWait → ∃ o',(s'.ele k).op=some o' ∧ o'.ends=[.read] := by
  obtain ⟨f,hc,hother,hself⟩ := cbOn_ele hu
  refine ⟨fun ⟨_,o,ho,_,hd⟩ => ?_,fun o hp ho hne => ?_⟩
  · by_cases hkf : k=f
    · subst hkf
      rw [(hok k hc o ho).1] at hd
      cases hd
    · rw [hother k hkf]
  · have hck : s.ctx=some k := (pending_ctx h hp).resolve_right fun h => by cases h.1
    rw [hck] at hc
    cases hc
    obtain ⟨o',ho',hends⟩ := hself o ho hne
    rw [(hok k hck o ho).2] at hends
    exact ⟨o',ho',hends⟩

theorem sound_write (h : Shape s) (hu : step s (.onWrite a)=some s') (hok : calm s (.onWrite a)) (k : κ) :
    (pending s k .recv → (s'.ele k).op=(s.ele k).op) ∧
      ∀ o,pending s k .send → (s.ele k).op=some o → post o.asc a≠dpeWait → ∃ o',(s'.ele k).op=some o' ∧ o'.ends=[.write] := by
  obtain ⟨f,hc,hother,hself⟩ := cbOn_ele hu
  refine ⟨fun ⟨_,o,ho,_,hd⟩ => ?_,fun o hp ho hne => ?_⟩
  · by_cases hkf : k=f
    · subst hkf
      rw [((hok k hc).1 o ho).1] at hd
      cases hd
    · rw [hother k hkf]
  · have hck : s.ctx=some k := by
      refine (pending_ctx h hp).resolve_right fun ⟨_,f',hf',hav⟩ => ?_
      obtain ⟨_,o',ho',hends,hd⟩ := hp
      exact (hok f' hf').2 k hav o' ho' ⟨hd,hends⟩
    rw [hck] at hc
    cases hc
    obtain ⟨o',ho',hends⟩ := hself o ho hne
    rw [((hok k hck).1 o ho).2] at hends
    exact ⟨o',ho',hends⟩

theorem sound_close (h : Shape s) (hu : step s .onClose=some s') (k : κ) (d : Dir) : ¬pending s' k d := by
  rintro ⟨hk,o',ho',hends,hd⟩
  obtain ⟨-,ha,-,hcase⟩ := onClose_ele h hu
  rw [ha] at hk
  rcases hcase with ⟨hc,hele⟩ | ⟨-,hele⟩
  · rw [hele] at ho'
    rcases pending_ctx h ⟨hk,o',ho',hends,hd⟩ with hf | ⟨-,f,hf,-⟩
    all_goals
      rw [hc] at hf
      cases hf
  · rw [hele k hk] at ho'
    obtain ⟨o,-,rfl⟩ := Option.map_eq_some_iff.mp ho'
    simp [Oper.end] at hends

theorem Inv.sound (h : Inv s) : Sound s :=
  ⟨fun _ hc => ctx_alive h.shape hc,h.reports,fun _ _ hu hok => sound_read h.shape hu hok,
    fun _ _ hu hok => sound_write h.shape hu hok,fun _ hu _ => sound_close h.shape hu⟩

/-- In every calm run, and for every first element. -/
theorem qic_stream (h : Reach step calm (start k) s) : Sound s :=
  (h.invariant (inv_start k) fun _ _ _ => step_inv).sound

end Steps

/-! ### Runs -/

instance (s : Sys κ) (k : κ) : Decidable (leaves s k) := inferInstanceAs (Decidable (_ → _))

instance (s : Sys κ) : (act : Act κ) → Decidable (calm s act)
  | .onRead _ => inferInstanceAs (Decidable (∀ k∈s.ctx,∀ o∈(s.ele k).op,_ ∧ _))
  | .onWrite _ => inferInstanceAs (Decidable (∀ k∈s.ctx,(∀ o∈(s.ele k).op,_ ∧ _) ∧ ∀ j∈(s.ele k).avatar,
      ∀ o∈(s.ele j).op,¬(_ ∧ _)))
  | .onClose => inferInstanceAs (Decidable (∀ k∈s.ctx,(∀ o∈(s.ele k).op,_) ∧ ∀ j∈(s.ele k).avatar,∀ o∈(s.ele j).op,_))
  | .cease k _ => inferInstanceAs (Decidable (∀ o∈(s.ele k).op,_))
  | .dup _ _ ok => inferInstanceAs (Decidable (ok=true))
  | .del _ => inferInstanceAs (Decidable (_ → _ → _))
  | .pop _ | .timeout _ => inferInstanceAs (Decidable (_ → _))
  | .ref _ | .add .. => .isTrue trivial

/-- The first element receives five bytes while the avatar sends; then the stream closes, and the avatar goes first. -/
def closed : List (Act ℕ) :=
  [.dup 0 1 true,.add 0 .recv true,.add 1 .send true,.onRead ⟨5,0⟩,.pop 0,.add 0 .recv true,.onClose,.pop 0,.pop 1,
    .del 1,.del 0]

theorem qic_stream_closed : ∃ s : Sys ℕ,s.reports.map (fun o => (o.ret,o.bytes))=[(5,5),(dpeClosed,0),(dpeClosed,0)] ∧
    Sound s := by
  have hrun : ((execOk step calm (start 0) closed).any fun s =>
      decide (s.reports.map (fun o => (o.ret,o.bytes))=[(5,5),(dpeClosed,0),(dpeClosed,0)]))=true := by decide +kernel
  obtain ⟨s,hs,hend⟩ := (Option.any_eq_true _ _).mp hrun
  exact ⟨s,of_decide_eq_true hend,qic_stream (execOk_reach hs)⟩

/-- The avatar's send has set wantwrite, and on_write takes the receive of the first element. -/
def crossed : List (Act ℕ) :=
  [.dup 0 1 true,.add 0 .recv true,.add 1 .send true,.onWrite ⟨5,0⟩,.pop 0]

theorem qic_stream_crossed : ¬∀ s : Sys ℕ,Reach step anyStep (start 0) s → Sound s := by
  intro hall
  have hrun : ((Machine.exec step (start 0) crossed).any fun s =>
      decide (s.reports=[{asc := .recv, ret := 5, ends := [.write], bytes := 5}]))=true := by decide +kernel
  obtain ⟨s,hs,hend⟩ := (Option.any_eq_true _ _).mp hrun
  obtain ⟨who,hends,-,hw,-⟩ := (hall s (exec_reach hs)).reports _ (by rw [of_decide_eq_true hend]; exact .head _)
  cases hends
  cases hw rfl

end Dpapp.QicStream
