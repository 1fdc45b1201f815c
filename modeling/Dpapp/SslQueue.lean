import Dpapp.Machine
import Dpapp.EfdIo

/-! # TLS connections of a thread (dpssl.c)

The TLS elements of one thread, and what they share: errno and the error queue of OpenSSL. -/

set_option linter.unusedSectionVars false

namespace Dpapp.SslQueue
open Dpapp.Machine Dpapp.Ret Dpapp.EfdWake Dpapp.EfdIo

/-! ### OpenSSL -/

/-- The answers of SSL_get_error. -/
inductive SslErr | none | ssl | wantRead | wantWrite | syscall | zeroReturn | other
  deriving DecidableEq

/-- A call on a session: what it returns, the reasons that it appends to the error queue, errno if it sets it, and what
SSL_get_error makes of it when the queue is empty. -/
structure Answer (σ : Type*) where
  ret : ℤ
  ssn : σ
  queued : List ℤ := []
  errno : Option ℤ := none
  own : SslErr := .none

/-- OpenSSL, as far as it is about one session; `arrive` is what the network does to it. -/
structure Ssl (σ ξ : Type*) where
  finished : σ → Bool
  handshake : σ → Answer σ
  shutdown : σ → Answer σ
  read : ℤ → σ → Answer σ
  write : ℤ → σ → Answer σ
  arrive : ξ → σ → σ

/-- SSL_get_error looks at the queue first. -/
def sslGetError (queue : List ℤ) (ret : ℤ) (own : SslErr) : SslErr :=
  if 0<ret then .none else if queue≠[] then .ssl else own

/-- SSL_R_UNEXPECTED_EOF_WHILE_READING -/
def unexpectedEof : ℤ := 294

/-! ### The post functions -/

inductive Asc | handshake | shutdown | recv (null : Bool) (len : ℤ) | send (null : Bool) (len : ℤ)
  deriving DecidableEq

def dpeInternalError : Dpret := -500

/-- What the code sees of a call: `eof` tells whether ERR_peek_error gives an unexpected EOF. -/
structure Seen where
  ret : ℤ
  err : SslErr
  eof : Bool
  errno : ℤ

/-- `_dpssl_post_err`; an event mask that is not set is left as the loop gave it. -/
def postErr (a : Seen) : PostRet :=
  match a.err with
  | .ssl => if a.eof=true then ⟨dpeEof,{}⟩ else ⟨if 0<a.errno then -a.errno else dpeInternalError,{}⟩
  | .wantRead => ⟨dpeWait,⟨{.inp},{.inp}⟩⟩
  | .wantWrite => ⟨dpeWait,⟨{.out},{.out}⟩⟩
  | .syscall => ⟨dpeEof,{}⟩
  | .none | .zeroReturn | .other => ⟨dpeConnreset,{}⟩

/-- `_dpssl_prep_err` -/
def prepErr (a : Seen) : PostRet :=
  match a.err with
  | .wantRead => ⟨dpeContinue,⟨{.inp},∅⟩⟩
  | .wantWrite => ⟨dpeContinue,⟨{.out},∅⟩⟩
  | _ => postErr a

/-- dpssl_log_error takes one entry off the queue. -/
def logs (a : Seen) : Bool :=
  match a.err with
  | .ssl => !a.eof
  | .wantRead | .wantWrite | .syscall => false
  | .none | .zeroReturn | .other => true

/-- `_dpssl_recv_post` and `_dpssl_send_post` after a call; `total` is what the calls before have done. -/
def ioTurn (asc : Asc) (len total : ℤ) (a : Seen) : Next Asc ℤ :=
  if 0<a.ret then
    if total+a.ret=len then .ret asc ⟨total+a.ret,{}⟩ else .call asc (total+a.ret)
  else .ret asc {postErr a with ret := if 0<total then total else (postErr a).ret}

def post : Post Asc ℤ Seen where
  enter _ := 0
  turn _ asc total a :=
    match asc with
    | .handshake | .shutdown => .ret asc (if a.ret=1 then ⟨dpeOk,{}⟩ else postErr a)
    | .recv _ len | .send _ len => ioTurn asc len total a

/-- The code asks SSL_get_error about the call. -/
def asks (asc : Asc) (ret : ℤ) : Bool :=
  match asc with
  | .handshake | .shutdown => decide (ret≠1)
  | .recv .. | .send .. => decide (ret≤0)

/-! ### The thread -/

/- `dpssl_ssn_udata_t` and the element: `added` tells whether dpevp_addv runs the wake loop, and `done` is an operation
that has ended and waits for dpevp_pop. History: what the operations have given. -/
structure Ele (σ : Type*) where
  ssn : σ
  fd : Fd Asc ℤ := {}
  added : Bool := false
  done : Option (Asc × Dpret) := none
  given : List (Asc × Dpret) := []

/- `busy` is the element whose wake loop runs. -/
structure Sys (ι σ : Type*) where
  ele : ι → Ele σ
  queue : List ℤ := []
  errno : ℤ := 0
  busy : Option ι := none

variable {ι σ ξ : Type*} [DecidableEq ι]

def Fd.runs (f : Fd Asc ℤ) : Bool :=
  match f.pend with
  | some ⟨_,some _⟩ => true
  | _ => false

def Sys.put (s : Sys ι σ) (i : ι) (x : Ele σ) : Sys ι σ :=
  {s with ele := Function.update s.ele i x, busy := if Fd.runs x.fd=true then some i else none}

def answer (ssl : Ssl σ ξ) (asc : Asc) (total : ℤ) : σ → Answer σ :=
  match asc with
  | .handshake => ssl.handshake
  | .shutdown => ssl.shutdown
  | .recv _ len => ssl.read (len-total)
  | .send _ len => ssl.write (len-total)

/-- What the code sees of an answer, given the queue and errno before the call. -/
def Answer.seen (a : Answer σ) (queue : List ℤ) (errno : ℤ) : Seen :=
  let queue := queue++a.queued
  ⟨a.ret,sslGetError queue a.ret a.own,decide (queue.head?=some unexpectedEof),a.errno.getD errno⟩

/-- The call, and the error functions after it. -/
def call (ssl : Ssl σ ξ) (s : Sys ι σ) (i : ι) (asc : Asc) (total : ℤ) : Sys ι σ × Seen :=
  let a := answer ssl asc total (s.ele i).ssn
  let seen := a.seen s.queue s.errno
  let queue := s.queue++a.queued
  ({s with
    ele := Function.update s.ele i {s.ele i with ssn := a.ssn}
    queue := if asks asc a.ret=true ∧ logs seen=true then queue.tail else queue
    errno := seen.errno},seen)

/-- The operation is over with a result, which dpevp_addv returns if it is an error, and dpevp_pop otherwise. -/
def Ele.finish (x : Ele σ) (asc : Asc) (r : Dpret) : Ele σ :=
  if x.added=true ∧ dpretIsok r then {x with done := some (asc,r)} else {x with given := x.given++[(asc,r)]}

def Ele.settle (x : Ele σ) (asc : Asc) (y : Fd Asc ℤ × Option Dpret) : Ele σ :=
  match y.2 with
  | none => {x with fd := y.1}
  | some r => {x with fd := y.1}.finish asc r

/-- `_dpssl_handshake_prep`, `_dpssl_shutdown_prep`, `_dpssl_recv_prep`, `_dpssl_send_prep` -/
def prep (ssl : Ssl σ ξ) (s : Sys ι σ) (i : ι) : Asc → Sys ι σ × PostRet
  | .handshake =>
      if ssl.finished (s.ele i).ssn=true then (s,⟨dpeOk,{}⟩)
      else
        let (s,a) := call ssl s i .handshake 0
        (s,if a.ret=1 then ⟨dpeOk,{}⟩ else prepErr a)
  | .shutdown =>
      let (s,a) := call ssl s i .shutdown 0
      (s,if a.ret=1 then ⟨dpeOk,{}⟩ else prepErr a)
  | .recv null len => (s,if null=true ∨ len≤0 then ⟨dpeInval,{}⟩ else ⟨dpeContinue,⟨{.inp},∅⟩⟩)
  | .send null len => (s,if null=true ∨ len≤0 then ⟨dpeInval,{}⟩ else ⟨dpeContinue,⟨{.out},∅⟩⟩)

/-- dpevp_addv -/
def add (ssl : Ssl σ ξ) (s : Sys ι σ) (i : ι) (asc : Asc) : Sys ι σ :=
  let (s,p) := prep ssl s i asc
  let x := {s.ele i with added := true}
  if p.ret=dpeContinue then s.put i (x.settle asc (x.fd.add post asc p.out))
  -- an SSL error with EAGAIN left in errno
  else if p.ret=dpeWait then s.put i {x with fd := ⟨x.fd.efd,some ⟨asc,none⟩⟩}
  else s.put i (x.finish asc p.ret)

/- `call` is the next call of the post function that runs, `arrive` what the network does, and `rest` all that other code
of the thread does to the queue and errno. -/
inductive Act (ι ξ : Type*)
  | add (i : ι) (asc : Asc)
  | feed (i : ι) (evs : Evts)
  | call (i : ι)
  | cease (i : ι) (ret : Dpret)
  | timeout (i : ι)
  | pop (i : ι)
  | arrive (i : ι) (x : ξ)
  | rest (queue : List ℤ) (errno : ℤ)

def step (ssl : Ssl σ ξ) (s : Sys ι σ) : Act ι ξ → Option (Sys ι σ)
  | .add i asc =>
      if s.busy=none then
        if (s.ele i).fd.pend.isSome=true ∨ (s.ele i).done.isSome=true then
          some (s.put i {s.ele i with given := (s.ele i).given++[(asc,dpePerm)]})
        else some (add ssl s i asc)
      else none
  | .feed i evs =>
      if s.busy=none then
        let x := {s.ele i with added := false}
        (x.fd.feed post evs).map fun y => s.put i (match x.fd.pend with
          | some p => x.settle p.data y
          | none => {x with fd := y.1})
      else none
  | .call i =>
      match (s.ele i).fd.pend with
      | some ⟨asc,some total⟩ =>
          let (s,a) := call ssl s i asc total
          let x := s.ele i
          some (s.put i (x.settle asc (x.fd.next post (post.turn x.fd.efd.able asc total a))))
      | _ => none
  | .cease i r =>
      if s.busy=none then
        match (s.ele i).fd.pend,(s.ele i).done with
        | some p,_ => some (s.put i {s.ele i with fd := (s.ele i).fd.stop, done := some (p.data,r)})
        | none,some (asc,_) => some (s.put i {s.ele i with done := some (asc,r)})
        | none,none => some s
      else none
  | .timeout i =>
      if s.busy=none then
        (s.ele i).fd.pend.map fun p =>
          s.put i {s.ele i with fd := (s.ele i).fd.stop, given := (s.ele i).given++[(p.data,dpeTime)]}
      else none
  | .pop i =>
      if s.busy=none then
        (s.ele i).done.map fun d => s.put i {s.ele i with done := none, given := (s.ele i).given++[d]}
      else none
  | .arrive i x => some {s with ele := Function.update s.ele i {s.ele i with ssn := ssl.arrive x (s.ele i).ssn}}
  | .rest queue errno => some {s with queue := queue, errno := errno}

/-! ### Results are an element's own -/

/-- The step is one of the element, or of the network for it. -/
def Act.of (i : ι) : Act ι ξ → Bool
  | .add j _ | .feed j _ | .call j | .cease j _ | .timeout j | .pop j | .arrive j _ => decide (j=i)
  | .rest .. => false

/-- The call that a step makes first. -/
def asked (ssl : Ssl σ ξ) (s : Sys ι σ) : Act ι ξ → Option (ι × Asc × ℤ)
  | .add i asc =>
      if (s.ele i).fd.pend.isSome=true ∨ (s.ele i).done.isSome=true then none
      else match asc with
        | .handshake => if ssl.finished (s.ele i).ssn=true then none else some (i,.handshake,0)
        | .shutdown => some (i,.shutdown,0)
        | .recv .. | .send .. => none
  | .call i =>
      match (s.ele i).fd.pend with
      | some ⟨asc,some total⟩ => some (i,asc,total)
      | _ => none
  | _ => none

/-- A call that fails otherwise than by an unexpected EOF sets errno. -/
def Answer.tells (a : Answer σ) : Prop := (a.seen [] 0).err=.ssl → (a.seen [] 0).eof=false → a.errno≠none

def quiet (ssl : Ssl σ ξ) (s : Sys ι σ) (i : ι) (asc : Asc) (total : ℤ) : Prop :=
  s.queue=[] ∧ (answer ssl asc total (s.ele i).ssn).tells

/-- The calls of the element are made with an empty queue, and tell errno where it is read. -/
def calm (ssl : Ssl σ ξ) (i : ι) (s : Sys ι σ) (a : Act ι ξ) : Prop :=
  ∀ x∈asked ssl s a,x.1=i → quiet ssl s i x.2.1 x.2.2

def start (ssn : ι → σ) : Sys ι σ := {ele := fun i => {ssn := ssn i}}

/-- An operation whose first call has to wait, and that queues nothing, goes on. -/
def waits (ssl : Ssl σ ξ) (i : ι) (s : Sys ι σ) : Prop :=
  ∀ s' asc,step ssl s (.call i)=some s' → calm ssl i s (.call i) → (s.ele i).fd.pend=some ⟨asc,some 0⟩ →
    let a := answer ssl asc 0 (s.ele i).ssn
    a.ret≤0 → a.queued=[] → a.own=.wantRead ∨ a.own=.wantWrite →
      (s'.ele i).given=(s.ele i).given ∧ (s'.ele i).done=(s.ele i).done ∧ ∃ p,(s'.ele i).fd.pend=some p ∧ p.data=asc

/-! ### What the code sees -/

section Proofs
variable {ssl : Ssl σ ξ} {s s' t t' : Sys ι σ} {i j : ι}

/-- They differ in an errno that nothing reads. -/
structure Seen.like (a b : Seen) : Prop where
  ret : a.ret=b.ret
  err : a.err=b.err
  eof : a.eof=b.eof
  errno : a.err=.ssl → a.eof=false → a.errno=b.errno

theorem postErr_like {a b : Seen} (h : a.like b) : postErr a=postErr b := by
  unfold postErr
  rw [← h.err,← h.eof]
  cases herr : a.err with
  | ssl =>
    cases heof : a.eof with
    | true => rfl
    | false => rw [h.errno herr heof]
  | none | wantRead | wantWrite | syscall | zeroReturn | other => rfl

theorem prepErr_like {a b : Seen} (h : a.like b) : prepErr a=prepErr b := by
  unfold prepErr
  rw [← h.err,postErr_like h]

theorem turn_like {a b : Seen} (h : a.like b) (evs : Evts) (asc : Asc) (total : ℤ) :
    post.turn evs asc total a=post.turn evs asc total b := by
  cases asc with
  | handshake | shutdown =>
    simp only [post]
    rw [h.ret,postErr_like h]
  | recv | send =>
    simp only [post,ioTurn]
    rw [h.ret,postErr_like h]

theorem seen_like {a : Answer σ} (h : a.tells) (e e' : ℤ) : (a.seen [] e).like (a.seen [] e') := by
  refine ⟨rfl,rfl,rfl,fun herr heof => ?_⟩
  cases hno : a.errno with
  | none => exact absurd hno (h herr heof)
  | some v => simp [Answer.seen,hno]

/-! ### Two runs -/

theorem put_self (x : Ele σ) : (s.put i x).ele i=x := Function.update_self ..
theorem put_ne (x : Ele σ) (h : i≠j) : (s.put j x).ele i=s.ele i := Function.update_of_ne h ..

theorem call_ele (asc : Asc) (total : ℤ) :
    (call ssl s i asc total).1.ele i={s.ele i with ssn := (answer ssl asc total (s.ele i).ssn).ssn} :=
  Function.update_self ..

theorem call_ne (asc : Asc) (total : ℤ) (h : i≠j) : (call ssl s j asc total).1.ele i=s.ele i := Function.update_of_ne h ..

theorem call_agree {asc : Asc} {total : ℤ} (h : s.ele i=t.ele i) (hs : quiet ssl s i asc total)
    (ht : quiet ssl t i asc total) : (call ssl s i asc total).1.ele i=(call ssl t i asc total).1.ele i ∧
      (call ssl s i asc total).2.like (call ssl t i asc total).2 := by
  refine ⟨by rw [call_ele,call_ele,h],?_⟩
  simp only [call]
  rw [hs.1,ht.1,← h]
  exact seen_like hs.2 s.errno t.errno

theorem prep_agree {asc : Asc} (h : s.ele i=t.ele i) (hfree : ¬((s.ele i).fd.pend.isSome=true ∨ (s.ele i).done.isSome=true))
    (hs : calm ssl i s (.add i asc)) (ht : calm ssl i t (.add i asc)) :
    (prep ssl s i asc).1.ele i=(prep ssl t i asc).1.ele i ∧ (prep ssl s i asc).2=(prep ssl t i asc).2 := by
  have hfree' : ¬((t.ele i).fd.pend.isSome=true ∨ (t.ele i).done.isSome=true) := by rwa [← h]
  cases asc with
  | handshake =>
    simp only [prep]
    rw [← h]
    split
    · exact ⟨h,rfl⟩
    · rename_i hfin
      have hfin' : ¬ssl.finished (t.ele i).ssn=true := by rwa [← h]
      have hqs := hs (i,.handshake,0) (by simp [asked,hfree,hfin]) rfl
      have hqt := ht (i,.handshake,0) (by simp [asked,hfree',hfin']) rfl
      obtain ⟨hele,hlike⟩ := call_agree h hqs hqt
      refine ⟨hele,?_⟩
      simp only
      rw [hlike.ret,prepErr_like hlike]
  | shutdown =>
    have hqs := hs (i,.shutdown,0) (by simp [asked,hfree]) rfl
    have hqt := ht (i,.shutdown,0) (by simp [asked,hfree']) rfl
    obtain ⟨hele,hlike⟩ := call_agree h hqs hqt
    refine ⟨hele,?_⟩
    simp only [prep]
    rw [hlike.ret,prepErr_like hlike]
  | recv | send => exact ⟨h,rfl⟩

theorem add_agree {asc : Asc} (h : s.ele i=t.ele i) (hs : calm ssl i s (.add i asc)) (ht : calm ssl i t (.add i asc))
    (hu : step ssl s (.add i asc)=some s') (hv : step ssl t (.add i asc)=some t') : s'.ele i=t'.ele i := by
  simp only [step] at hu hv
  rw [← h] at hv
  split at hu
  · split at hv
    · split at hu
      · rename_i hdoing
        rw [if_pos hdoing] at hv
        cases hu
        cases hv
        rw [put_self,put_self]
      · rename_i hfree
        rw [if_neg hfree] at hv
        cases hu
        cases hv
        obtain ⟨hele,hret⟩ := prep_agree h hfree hs ht
        simp only [add]
        rw [hret]
        split
        · rw [put_self,put_self,hele]
        · split <;> rw [put_self,put_self,hele]
    · cases hv
  · cases hu

theorem call_step_agree (h : s.ele i=t.ele i) (hs : calm ssl i s (.call i)) (ht : calm ssl i t (.call i))
    (hu : step ssl s (.call i)=some s') (hv : step ssl t (.call i)=some t') : s'.ele i=t'.ele i := by
  simp only [step] at hu hv
  split at hu
  · rename_i asc total hp
    have hp' : (t.ele i).fd.pend=some ⟨asc,some total⟩ := by rw [← h]; exact hp
    rw [hp'] at hv
    cases hu
    cases hv
    obtain ⟨hele,hlike⟩ := call_agree h (hs (i,asc,total) (by simp [asked,hp]) rfl) (ht (i,asc,total) (by simp [asked,hp']) rfl)
    rw [put_self,put_self,hele,turn_like hlike]
  · cases hu

/-- Two steps of the element, in states that agree on it. -/
theorem step_mine {a : Act ι ξ} (h : s.ele i=t.ele i) (hm : a.of i=true) (hs : calm ssl i s a) (ht : calm ssl i t a)
    (hu : step ssl s a=some s') (hv : step ssl t a=some t') : s'.ele i=t'.ele i := by
  cases a with
  | add j asc =>
    cases of_decide_eq_true hm
    exact add_agree h hs ht hu hv
  | call j =>
    cases of_decide_eq_true hm
    exact call_step_agree h hs ht hu hv
  | feed j evs =>
    cases of_decide_eq_true hm
    simp only [step] at hu hv
    rw [← h] at hv
    split at hu
    · split at hv
      · obtain ⟨y,hy,rfl⟩ := Option.map_eq_some_iff.mp hu
        obtain ⟨z,hz,rfl⟩ := Option.map_eq_some_iff.mp hv
        rw [hy] at hz
        cases hz
        rw [put_self,put_self]
      · cases hv
    · cases hu
  | cease j r =>
    cases of_decide_eq_true hm
    simp only [step] at hu hv
    rw [← h] at hv
    split at hu
    · split at hv
      · split at hu
        · rename_i hp
          rw [hp] at hv
          cases hu
          cases hv
          rw [put_self,put_self]
        · rename_i hp hd
          rw [hp,hd] at hv
          cases hu
          cases hv
          rw [put_self,put_self]
        · rename_i hp hd
          rw [hp,hd] at hv
          cases hu
          cases hv
          exact h
      · cases hv
    · cases hu
  | timeout j =>
    cases of_decide_eq_true hm
    simp only [step] at hu hv
    rw [← h] at hv
    split at hu
    · split at hv
      · obtain ⟨p,hp,rfl⟩ := Option.map_eq_some_iff.mp hu
        obtain ⟨q,hq,rfl⟩ := Option.map_eq_some_iff.mp hv
        rw [hp] at hq
        cases hq
        rw [put_self,put_self]
      · cases hv
    · cases hu
  | pop j =>
    cases of_decide_eq_true hm
    simp only [step] at hu hv
    rw [← h] at hv
    split at hu
    · split at hv
      · obtain ⟨p,hp,rfl⟩ := Option.map_eq_some_iff.mp hu
        obtain ⟨q,hq,rfl⟩ := Option.map_eq_some_iff.mp hv
        rw [hp] at hq
        cases hq
        rw [put_self,put_self]
      · cases hv
    · cases hu
  | arrive j x =>
    cases of_decide_eq_true hm
    cases hu
    cases hv
    simp only [Function.update_self]
    rw [h]
  | rest queue errno => cases hm

theorem prep_ne {asc : Asc} (h : i≠j) : (prep ssl s j asc).1.ele i=s.ele i := by
  cases asc with
  | handshake =>
    simp only [prep]
    split
    · rfl
    · exact call_ne _ _ h
  | shutdown => exact call_ne _ _ h
  | recv | send => rfl

/-- The steps of others. -/
theorem step_other {a : Act ι ξ} (hm : a.of i=false) (hu : step ssl s a=some s') : s'.ele i=s.ele i := by
  cases a with
  | add j asc =>
    have hij : i≠j := Ne.symm (of_decide_eq_false hm)
    simp only [step] at hu
    split at hu
    · split at hu <;> cases hu
      · exact put_ne _ hij
      · simp only [add]
        split
        · exact (put_ne _ hij).trans (prep_ne hij)
        · split <;> exact (put_ne _ hij).trans (prep_ne hij)
    · cases hu
  | call j =>
    have hij : i≠j := Ne.symm (of_decide_eq_false hm)
    simp only [step] at hu
    split at hu
    · cases hu
      exact (put_ne _ hij).trans (call_ne _ _ hij)
    · cases hu
  | feed j evs =>
    have hij : i≠j := Ne.symm (of_decide_eq_false hm)
    simp only [step] at hu
    split at hu
    · obtain ⟨y,-,rfl⟩ := Option.map_eq_some_iff.mp hu
      exact put_ne _ hij
    · cases hu
  | cease j r =>
    have hij : i≠j := Ne.symm (of_decide_eq_false hm)
    simp only [step] at hu
    split at hu
    · split at hu <;> cases hu
      · exact put_ne _ hij
      · exact put_ne _ hij
      · rfl
    · cases hu
  | timeout j | pop j =>
    have hij : i≠j := Ne.symm (of_decide_eq_false hm)
    simp only [step] at hu
    split at hu
    · obtain ⟨y,-,rfl⟩ := Option.map_eq_some_iff.mp hu
      exact put_ne _ hij
    · cases hu
  | arrive j x =>
    cases hu
    exact Function.update_of_ne (Ne.symm (of_decide_eq_false hm)) ..
  | rest queue errno =>
    cases hu
    rfl

theorem waits_on : waits ssl i s := by
  intro s' asc hu hok hp
  simp only
  intro hret hqueued hown
  obtain ⟨hqueue,-⟩ := hok (i,asc,0) (by simp [asked,hp]) rfl
  simp only [step,hp] at hu
  cases hu
  rw [put_self,call_ele]
  have herr : (call ssl s i asc 0).2.err=(answer ssl asc 0 (s.ele i).ssn).own := by
    simp only [call,Answer.seen,hqueue,hqueued,sslGetError]
    rw [if_neg (by omega),if_neg (by simp)]
  have hret' : (call ssl s i asc 0).2.ret≤0 := hret
  have hwait : (postErr (call ssl s i asc 0).2).ret=dpeWait := by
    unfold postErr
    rw [herr]
    rcases hown with hown | hown <;> rw [hown]
  have hturn : ∃ p,post.turn (s.ele i).fd.efd.able asc 0 (call ssl s i asc 0).2=.ret asc p ∧ p.ret=dpeWait := by
    cases asc with
    | handshake | shutdown =>
      refine ⟨_,rfl,?_⟩
      rw [if_neg (by omega)]
      exact hwait
    | recv | send =>
      refine ⟨{postErr (call ssl s i _ 0).2 with ret := (postErr (call ssl s i _ 0).2).ret},?_,hwait⟩
      simp only [post,ioTurn]
      rw [if_neg (by omega),if_neg (by omega)]
  obtain ⟨p,hp',hr⟩ := hturn
  rw [hp']
  simp only [Fd.next]
  rcases turned_cases post asc (dpefdPosted (s.ele i).fd.efd p) with ⟨-,heq⟩ | ⟨-,heq⟩ | ⟨r,hret',hne,-⟩
  · rw [heq]
    exact ⟨rfl,rfl,_,rfl,rfl⟩
  · rw [heq]
    exact ⟨rfl,rfl,_,rfl,rfl⟩
  · exact absurd ((dpefdPosted_ret hret').1.trans hr) hne

theorem ssl_apart {ssn ssn' : ι → σ} {as bs : List (Act ι ξ)} (hssn : ssn i=ssn' i)
    (hs : Runs (step ssl) (calm ssl i) (start ssn) as s) (ht : Runs (step ssl) (calm ssl i) (start ssn') bs t)
    (hview : as.filter (Act.of i)=bs.filter (Act.of i)) : s.ele i=t.ele i ∧ waits ssl i s := by
  refine ⟨?_,waits_on⟩
  refine Runs.agree (R := fun s t : Sys ι σ => s.ele i=t.ele i) (fun _ _ _ _ _ => step_mine) (fun _ _ _ _ h hm hu => ?_)
    (fun _ _ _ _ h hm hu => ?_) hs ht hview ?_
  · exact (step_other hm hu).trans h
  · exact h.trans (step_other hm hu).symm
  · simp only [start]
    rw [hssn]

end Proofs

/-! ### Sessions by script -/

/-- The next call of a session, if it has one; otherwise it waits to read. -/
structure Line where
  ret : ℤ
  queued : List ℤ := []
  errno : Option ℤ := none
  own : SslErr := .none

def scripted : List Line → Answer (List Line)
  | [] => {ret := -1, ssn := [], own := .wantRead}
  | l::ls => {ret := l.ret, ssn := ls, queued := l.queued, errno := l.errno, own := l.own}

/-- The network adds to the script. -/
def script : Ssl (List Line) (List Line) where
  finished _ := false
  handshake := scripted
  shutdown := scripted
  read _ := scripted
  write _ := scripted
  arrive more ls := ls++more

instance (a : Answer σ) : Decidable a.tells := inferInstanceAs (Decidable (_ → _ → _))

instance (ssl : Ssl σ ξ) (i : ι) (s : Sys ι σ) (a : Act ι ξ) : Decidable (calm ssl i s a) :=
  inferInstanceAs (Decidable (∀ x∈asked ssl s a,x.1=i → s.queue=[] ∧ Answer.tells _))

/-- A receive that has to wait, and then gets five bytes. -/
def healthy : List (Act ℕ (List Line)) :=
  [.add 0 (.recv false 5),.feed 0 {.inp},.call 0,.arrive 0 [⟨5,[],none,.none⟩],.feed 0 {.inp},.call 0]

/-- The handshake of another element, which fails. -/
def failing : List (Act ℕ (List Line)) := [.add 1 .handshake]

def scripts (queued : List ℤ) : ℕ → List Line
  | 1 => [⟨-1,queued,some 0,.ssl⟩]
  | _ => []

/-- One entry is taken off the queue again, and the receive does not notice. -/
theorem ssl_apart_one : ∃ s t : Sys ℕ (List Line),
    Runs (step script) (calm script 0) (start (scripts [1])) healthy s ∧
    Runs (step script) (calm script 0) (start (scripts [1])) (failing++healthy) t ∧
    (s.ele 0).given=[(.recv false 5,5)] ∧ s.ele 0=t.ele 0 := by
  have hs : ((execOk (step script) (calm script 0) (start (scripts [1])) healthy).any fun s =>
      decide ((s.ele 0).given=[(.recv false 5,5)]))=true := by decide +kernel
  have ht : (execOk (step script) (calm script 0) (start (scripts [1])) (failing++healthy)).isSome=true := by
    decide +kernel
  obtain ⟨s,hs,hend⟩ := (Option.any_eq_true _ _).mp hs
  obtain ⟨t,ht⟩ := Option.isSome_iff_exists.mp ht
  exact ⟨s,t,execOk_runs hs,execOk_runs ht,of_decide_eq_true hend,
    (ssl_apart rfl (execOk_runs hs) (execOk_runs ht) rfl).1⟩

/-- Of two entries, one is left in the queue, and ends the receive. -/
theorem ssl_apart_two : ¬∀ (as bs : List (Act ℕ (List Line))) (s t : Sys ℕ (List Line)),
    Runs (step script) anyStep (start (scripts [1,2])) as s → Runs (step script) anyStep (start (scripts [1,2])) bs t →
    as.filter (Act.of 0)=bs.filter (Act.of 0) → (s.ele 0).given=(t.ele 0).given := by
  intro hall
  have hs : ((exec (step script) (start (scripts [1,2])) (healthy.take 3)).any fun s =>
      decide ((s.ele 0).given=[]))=true := by decide +kernel
  have ht : ((exec (step script) (start (scripts [1,2])) (failing++healthy.take 3)).any fun s =>
      decide ((s.ele 0).given=[(.recv false 5,dpeInternalError)]))=true := by decide +kernel
  obtain ⟨s,hs,hempty⟩ := (Option.any_eq_true _ _).mp hs
  obtain ⟨t,ht,hend⟩ := (Option.any_eq_true _ _).mp ht
  have heq := hall _ _ s t (exec_runs hs) (exec_runs ht) rfl
  rw [of_decide_eq_true hempty,of_decide_eq_true hend] at heq
  cases heq

end Dpapp.SslQueue
