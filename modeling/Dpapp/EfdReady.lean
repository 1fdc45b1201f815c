import Dpapp.Edge
import Dpapp.EfdPoll
import Dpapp.PipeIo
import Dpapp.SktConnect
import Dpapp.SslQueue
import Dpapp.AioData

/-! # Readiness of an EFD (dpasc.c, dpssl.c, os/linux/dpasc_epoll.c, os/linux/dpevp_epoll.c)

One file, the element that was made for it and the avatars of dpele_dup. What a call of a post function answers also tells
whether it has found the file not ready; the kernel tells each element of an edge when the file becomes ready again. -/

set_option linter.unusedSectionVars false

namespace Dpapp.EfdReady
open Dpapp.Edge Dpapp.Machine Dpapp.Ret Dpapp.EfdWake Dpapp.EfdIo
open Dpapp.StreamIo (Call Dir Io Loop ioPost)
open Dpapp.PipeIo (DpspTee)
open Dpapp.SslQueue (Asc Seen prepErr asks)

variable {ι τ ξ : Type*} [DecidableEq ι]

/-! ### The operations -/

/-- The dpaio operations of a program. A `τ` is the `_dpaio_stm_t` of one and its memory, `len` is io.len, `post` is what
follows `sub->post`, and `again` tells whether it sets want_events before it waits for more. -/
structure Aio (τ ξ : Type*) where
  prep : τ → Dpret
  len : τ → ℤ
  post : ξ → τ → Dpret → τ × Dpret
  again : τ → Bool

/-- An operation over `_dpaio_buf_post`, past its prep function; what its calls have moved is given at once. -/
def Aio.ofOp {α β ω σ ε : Type*} (op : AioOp.Op α β ω σ ε) (again : Bool) : Aio (β × σ) (List α × ε) where
  prep _ := dpeContinue
  len t := op.ioLen t.2
  post x t r := match (op.move t.1 t.2 0 x.1).bind fun mem => op.post x.2 mem t.2 r with
    | some (mem,stm,r) => ((mem,stm),r)
    | none => (t,r)
  again _ := again

inductive Op (τ : Type*)
  | io (o : Io)
  | accept
  | pipe (o : DpspTee)
  | connect (addr : Bool)
  | poll (mask : BitVec 32)
  | ssl (asc : Asc)
  | aio (dir : Dir) (ssl : Bool) (t : τ)

/-- What a call answers. `full` tells that a splice or tee has failed on the element's own file and not on the input. -/
inductive Ans
  | none
  | call (c : Call)
  | pipe (c : Call) (full : Bool)
  | connect (a : SktConnect.Answer)
  | ssl (a : Seen)

/-- `_dpskt_accept_post` -/
def acceptPost (want : Evts) (c : Call) : PostRet := if 0≤c.res then ⟨c.res,want,∅⟩ else ⟨-c.errno,want,{.inp}⟩

def Aio.io (aio : Aio τ ξ) (dir : Dir) (t : τ) : Io := ⟨dir,.buf 0 (aio.len t),false⟩

def Aio.asc (aio : Aio τ ξ) : Dir → τ → Asc
  | .inp,t => .recv false (aio.len t)
  | .out,t => .send false (aio.len t)

/-- The rest of a dpaio post function. -/
def Aio.over (aio : Aio τ ξ) (dir : Dir) (ssl : Bool) (t : τ) (x : ξ) (p : PostRet) : Next (Op τ) Loop :=
  let y := aio.post x t p.ret
  .ret (.aio dir ssl y.1)
    ⟨y.2,if 0<p.ret ∧ y.2=dpeWait ∧ aio.again t=true then {dir.evt} else p.out.want,p.out.inva⟩

variable (types : BitVec 32) (aio : Aio τ ξ)

/-- The prep functions: what they return, and the events that they leave in dpasc_out_t. -/
def prep : Op τ → Ans → Option PostRet
  | .io o,.none => some ⟨o.prep,{o.dir.evt},∅⟩
  | .accept,.none => some ⟨dpeContinue,{.inp},∅⟩
  | .pipe o,.none => some ⟨o.prep,{.out},∅⟩
  | .connect false,.none => some ⟨dpeInval,{}⟩
  | .connect true,.connect a => some ⟨(SktConnect.connectPrep a).1,(SktConnect.connectPrep a).2⟩
  | .poll mask,.none => some ⟨(EfdPoll.pollPrep types mask).1,EfdPoll.evts (EfdPoll.pollPrep types mask).2,∅⟩
  | .ssl .handshake,.none => some ⟨dpeOk,{}⟩
  | .ssl .handshake,.ssl a | .ssl .shutdown,.ssl a => some (if a.ret=1 then ⟨dpeOk,{}⟩ else prepErr a)
  | .ssl (.recv null len),.none => some (if null=true ∨ len≤0 then ⟨dpeInval,{}⟩ else ⟨dpeContinue,{.inp},∅⟩)
  | .ssl (.send null len),.none => some (if null=true ∨ len≤0 then ⟨dpeInval,{}⟩ else ⟨dpeContinue,{.out},∅⟩)
  | .aio dir _ t,.none => some ⟨aio.prep t,{dir.evt},∅⟩
  | _,_ => none

def enter : Op τ → Loop
  | .io o => ioPost.enter o
  | .aio dir false t => ioPost.enter (aio.io dir t)
  | .accept | .pipe _ | .connect _ | .poll _ | .ssl _ | .aio _ true _ => ⟨0,[]⟩

/-- The post functions, from one call to the next. -/
def turn (want : Evts) : Op τ → Loop → Ans → ξ → Option (Next (Op τ) Loop)
  | .io o,m,.call c,_ =>
      some (match ioPost.turn want o m c with
        | .call o m => .call (.io o) m
        | .ret o p => .ret (.io o) p)
  | .accept,_,.call c,_ => some (.ret .accept (acceptPost want c))
  | .pipe o,m,.pipe c _,_ =>
      some (match PipeIo.turn want o m.total c with
        | .call o total => .call (.pipe o) ⟨total,[]⟩
        | .ret o p => .ret (.pipe o) p)
  | .connect addr,_,.none,_ => some (.ret (.connect addr) (SktConnect.connectPost ⟨want,∅⟩))
  | .poll mask,_,.none,_ => some (.ret (.poll mask) (EfdPoll.pollPost (mask.setWidth 16)))
  | .ssl asc,m,.ssl a,_ =>
      some (match SslQueue.post.turn want asc m.total a with
        | .call asc total => .call (.ssl asc) ⟨total,[]⟩
        | .ret asc p => .ret (.ssl asc) p)
  | .aio dir false t,m,.call c,x =>
      some (match ioPost.turn want (aio.io dir t) m c with
        | .call _ m => .call (.aio dir false t) m
        | .ret _ p => aio.over dir false t x p)
  | .aio dir true t,m,.ssl a,x =>
      some (match SslQueue.post.turn want (aio.asc dir t) m.total a with
        | .call _ total => .call (.aio dir true t) ⟨total,[]⟩
        | .ret _ p => aio.over dir true t x p)
  | _,_,_,_ => none

/-- EfdIo asks a post function for its entry only, where it has returned before. -/
def post : Post (Op τ) Loop (Next (Op τ) Loop) := ⟨enter aio,fun _ _ _ n => n⟩

/-! ### What a call finds -/

/-- EAGAIN -/
def Call.blocked (c : Call) : Prop := c.res<0 ∧ c.errno=SktConnect.eagain

instance (c : Call) : Decidable (Call.blocked c) := inferInstanceAs (Decidable (_ ∧ _))

/-- SSL_get_error tells which direction a session is blocked in. -/
def sslFinds (asc : Asc) (a : Seen) : Evts :=
  if asks asc a.ret=true then
    match a.err with
    | .wantRead => {.inp}
    | .wantWrite => {.out}
    | _ => ∅
  else ∅

/-- The directions that a call finds the file not ready in. -/
def finds : Op τ → Ans → Evts
  | .io o,.call c => if Call.blocked c then {o.dir.evt} else ∅
  | .accept,.call c => if Call.blocked c then {.inp} else ∅
  | .pipe _,.pipe c full => if c.res<0 ∧ full=true then {.out} else ∅
  | .connect _,.connect a => if a=.inProgress then evtAio else ∅
  | .ssl asc,.ssl a => sslFinds asc a
  | .aio dir false _,.call c => if Call.blocked c then {dir.evt} else ∅
  | .aio dir true t,.ssl a => sslFinds (aio.asc dir t) a
  | _,_ => ∅

/-- An event that the post function clears then is used up: by a poll, by an end of the file, or by an error that does not
tell that the file is not ready. -/
def spends : Op τ → Ans → Prop
  | .poll _,_ => True
  | .io _,.call c | .accept,.call c | .aio _ false _,.call c => ¬Call.blocked c
  | .pipe _,.pipe c full => ¬(c.res<0 ∧ full=true)
  | _,_ => False

instance (op : Op τ) (a : Ans) : Decidable (spends op a) := by
  unfold spends
  split <;> infer_instance

/-! ### The elements of a file -/

/- History: `spent` are the events that have been used up and not been fed since. -/
structure Ele (τ : Type*) where
  fd : Fd (Op τ) Loop := {}
  watch : Watch Evt
  spent : Evts := ∅

structure Sys (ι τ : Type*) where
  file : File Evt
  ele : ι → Option (Ele τ)

def Sys.put (s : Sys ι τ) (i : ι) (e : Option (Ele τ)) : Sys ι τ := {s with ele := Function.update s.ele i e}

def Sys.found (s : Sys ι τ) (ds : Evts) : Sys ι τ := {s with file := s.file.found ds}

/-- The rest of dpevp_addv. -/
def begun (fd : Fd (Op τ) Loop) (op : Op τ) (p : PostRet) : Fd (Op τ) Loop :=
  if p.ret=dpeContinue then (fd.add (post aio) op p.out).1
  -- an error that happens to be DPE_WAIT
  else if p.ret=dpeWait then ⟨fd.efd,some ⟨op,none⟩⟩
  else fd

/-- A poll that is woken finds its mask in the element. -/
def Op.kept : Op τ → Op τ
  | .poll mask => .poll (BitVec.ofNat 32 (EfdPoll.num (EfdPoll.evts mask)))
  | op => op

def spentBy (op : Op τ) (a : Ans) : Next (Op τ) Loop → Evts
  | .call _ _ => ∅
  | .ret _ p => if spends op a then p.out.inva else ∅

/- `rise` and `fall` are what becomes of the file, and `edge` is an edge that nothing obliges the kernel to. `report` is
epoll_wait, as far as it is about one element, and `stop` the timer or dpevp_end. -/
inductive Act (ι τ ξ : Type*)
  | rise (d : Evt)
  | fall (d : Evt)
  | edge (i : ι) (ds : Evts)
  | add (i : ι) (op : Op τ) (a : Ans)
  | call (i : ι) (a : Ans) (x : ξ)
  | report (i : ι) (evs : Evts)
  | feed (i : ι)
  | stop (i : ι)
  | dup (i j : ι) (again : Bool)
  | del (i : ι)

def step (s : Sys ι τ) : Act ι τ ξ → Option (Sys ι τ)
  | .rise d => some ⟨s.file.rise d,fun i => (s.ele i).map fun e => {e with watch := e.watch.rise s.file d}⟩
  | .fall d => some {s with file := s.file.fall d}
  | .edge i ds => (s.ele i).map fun e => s.put i (some {e with watch := e.watch.edge ds})
  | .add i op a => (s.ele i).bind fun e =>
      -- dpevp_addv refuses
      if e.fd.pend.isSome=true then some s
      else
        (prep types aio op a).bind fun p =>
          if Disjoint (finds aio op a) s.file.ready then
            some ((s.found (finds aio op a)).put i (some {e with fd := begun aio e.fd op p}))
          else none
  | .call i a x => (s.ele i).bind fun e =>
      match e.fd.pend with
      | some ⟨op,some m⟩ =>
          (turn aio e.fd.efd.want op m a x).bind fun n =>
            if Disjoint (finds aio op a) s.file.ready then
              some ((s.found (finds aio op a)).put i
                (some {e with fd := (e.fd.next (post aio) n).1, spent := e.spent∪spentBy op a n}))
            else none
      | _ => none
  | .report i evs => (s.ele i).bind fun e =>
      if e.watch.event=none ∧ e.watch.queued∩s.file.ready⊆evs then
        some ((s.found (e.watch.queued\evs)).put i (some {e with watch := e.watch.report evs}))
      else none
  | .feed i => (s.ele i).bind fun e => e.watch.event.bind fun evs =>
      (Fd.feed (post aio) ⟨e.fd.efd,e.fd.pend.map fun p => {p with data := p.data.kept}⟩ evs).map fun x =>
        s.put i (some ⟨x.1,e.watch.take,e.spent\evs⟩)
  | .stop i => (s.ele i).bind fun e =>
      match e.fd.pend with
      | some ⟨_,none⟩ => some (s.put i (some {e with fd := e.fd.stop}))
      | _ => none
  -- the copy is registered for output, and the source again without it, which may fail
  | .dup i j again => (s.ele i).bind fun e =>
      if e.fd.pend=none ∧ s.ele j=none then
        let t := s.found ((e.watch.mask\evtAin)\s.file.ready)
        let t := t.put j (some {fd := {efd := ⟨e.fd.efd.able\evtAin,∅⟩}, watch := register s.file (e.watch.mask\evtAin)})
        let mask := e.watch.mask.erase .out
        if again=true then
          some ((t.found (mask\s.file.ready)).put i (some {e with watch := e.watch.again s.file mask}))
        else some (t.put i (some {e with watch := {e.watch with mask := mask}}))
      else none
  | .del i => (s.ele i).bind fun e => if e.fd.pend=none then some (s.put i none) else none

/-! ### Readiness is not lost -/

/-- What a running or waiting operation wants. -/
def Wants (want : Evts) : Op τ → Prop
  | .io o => want⊆{o.dir.evt}
  | .aio dir false _ => want⊆{dir.evt}
  | .accept | .pipe _ | .connect _ | .poll _ | .ssl _ | .aio _ true _ => True

/-- The events that the element remembers or that have been used up. -/
def Ele.known (e : Ele τ) : Evts := e.fd.efd.able∪e.spent

structure FdInv (f : Fd (Op τ) Loop) : Prop where
  idle : f.pend=none → f.efd.want=∅
  waits : ∀ op,f.pend=some ⟨op,none⟩ → f.efd.able∩f.efd.want=∅
  wants : ∀ p∈f.pend,Wants f.efd.want p.data

structure Inv (s : Sys ι τ) : Prop where
  sound : s.file.Sound
  covers : ∀ i e,s.ele i=some e → Covers s.file e.watch e.known
  fd : ∀ i e,s.ele i=some e → FdInv e.fd

section Posts
variable {aio} {want : Evts} {op op' : Op τ} {m m' : Loop} {a : Ans} {x : ξ} {p : PostRet} {n : Next (Op τ) Loop}

theorem loopTurn_out {full total : ℤ} {eof : ℤ → Dpret} {c : Call} (h : (StreamIo.loopTurn full eof want total c).2=some p) :
    p.out.want=want ∧ p.out.inva⊆want := by
  unfold StreamIo.loopTurn at h
  split at h
  · split at h
    · cases h
      exact ⟨rfl,Finset.empty_subset want⟩
    · cases h
  · split at h
    · cases h
      exact ⟨rfl,subset_rfl⟩
    · cases h
      exact ⟨rfl,subset_rfl⟩

theorem ioLoop_out {o : Io} {total : ℤ} {c : Call} (h : (o.loop want total c).2=some p) :
    p.out.want=want ∧ p.out.inva⊆want := by
  obtain ⟨dir,arg,peek⟩ := o
  cases arg with
  | buf base len => exact loopTurn_out h
  | iov iov => exact loopTurn_out h
  | msg iov => exact loopTurn_out h

/-- A turn of the loops of read and write: they clear no more than they want. -/
theorem ioTurn_cases (want : Evts) (o : Io) (m : Loop) (c : Call) :
    (∃ m',ioPost.turn want o m c=.call o m') ∨
    ∃ p,ioPost.turn want o m c=.ret o p ∧ p.out.want=want ∧ p.out.inva⊆want := by
  cases hl : o.loop want m.total c with
  | mk total r =>
    cases r with
    | none => exact .inl ⟨⟨total,StreamIo.dpiocIovAdvance m.iov c.res.toNat⟩,by simp only [ioPost,hl]⟩
    | some p => exact .inr ⟨p,by simp only [ioPost,hl],ioLoop_out (congrArg Prod.snd hl)⟩

theorem postErr_inva {asc : Asc} {s : Seen} (h : asks asc s.ret=true) : (SslQueue.postErr s).out.inva⊆sslFinds asc s := by
  unfold SslQueue.postErr sslFinds
  rw [if_pos h]
  cases s.err with
  | ssl =>
    simp only
    split <;> exact Finset.empty_subset _
  | wantRead | wantWrite => exact subset_rfl
  | none | syscall | zeroReturn | other => exact Finset.empty_subset _

/-- A turn of the post functions of a session: they clear the direction that the session is blocked in. -/
theorem sslTurn_cases (want : Evts) (asc : Asc) (total : ℤ) (s : Seen) :
    (∃ total',SslQueue.post.turn want asc total s=.call asc total') ∨
    ∃ p,SslQueue.post.turn want asc total s=.ret asc p ∧ p.out.inva⊆sslFinds asc s := by
  have hone : ∀ asc : Asc,(s.ret≠1 → asks asc s.ret=true) →
      (if s.ret=1 then ⟨dpeOk,{}⟩ else SslQueue.postErr s : PostRet).out.inva⊆sslFinds asc s := by
    intro asc hasks
    split
    · exact Finset.empty_subset _
    · exact postErr_inva (hasks ‹_›)
  have hio : ∀ (asc : Asc) (len : ℤ),(s.ret≤0 → asks asc s.ret=true) →
      (∃ total',SslQueue.ioTurn asc len total s=.call asc total') ∨
      ∃ p,SslQueue.ioTurn asc len total s=.ret asc p ∧ p.out.inva⊆sslFinds asc s := by
    intro asc len hasks
    unfold SslQueue.ioTurn
    split
    · split
      · exact .inr ⟨_,rfl,Finset.empty_subset _⟩
      · exact .inl ⟨_,rfl⟩
    · exact .inr ⟨_,rfl,postErr_inva (hasks (by omega))⟩
  cases asc with
  | handshake => exact .inr ⟨_,rfl,hone .handshake (fun h => by simp [asks,h])⟩
  | shutdown => exact .inr ⟨_,rfl,hone .shutdown (fun h => by simp [asks,h])⟩
  | recv null len => exact hio _ len (fun h => by simp [asks,h])
  | send null len => exact hio _ len (fun h => by simp [asks,h])

theorem pipeTurn_cases (want : Evts) (o : DpspTee) (total : ℤ) (c : Call) :
    (∃ total',PipeIo.turn want o total c=.call o total') ∨
    ∃ p,PipeIo.turn want o total c=.ret o p ∧ (p.out.inva=∅ ∨ p.out.inva={.out}) := by
  unfold PipeIo.turn
  split
  · split
    · exact .inr ⟨_,rfl,.inl rfl⟩
    · exact .inl ⟨_,rfl⟩
  · split
    · exact .inr ⟨_,rfl,.inl rfl⟩
    · exact .inr ⟨_,rfl,.inr rfl⟩

theorem over_clears {dir : Dir} {ssl : Bool} {t : τ} (hwant : ssl=false → want⊆{dir.evt} ∧ p.out.want⊆{dir.evt})
    (h : aio.over dir ssl t x p=n) : ∃ t' q,n=.ret (.aio dir ssl t') q ∧ q.out.inva=p.out.inva ∧
      Wants want (.aio dir ssl t' : Op τ) ∧ Wants q.out.want (.aio dir ssl t' : Op τ) := by
  refine ⟨_,_,h.symm,rfl,?_⟩
  cases ssl with
  | true => exact ⟨trivial,trivial⟩
  | false =>
    have hout : (if 0<p.ret ∧ (aio.post x t p.ret).2=dpeWait ∧ aio.again t=true then {dir.evt} else p.out.want)⊆{dir.evt} := by
      split
      · exact subset_rfl
      · exact (hwant rfl).2
    exact ⟨(hwant rfl).1,hout⟩

/-- A post function clears what its last call has found the file not ready in, or it uses the events up. -/
theorem turn_clears (h : turn aio want op m a x=some n) (hw : Wants want op) :
    (∃ op' m',n=.call op' m' ∧ Wants want op') ∨
    ∃ op' p,n=.ret op' p ∧ Wants want op' ∧ Wants p.out.want op' ∧ (p.out.inva⊆finds aio op a ∨ spends op a) := by
  have hblocked : ∀ (c : Call) (evs : Evts) (e : Evt),evs⊆{e} → evs⊆(if Call.blocked c then {e} else ∅) ∨ ¬Call.blocked c := by
    intro c evs e hevs
    by_cases hb : Call.blocked c
    · exact .inl (by rw [if_pos hb]; exact hevs)
    · exact .inr hb
  cases op with
  | io o =>
    cases a with
    | call c =>
      cases h
      rcases ioTurn_cases want o m c with ⟨m',ht⟩ | ⟨p,ht,hwant,hinva⟩
      · exact .inl ⟨_,m',by rw [ht],hw⟩
      · refine .inr ⟨.io o,p,by rw [ht],hw,?_,hblocked c _ _ (hinva.trans hw)⟩
        rw [hwant]
        exact hw
    | none | pipe | connect | ssl => cases h
  | accept =>
    cases a with
    | call c =>
      cases h
      refine .inr ⟨_,_,rfl,trivial,trivial,hblocked c _ .inp ?_⟩
      unfold acceptPost
      split
      · exact Finset.empty_subset _
      · exact subset_rfl
    | none | pipe | connect | ssl => cases h
  | pipe o =>
    cases a with
    | pipe c full =>
      cases h
      rcases pipeTurn_cases want o m.total c with ⟨total,ht⟩ | ⟨p,ht,hinva⟩
      · exact .inl ⟨.pipe o,_,by rw [ht],trivial⟩
      · refine .inr ⟨.pipe o,p,by rw [ht],trivial,trivial,?_⟩
        by_cases hfull : c.res<0 ∧ full=true
        · refine .inl ?_
          simp only [finds]
          rw [if_pos hfull]
          rcases hinva with hinva | hinva <;> rw [hinva]
          exact Finset.empty_subset _
        · exact .inr hfull
    | none | call | connect | ssl => cases h
  | connect addr =>
    cases a with
    | none =>
      cases h
      exact .inr ⟨_,_,rfl,trivial,trivial,.inl (Finset.empty_subset _)⟩
    | call | pipe | connect | ssl => cases h
  | poll mask =>
    cases a with
    | none =>
      cases h
      exact .inr ⟨_,_,rfl,trivial,trivial,.inr trivial⟩
    | call | pipe | connect | ssl => cases h
  | ssl asc =>
    cases a with
    | ssl s =>
      cases h
      rcases sslTurn_cases want asc m.total s with ⟨total,ht⟩ | ⟨p,ht,hinva⟩
      · exact .inl ⟨.ssl asc,_,by rw [ht],trivial⟩
      · exact .inr ⟨.ssl asc,p,by rw [ht],trivial,trivial,.inl hinva⟩
    | none | call | pipe | connect => cases h
  | aio dir ssl t =>
    cases ssl with
    | false =>
      cases a with
      | call c =>
        cases h
        rcases ioTurn_cases want (aio.io dir t) m c with ⟨m',ht⟩ | ⟨p,ht,hwant,hinva⟩
        · exact .inl ⟨_,m',by rw [ht],hw⟩
        · have hout : p.out.want⊆{dir.evt} := by
            rw [hwant]
            exact hw
          obtain ⟨t',q,hq,heq,hw',hwq⟩ := @over_clears τ ξ aio want x p _ dir false t (fun _ => ⟨hw,hout⟩) rfl
          refine .inr ⟨_,q,by rw [ht]; exact hq,hw',hwq,?_⟩
          rw [heq]
          exact hblocked c _ _ (hinva.trans hw)
      | none | pipe | connect | ssl => cases h
    | true =>
      cases a with
      | ssl s =>
        cases h
        rcases sslTurn_cases want (aio.asc dir t) m.total s with ⟨total,ht⟩ | ⟨p,ht,hinva⟩
        · exact .inl ⟨.aio dir true t,_,by rw [ht],trivial⟩
        · obtain ⟨t',q,hq,heq,hw',hwq⟩ := @over_clears τ ξ aio want x p _ dir true t (fun hf => (by cases hf)) rfl
          refine .inr ⟨_,q,by rw [ht]; exact hq,hw',hwq,.inl ?_⟩
          rw [heq]
          exact hinva
      | none | call | pipe | connect => cases h

theorem prepErr_inva {s : Seen} : (prepErr s).out.inva=∅ := by
  unfold prepErr SslQueue.postErr
  cases s.err with
  | ssl =>
    simp only
    split <;> rfl
  | wantRead | wantWrite | none | syscall | zeroReturn | other => rfl

/-- Only connect clears events before it waits, and it has found the file not ready at all. -/
theorem prep_clears (h : prep types aio op a=some p) : Wants p.out.want op ∧ p.out.inva⊆finds aio op a := by
  have hnone : ∀ {c : Prop} [Decidable c] {q q' : PostRet},q.out.inva=∅ → q'.out.inva=∅ →
      (if c then q else q').out.inva⊆finds aio op a := by
    intro c _ q q' hq hq'
    split
    · rw [hq]
      exact Finset.empty_subset _
    · rw [hq']
      exact Finset.empty_subset _
  unfold prep at h
  split at h
  · cases h
    exact ⟨subset_rfl,Finset.empty_subset _⟩
  · cases h
    exact ⟨trivial,Finset.empty_subset _⟩
  · cases h
    exact ⟨trivial,Finset.empty_subset _⟩
  · cases h
    exact ⟨trivial,Finset.empty_subset _⟩
  · rename_i ans
    cases h
    refine ⟨trivial,?_⟩
    cases ans with
    | inProgress => exact subset_rfl
    | connected | fail => exact Finset.empty_subset _
  · cases h
    exact ⟨trivial,Finset.empty_subset _⟩
  · cases h
    exact ⟨trivial,Finset.empty_subset _⟩
  · cases h
    exact ⟨trivial,hnone rfl prepErr_inva⟩
  · cases h
    exact ⟨trivial,hnone rfl prepErr_inva⟩
  · cases h
    exact ⟨trivial,hnone rfl rfl⟩
  · cases h
    exact ⟨trivial,hnone rfl rfl⟩
  · rename_i dir ssl t
    cases h
    refine ⟨?_,Finset.empty_subset _⟩
    cases ssl with
    | true => trivial
    | false => exact subset_rfl
  · cases h

theorem wants_empty : Wants ∅ op := by
  cases op with
  | io o => exact Finset.empty_subset _
  | aio dir ssl t =>
    cases ssl with
    | true => trivial
    | false => exact Finset.empty_subset _
  | accept | pipe | connect | poll | ssl => trivial

theorem wants_kept (h : Wants want op) : Wants want op.kept := by
  cases op with
  | poll mask => trivial
  | io | accept | pipe | connect | ssl | aio => exact h

/-! ### The wake loop -/

theorem turned_fd {y : Efd × Turn} (hret : ∀ r,y.2=.ret r → y.1.able∩y.1.want=∅ ∧ (r≠dpeWait → y.1.want=∅))
    (hw : Wants y.1.want op) : FdInv (turned (post aio) op y).1 := by
  rcases turned_cases (post aio) op y with ⟨hy,heq⟩ | ⟨hy,heq⟩ | ⟨r,hy,hr,heq⟩
  · rw [heq]
    refine ⟨fun hn => (by cases hn),fun op' _ => (hret _ hy).1,fun q hq => ?_⟩
    cases hq
    exact hw
  · rw [heq]
    refine ⟨fun hn => (by cases hn),fun op' hq => (by cases hq),fun q hq => ?_⟩
    cases hq
    exact hw
  · rw [heq]
    exact ⟨fun _ => (hret r hy).2 hr,fun op' hq => (by cases hq),fun q hq => (by cases hq)⟩

theorem wake_fd {f : Efd} {o : AscOut} (hw : Wants o.want op) : FdInv (turned (post aio) op (dpefdWake f o)).1 := by
  refine turned_fd (fun r hr => ⟨(dpefdWake_ret hr).1,fun hne => ((dpefdWake_ret hr).2 hne).1⟩) ?_
  unfold dpefdWake
  split
  · exact wants_empty
  · exact hw

theorem posted_fd {f : Efd} (hw : Wants f.want op) (hp : Wants p.out.want op) :
    FdInv (turned (post aio) op (dpefdPosted f p)).1 := by
  refine turned_fd (fun r hr => (dpefdPosted_ret hr).2) ?_
  unfold dpefdPosted
  split
  · split
    · exact hp
    · exact hw
  · exact wants_empty

theorem wake_keeps {f : Efd} {o : AscOut} : f.able\o.inva⊆(dpefdWake f o).1.able := by
  unfold dpefdWake
  split
  · exact Finset.sdiff_subset
  · exact subset_rfl

theorem posted_able {f : Efd} : (dpefdPosted f p).1.able=f.able\p.out.inva := by
  unfold dpefdPosted
  split
  · split <;> rfl
  · rfl

/-- An operation that begins forgets no more than its prep function has found. -/
theorem begun_fd {fd : Fd (Op τ) Loop} (h : FdInv fd) (hn : fd.pend=none) (hp : prep types aio op a=some p) :
    FdInv (begun aio fd op p) ∧ fd.efd.able\finds aio op a⊆(begun aio fd op p).efd.able := by
  obtain ⟨hw,hinva⟩ := prep_clears types hp
  unfold begun
  split
  · refine ⟨wake_fd hw,?_⟩
    unfold Fd.add
    rw [turned_efd]
    exact (Finset.sdiff_subset_sdiff subset_rfl hinva).trans wake_keeps
  · split
    · refine ⟨⟨fun hn => (by cases hn),fun op' _ => ?_,fun q hq => ?_⟩,Finset.sdiff_subset⟩
      · rw [h.idle hn,Finset.inter_empty]
      · cases hq
        rw [h.idle hn]
        exact wants_empty
    · exact ⟨h,Finset.sdiff_subset⟩

/-- A post function that goes on or returns forgets what its call has found, and what it uses up. -/
theorem next_fd {fd : Fd (Op τ) Loop} (hw : Wants fd.efd.want op) (ht : turn aio fd.efd.want op m a x=some n) :
    FdInv (fd.next (post aio) n).1 ∧
    fd.efd.able\finds aio op a⊆(fd.next (post aio) n).1.efd.able∪spentBy op a n := by
  rcases turn_clears ht hw with ⟨op',m',rfl,hw'⟩ | ⟨op',p,rfl,hw',hp,hclear⟩
  · refine ⟨⟨fun hn => (by cases hn),fun op' hq => (by cases hq),fun q hq => ?_⟩,?_⟩
    · cases hq
      exact hw'
    · exact Finset.sdiff_subset.trans Finset.subset_union_left
  · refine ⟨posted_fd hw' hp,?_⟩
    unfold Fd.next
    rw [turned_efd,posted_able]
    intro d hd
    obtain ⟨hable,hfind⟩ := Finset.mem_sdiff.mp hd
    by_cases hinva : d∈p.out.inva
    · refine Finset.mem_union_right _ ?_
      rcases hclear with hclear | hspends
      · exact (hfind (hclear hinva)).elim
      · simp only [spentBy,if_pos hspends]
        exact hinva
    · exact Finset.mem_union_left _ (Finset.mem_sdiff.mpr ⟨hable,hinva⟩)

/-- An event is remembered, and the operation that waits sees it. -/
theorem feed_fd {fd : Fd (Op τ) Loop} {evs : Evts} {y : Fd (Op τ) Loop × Option Dpret} (h : FdInv fd)
    (hf : Fd.feed (post aio) ⟨fd.efd,fd.pend.map fun p => {p with data := p.data.kept}⟩ evs=some y) :
    FdInv y.1 ∧ fd.efd.able∪evs⊆y.1.efd.able := by
  unfold Fd.feed at hf
  split at hf
  · rename_i hn
    cases hf
    refine ⟨⟨fun _ => h.idle (Option.map_eq_none_iff.mp hn),fun op' hq => (by cases hq),fun q hq => (by cases hq)⟩,subset_rfl⟩
  · rename_i d hp
    obtain ⟨⟨op,run⟩,hq,heq⟩ := Option.map_eq_some_iff.mp hp
    cases heq
    have hw : Wants fd.efd.want op.kept := wants_kept (h.wants _ hq)
    split at hf
    · rename_i hnone
      cases hf
      refine ⟨⟨fun hn => (by cases hn),fun op' _ => ?_,fun q hq => ?_⟩,subset_rfl⟩
      · simp only [Fd.feedBits]
        rw [hnone,Finset.inter_empty]
      · cases hq
        exact hw
    · cases hf
      refine ⟨wake_fd hw,?_⟩
      have hkeep := @wake_keeps ⟨fd.efd.able∪evs,fd.efd.want⟩ ⟨fd.efd.want,∅⟩
      rw [turned_efd]
      rwa [Finset.sdiff_empty] at hkeep
  · cases hf

end Posts

section Steps
variable {types aio} {s t : Sys ι τ} {i j : ι} {e : Ele τ} {ds mask : Evts}

theorem Inv.found (h : Inv s) (hds : Disjoint ds s.file.ready) : Inv (s.found ds) :=
  ⟨Sound.found h.sound hds,fun i e he => (h.covers i e he).found Finset.sdiff_subset,h.fd⟩

theorem put_cases {k : ι} {x : Option (Ele τ)} {u : Ele τ} (h : (s.put i x).ele k=some u) :
    (k=i ∧ x=some u) ∨ s.ele k=some u := by
  simp only [Sys.put,Function.update_apply] at h
  split at h
  · rename_i hk
    exact .inl ⟨hk,h⟩
  · exact .inr h

theorem Inv.put (h : Inv s) (hc : Covers s.file e.watch e.known) (hf : FdInv e.fd) : Inv (s.put i (some e)) := by
  refine ⟨h.sound,fun k u hu => ?_,fun k u hu => ?_⟩
  · rcases put_cases hu with ⟨-,hu⟩ | hu
    · cases hu
      exact hc
    · exact h.covers k u hu
  · rcases put_cases hu with ⟨-,hu⟩ | hu
    · cases hu
      exact hf
    · exact h.fd k u hu

theorem Inv.delete (h : Inv s) : Inv (s.put i none) := by
  refine ⟨h.sound,fun k u hu => ?_,fun k u hu => ?_⟩
  · rcases put_cases hu with ⟨-,hu⟩ | hu
    · cases hu
    · exact h.covers k u hu
  · rcases put_cases hu with ⟨-,hu⟩ | hu
    · cases hu
    · exact h.fd k u hu

theorem Inv.rise (h : Inv s) (d : Evt) :
    Inv ⟨s.file.rise d,fun i => (s.ele i).map fun e => {e with watch := e.watch.rise s.file d}⟩ := by
  refine ⟨Sound.rise h.sound,fun i e he => ?_,fun i e he => ?_⟩
  · obtain ⟨e',he',rfl⟩ := Option.map_eq_some_iff.mp he
    exact (h.covers i e' he').rise
  · obtain ⟨e',he',rfl⟩ := Option.map_eq_some_iff.mp he
    exact h.fd i e' he'

/-- The copy hears of output when it is registered. -/
theorem Inv.copy (h : Inv s) (low able : Evts) : Inv ((s.found (low\s.file.ready)).put j
    (some {fd := {efd := ⟨able,∅⟩}, watch := register s.file low})) :=
  (h.found Finset.sdiff_disjoint).put covers_register
    ⟨fun _ => rfl,fun op hq => (by cases hq),fun q hq => (by cases hq)⟩

theorem inv_step {a : Act ι τ ξ} (h : Inv s) (hu : step types aio s a=some t) : Inv t := by
  cases a with
  | rise d =>
    cases hu
    exact h.rise d
  | fall d =>
    cases hu
    exact ⟨Sound.fall h.sound,h.covers,h.fd⟩
  | edge i ds =>
    obtain ⟨e,he,rfl⟩ := Option.map_eq_some_iff.mp hu
    exact h.put (h.covers i e he).edge (h.fd i e he)
  | add i op a =>
    obtain ⟨e,he,hu⟩ := Option.bind_eq_some_iff.mp hu
    split at hu
    · cases hu
      exact h
    · rename_i hn
      obtain ⟨p,hp,hu⟩ := Option.bind_eq_some_iff.mp hu
      obtain ⟨hds,hu⟩ := Option.ite_none_right_eq_some.mp hu
      cases hu
      obtain ⟨hf,hable⟩ := begun_fd types (h.fd i e he) (Option.not_isSome_iff_eq_none.mp hn) hp
      refine (h.found hds).put ((h.covers i e he).found ?_) hf
      unfold Ele.known
      rw [Finset.union_sdiff_distrib]
      exact Finset.union_subset_union hable Finset.sdiff_subset
  | call i a x =>
    obtain ⟨e,he,hu⟩ := Option.bind_eq_some_iff.mp hu
    split at hu
    · rename_i op m hp
      obtain ⟨n,ht,hu⟩ := Option.bind_eq_some_iff.mp hu
      obtain ⟨hds,hu⟩ := Option.ite_none_right_eq_some.mp hu
      cases hu
      obtain ⟨hf,hable⟩ := next_fd ((h.fd i e he).wants _ hp) ht
      refine (h.found hds).put ((h.covers i e he).found ?_) hf
      unfold Ele.known
      rw [Finset.union_sdiff_distrib]
      refine Finset.union_subset (hable.trans ?_) (Finset.sdiff_subset.trans ?_)
      · exact Finset.union_subset_union_right Finset.subset_union_right
      · exact Finset.subset_union_left.trans Finset.subset_union_right
    · cases hu
  | report i evs =>
    obtain ⟨e,he,hu⟩ := Option.bind_eq_some_iff.mp hu
    obtain ⟨⟨hev,hsub⟩,hu⟩ := Option.ite_none_right_eq_some.mp hu
    cases hu
    -- what is not reported is not ready
    have hds : Disjoint (e.watch.queued\evs) s.file.ready := by
      refine Finset.disjoint_left.mpr fun d hd hr => ?_
      obtain ⟨hq,hno⟩ := Finset.mem_sdiff.mp hd
      exact hno (hsub (Finset.mem_inter.mpr ⟨hq,hr⟩))
    exact (h.found hds).put ((h.covers i e he).report hev) (h.fd i e he)
  | feed i =>
    obtain ⟨e,he,hu⟩ := Option.bind_eq_some_iff.mp hu
    obtain ⟨evs,hev,hu⟩ := Option.bind_eq_some_iff.mp hu
    obtain ⟨y,hy,rfl⟩ := Option.map_eq_some_iff.mp hu
    obtain ⟨hf,hable⟩ := feed_fd (h.fd i e he) hy
    refine h.put ((h.covers i e he).take hev ?_) hf
    intro d hd
    unfold Ele.known at hd ⊢
    by_cases hin : d∈e.fd.efd.able∪evs
    · exact Finset.mem_union_left _ (hable hin)
    · refine Finset.mem_union_right _ ?_
      simp only [Finset.mem_union,not_or] at hd hin
      rcases hd with (hd | hd) | hd
      · exact (hin.1 hd).elim
      · exact Finset.mem_sdiff.mpr ⟨hd,hin.2⟩
      · exact (hin.2 hd).elim
  | stop i =>
    obtain ⟨e,he,hu⟩ := Option.bind_eq_some_iff.mp hu
    split at hu
    · cases hu
      refine h.put (h.covers i e he) ⟨fun _ => rfl,fun op hq => (by cases hq),fun q hq => (by cases hq)⟩
    · cases hu
  | dup i j again =>
    obtain ⟨e,he,hu⟩ := Option.bind_eq_some_iff.mp hu
    obtain ⟨-,hu⟩ := Option.ite_none_right_eq_some.mp hu
    have hcopy := h.copy (j := j) (e.watch.mask\evtAin) (e.fd.efd.able\evtAin)
    have hsrc : Covers (s.file.found ((e.watch.mask\evtAin)\s.file.ready)) e.watch e.known :=
      (h.covers i e he).found Finset.sdiff_subset
    cases again with
    | true =>
      cases hu
      exact (hcopy.found Finset.sdiff_disjoint).put covers_again (h.fd i e he)
    | false =>
      cases hu
      exact hcopy.put (hsrc.shrink (Finset.erase_subset _ _)) (h.fd i e he)
  | del i =>
    obtain ⟨e,he,hu⟩ := Option.bind_eq_some_iff.mp hu
    obtain ⟨-,hu⟩ := Option.ite_none_right_eq_some.mp hu
    cases hu
    exact h.delete

variable (τ) in
/-- The element is made, and registered for the events of its type. -/
def start (i : ι) (mask ready : Evts) : Sys ι τ where
  file := ⟨ready,mask\ready⟩
  ele k := if k=i then some {watch := register ⟨ready,∅⟩ mask} else none

theorem start_inv {ready : Evts} : Inv (start τ i mask ready) := by
  have hone : ∀ k e,(start τ i mask ready).ele k=some e → e={watch := register ⟨ready,∅⟩ mask} := by
    intro k e he
    simp only [start] at he
    split at he
    · exact (Option.some.inj he).symm
    · cases he
  refine ⟨Finset.sdiff_disjoint,fun k e he => ?_,fun k e he => ?_⟩
  · rw [hone k e he]
    have hreg := @covers_register Evt _ ⟨ready,∅⟩ ∅ mask
    unfold File.found at hreg
    rw [Finset.empty_union] at hreg
    exact hreg
  · rw [hone k e he]
    exact ⟨fun _ => rfl,fun op hq => (by cases hq),fun q hq => (by cases hq)⟩

end Steps

/-- In a direction that it serves, and where no event has been used up, the element knows that the file is ready or will be
told; and an operation that it leaves waiting does not sleep on a file that is ready. -/
structure Told (f : File Evt) (e : Ele τ) (used : Evts) : Prop where
  ready : ∀ d∈e.watch.mask,d∈f.ready → d∈used ∨ d∈e.fd.efd.able ∨ d∈e.watch.flight
  waits : ∀ op,e.fd.pend=some ⟨op,none⟩ → Disjoint e.fd.efd.able e.fd.efd.want
  awake : ∀ op,e.fd.pend=some ⟨op,none⟩ → ∀ d∈e.fd.efd.want,d∈e.watch.mask → d∈f.ready → d∈used ∨ d∈e.watch.flight

section Runs
variable {types aio} {s t : Sys ι τ} {i j : ι} {e u : Ele τ} {mask ready : Evts}

/-- The post function of the element's operation uses its events up: a poll that completes, an end of the file, or an error
that does not tell that the file is not ready. -/
def usesUp (s : Sys ι τ) (j : ι) : Act ι τ ξ → Prop
  | .call i ans _ => i=j ∧ ∃ e op m,s.ele j=some e ∧ e.fd.pend=some ⟨op,some m⟩ ∧ spends op ans
  | .rise _ | .fall _ | .edge .. | .add .. | .report .. | .feed _ | .stop _ | .dup .. | .del _ => False

theorem spent_put {v : Ele τ} {d : Evt} (he : s.ele i=some e) (hj : (s.put i (some v)).ele j=some u) (hd : d∈u.spent)
    (hv : d∈v.spent → d∈e.spent) : ∃ e,s.ele j=some e ∧ d∈e.spent := by
  rcases put_cases hj with ⟨rfl,hu⟩ | hu
  · cases hu
    exact ⟨e,he,hv hd⟩
  · exact ⟨u,hu,hd⟩

/-- Only these steps use events up. -/
theorem spent_step {a : Act ι τ ξ} {d : Evt} (hu : step types aio s a=some t) (hj : t.ele j=some u) (hd : d∈u.spent) :
    (∃ e,s.ele j=some e ∧ d∈e.spent) ∨ usesUp s j a := by
  cases a with
  | rise d =>
    cases hu
    obtain ⟨e,he,rfl⟩ := Option.map_eq_some_iff.mp hj
    exact .inl ⟨e,he,hd⟩
  | fall d =>
    cases hu
    exact .inl ⟨u,hj,hd⟩
  | edge i ds =>
    obtain ⟨e,he,rfl⟩ := Option.map_eq_some_iff.mp hu
    exact .inl (spent_put he hj hd fun h => h)
  | add i op a =>
    obtain ⟨e,he,hu⟩ := Option.bind_eq_some_iff.mp hu
    split at hu
    · cases hu
      exact .inl ⟨u,hj,hd⟩
    · obtain ⟨p,-,hu⟩ := Option.bind_eq_some_iff.mp hu
      obtain ⟨-,hu⟩ := Option.ite_none_right_eq_some.mp hu
      cases hu
      exact .inl (spent_put (s := s.found (finds aio op a)) he hj hd fun h => h)
  | call i ans x =>
    obtain ⟨e,he,hu⟩ := Option.bind_eq_some_iff.mp hu
    split at hu
    · rename_i op m hp
      obtain ⟨n,-,hu⟩ := Option.bind_eq_some_iff.mp hu
      obtain ⟨-,hu⟩ := Option.ite_none_right_eq_some.mp hu
      cases hu
      rcases put_cases hj with ⟨rfl,hv⟩ | hv
      · cases hv
        rcases Finset.mem_union.mp hd with hd | hd
        · exact .inl ⟨e,he,hd⟩
        · refine .inr ⟨rfl,e,op,m,he,hp,?_⟩
          unfold spentBy at hd
          split at hd
          · exact (Finset.notMem_empty d hd).elim
          · split at hd
            · assumption
            · exact (Finset.notMem_empty d hd).elim
      · exact .inl ⟨u,hv,hd⟩
    · cases hu
  | report i evs =>
    obtain ⟨e,he,hu⟩ := Option.bind_eq_some_iff.mp hu
    obtain ⟨-,hu⟩ := Option.ite_none_right_eq_some.mp hu
    cases hu
    exact .inl (spent_put (s := s.found (e.watch.queued\evs)) he hj hd fun h => h)
  | feed i =>
    obtain ⟨e,he,hu⟩ := Option.bind_eq_some_iff.mp hu
    obtain ⟨evs,-,hu⟩ := Option.bind_eq_some_iff.mp hu
    obtain ⟨y,-,rfl⟩ := Option.map_eq_some_iff.mp hu
    exact .inl (spent_put he hj hd fun h => Finset.sdiff_subset h)
  | stop i =>
    obtain ⟨e,he,hu⟩ := Option.bind_eq_some_iff.mp hu
    split at hu
    · cases hu
      exact .inl (spent_put he hj hd fun h => h)
    · cases hu
  | dup i k again =>
    obtain ⟨e,he,hu⟩ := Option.bind_eq_some_iff.mp hu
    obtain ⟨-,hu⟩ := Option.ite_none_right_eq_some.mp hu
    have hcopy : ∀ {low able : Evts},(s.put k (some {fd := {efd := ⟨able,∅⟩}, watch := register s.file low})).ele j=some u →
        ∃ e,s.ele j=some e ∧ d∈e.spent := by
      intro low able hk
      rcases put_cases hk with ⟨rfl,hv⟩ | hv
      · cases hv
        exact (Finset.notMem_empty d hd).elim
      · exact ⟨u,hv,hd⟩
    cases again with
    | true =>
      cases hu
      rcases put_cases hj with ⟨rfl,hv⟩ | hv
      · cases hv
        exact .inl ⟨e,he,hd⟩
      · exact .inl (hcopy hv)
    | false =>
      cases hu
      rcases put_cases hj with ⟨rfl,hv⟩ | hv
      · cases hv
        exact .inl ⟨e,he,hd⟩
      · exact .inl (hcopy hv)
  | del i =>
    obtain ⟨e,he,hu⟩ := Option.bind_eq_some_iff.mp hu
    obtain ⟨-,hu⟩ := Option.ite_none_right_eq_some.mp hu
    cases hu
    rcases put_cases hj with ⟨-,hv⟩ | hv
    · cases hv
    · exact .inl ⟨u,hv,hd⟩

end Runs

def memory : List UInt8 := [0,0,0,0,0,0]

/-- A read of four bytes has two of them, and the file becomes ready again after EAGAIN; an avatar has been made before. -/
def halfRead : List (Act (Fin 2) (List UInt8 × ReadMust.Stm) (List UInt8 × Unit)) :=
  [.dup 0 1 true,.add 0 (.aio .inp false (memory,⟨1,4,0,4⟩)) .none,.rise .inp,.report 0 {.inp},.feed 0,
    .call 0 (.call ⟨2,0⟩) ([],()),.fall .inp,.call 0 (.call ⟨-1,11⟩) ([7,8],()),.rise .inp]

/-- A poll for input completes, and nobody reads before the next operation. -/
def polled : List (Act Unit Unit Unit) :=
  [.report () {.inp},.feed (),.add () (.poll 1) .none,.call () .none (),.add () (.io (StreamIo.dpgfdRead 100 8)) .none]

def noAio : Aio Unit Unit := ⟨fun _ => dpeInval,fun _ => 0,fun _ _ r => ((),r),fun _ => false⟩

end Dpapp.EfdReady
