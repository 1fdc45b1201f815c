import Dpapp.StreamIo

/-! # Datagrams (os/linux/dpasc_epoll.c)

The operations of an EFD that is a datagram socket: a call that reads takes one datagram of the queue, and a call that writes
emits one. The post functions are those of a stream. -/

namespace Dpapp.Datagram
open Dpapp.Machine Dpapp.Ret Dpapp.EfdWake Dpapp.EfdIo
open Dpapp.StreamIo (Call Io Loop Dir AioArg ioPost locs length_locs_sum int32 int32_eq total_small dpiocIovTotal
  dpiocIovAdvance loopTurn posted_post turn_data)

variable {κ α : Type*}

/-- A datagram and where it has come from; no call moves more bytes than an int counts. -/
structure Dgram (κ α : Type*) where
  sender : κ
  bytes : List α
  small : bytes.length<2^31

/-- What the calls of an operation have done: the datagrams they have got, what they have stored where, whether one has
returned 0 without a datagram, what msg_name holds, and from where the datagrams they have emitted take their bytes. -/
structure Taken (κ α : Type*) where
  got : List (Dgram κ α) := []
  stored : List (ℕ × α) := []
  shut : Bool := false
  name : Option κ := none
  emitted : List (List ℕ) := []

structure Done (κ α : Type*) where
  op : Io
  ret : Dpret
  run : Taken κ α

/-- `arrived` is all that has ever been in the queue, and `sent` all that has been emitted. -/
structure Sock (κ α : Type*) where
  fd : Fd Io Loop := {}
  queue : List (Dgram κ α) := []
  arrived : List (Dgram κ α) := []
  sent : List (List ℕ) := []
  run : Taken κ α := {}
  done : List (Done κ α) := []

/-- What the kernel answers: the next datagram, 0 after a shutdown, all is sent, or an error. -/
inductive Answer
  | dgram
  | shut
  | sent
  | fail (errno : ℕ)

inductive Act (κ α : Type*)
  | arrive (g : Dgram κ α)
  | add (o : Io)
  | call (a : Answer)
  | feed (evs : Evts)
  | stop (r : Dpret)

def Sock.settle (s : Sock κ α) (o : Io) (x : Fd Io Loop × Option Dpret) : Sock κ α :=
  match x.2 with
  | none => {s with fd := x.1}
  | some r => {s with fd := x.1, run := {}, done := s.done++[⟨o,r,s.run⟩]}

/-- A recv, readv or recvmsg stores what there is room for; the rest of the datagram is lost. -/
def Taken.take (u : Taken κ α) (o : Io) (l : List ℕ) (g : Dgram κ α) : Taken κ α :=
  {u with got := u.got++[g], stored := u.stored++l.zip g.bytes, name := if o.arg.isMsg then some g.sender else u.name}

/-- A call for the memory `l`. -/
def kernel (s : Sock κ α) (o : Io) (l : List ℕ) : Answer → Option (Sock κ α × Call)
  | .dgram =>
      match o.dir,s.queue with
      | .inp,g::q =>
          some ({s with queue := if o.peek then g::q else q, run := s.run.take o l g},⟨min g.bytes.length l.length,0⟩)
      | _,_ => none
  | .shut => if o.dir=.inp ∧ s.queue.isEmpty then some ({s with run := {s.run with shut := true}},⟨0,0⟩) else none
  | .sent =>
      if o.dir=.out ∧ l.length<2^31 then
        some ({s with sent := s.sent++[l], run := {s.run with emitted := s.run.emitted++[l]}},⟨l.length,0⟩)
      else none
  | .fail e => if 0<e then some (s,⟨-1,e⟩) else none

def step (s : Sock κ α) : Act κ α → Option (Sock κ α)
  | .arrive g => some {s with queue := s.queue++[g], arrived := s.arrived++[g]}
  | .add o =>
      match s.fd.pend with
      | none =>
          if o.prep=dpeContinue then some (s.settle o (s.fd.add ioPost o ⟨{o.dir.evt},∅⟩))
          else some (s.settle o (s.fd,some o.prep))
      -- dpevp_addv refuses
      | some _ => some s
  | .call a =>
      match s.fd.pend with
      | some ⟨o,some m⟩ =>
          (kernel s o (locs (o.request m)) a).map fun x =>
            x.1.settle o (x.1.fd.next ioPost (ioPost.turn x.1.fd.efd.want o m x.2))
      | _ => none
  | .feed evs =>
      match s.fd.pend with
      | none => (s.fd.feed ioPost evs).map fun x => {s with fd := x.1}
      | some ⟨o,_⟩ => (s.fd.feed ioPost evs).map (s.settle o)
  | .stop r =>
      match s.fd.pend with
      | some ⟨o,none⟩ => if r≤0 ∧ r≠dpeWait then some (s.settle o (s.fd.stop,some r)) else none
      | _ => none

/-! ### Boundaries -/

/-- The size of the buffer, or of all segments. -/
def size (o : Io) : ℕ := (locs o.iov).length

/-- The datagrams that an operation has removed from the queue. -/
def popped (o : Io) (got : List (Dgram κ α)) : List (Dgram κ α) := if o.peek then [] else got

/-- A receive operation with one datagram returns how much of it there is room for, and has stored that much; recvmsg
tells its sender. One without a datagram has failed. -/
def Exact (d : Done κ α) : Prop :=
  match d.run.got with
  | [] => d.ret≤0 ∧ d.run.stored=[]
  | [g] => d.ret=min g.bytes.length (size d.op) ∧ d.run.stored=(locs d.op.iov).zip g.bytes ∧
      (d.op.arg.isMsg=true → d.run.name=some g.sender)
  | _ => False

/-- A send operation has emitted all of its bytes in one datagram, or it has failed and emitted none. -/
def Emitted (d : Done κ α) : Prop :=
  (d.ret=size d.op ∧ 0<d.ret ∧ d.run.emitted=[locs d.op.iov]) ∨ (d.ret≤0 ∧ d.run.emitted=[])

/-- The first datagram is empty; or it leaves room and another one is there for the next call, or the next call of a
recv or readv returns 0. -/
def slips (d : Done κ α) : Prop :=
  ∃ g rest,d.run.got=g::rest ∧ (g.bytes=[] ∨ g.bytes.length<size d.op ∧ (rest≠[] ∨ d.run.shut=true ∧ d.op.arg.isMsg=false))

def fine (d : Done κ α) : Prop := (d.op.dir=.inp → (Exact d ↔ ¬slips d)) ∧ (d.op.dir=.out → Emitted d)

/-- The post function runs. -/
def Taking (o : Io) (u : Taken κ α) (m : Loop) : Prop :=
  match u.got with
  | [] => m.total=0 ∧ m.iov=o.iov ∧ u.stored=[] ∧ u.shut=false
  | [g] => 0<g.bytes.length ∧ g.bytes.length<size o ∧ m.total=g.bytes.length ∧ u.stored=(locs o.iov).zip g.bytes ∧
      (o.arg.isMsg=true → u.name=some g.sender) ∧ u.shut=false
  | g::_ => g.bytes.length<size o

/-- No post function runs. -/
def Waiting (o : Io) (u : Taken κ α) : Prop :=
  match u.got with
  | [] => u.stored=[] ∧ u.shut=false
  | [_] => False
  | g::_ => g.bytes.length<size o

/-- The operation has emitted nothing, and a send has got nothing. -/
structure Begun (o : Io) (u : Taken κ α) : Prop where
  prep : o.prep=dpeContinue
  emitted : u.emitted=[]
  out : o.dir=.out → u.got=[]

def Sock.now (s : Sock κ α) : List (Dgram κ α) :=
  match s.fd.pend with
  | some x => popped x.data s.run.got
  | none => []

structure Books (s : Sock κ α) (now : List (Dgram κ α)) (emitted : List (List ℕ)) : Prop where
  order : s.arrived=s.done.flatMap (fun d => popped d.op d.run.got)++now++s.queue
  sends : s.sent=s.done.flatMap (·.run.emitted)++emitted
  done : ∀ d∈ s.done,fine d

structure Inv (s : Sock κ α) : Prop where
  books : Books s s.now []
  idle : s.fd.pend=none → s.run={}
  begun : ∀ x,s.fd.pend=some x → Begun x.data s.run
  waits : ∀ o,s.fd.pend=some ⟨o,none⟩ → Waiting o s.run
  runs : ∀ o m,s.fd.pend=some ⟨o,some m⟩ → Taking o s.run m

section Steps
variable {s s' : Sock κ α} {o : Io} {m : Loop} {c : Call} {u : Taken κ α} {g : Dgram κ α} {want : Evts} {x : Efd × Turn}
  {r : Dpret}

/-- An operation that waits ends without a datagram, or with two. -/
theorem fine_waiting (h : Waiting o u) (he : u.emitted=[]) (hr : r≤0) : fine ⟨o,r,u⟩ := by
  refine ⟨fun _ => ?_,fun _ => .inr ⟨hr,he⟩⟩
  obtain ⟨got,stored,shut,name,emitted⟩ := u
  cases got with
  | nil =>
    refine iff_of_true ⟨hr,h.1⟩ ?_
    rintro ⟨g,rest,hg,-⟩
    cases hg
  | cons g rest =>
    cases rest with
    | nil => exact h.elim
    | cons g' rest => exact iff_of_false id (not_not.mpr ⟨g,g'::rest,rfl,.inr ⟨h,.inl (List.cons_ne_nil _ _)⟩⟩)

theorem taking_enter (h : Waiting o u) : Taking o u (ioPost.enter o) := by
  obtain ⟨got,stored,shut,name,emitted⟩ := u
  cases got with
  | nil => exact ⟨rfl,rfl,h.1,h.2⟩
  | cons g rest =>
    cases rest with
    | nil => exact h.elim
    | cons g' rest => exact h

/-- An operation ends. -/
theorem inv_settled {f : Fd Io Loop} (hb : Books s (popped o s.run.got) s.run.emitted) (hf : f.pend=none)
    (hfine : fine ⟨o,r,s.run⟩) : Inv (s.settle o (f,some r)) := by
  have hnone : ∀ y,f.pend≠some y := fun y hy => by rw [hf] at hy; cases hy
  have hnow : (s.settle o (f,some r)).now=[] := by
    simp only [Sock.settle,Sock.now,hf]
  refine ⟨⟨?_,?_,fun d hd => ?_⟩,fun _ => rfl,fun y hy => (hnone y hy).elim,fun _ hp => (hnone _ hp).elim,
    fun _ _ hp => (hnone _ hp).elim⟩
  · have horder := hb.order
    rw [hnow]
    simp only [Sock.settle,List.flatMap_append,List.flatMap_singleton,List.append_nil]
    exact horder
  · have hsends := hb.sends
    simp only [Sock.settle,List.flatMap_append,List.flatMap_singleton,List.append_nil]
    exact hsends
  · rcases List.mem_append.mp hd with hd | hd
    · exact hb.done d hd
    · rw [List.mem_singleton.mp hd]
      exact hfine

/-- The wake loop goes on with an operation, or ends it. -/
theorem inv_turned (hb : Books s (popped o s.run.got) s.run.emitted)
    (hend : ∀ r,x.2=.ret r → r≠dpeWait → fine ⟨o,r,s.run⟩)
    (hgo : x.2=.post ∨ x.2=.ret dpeWait → Waiting o s.run ∧ Begun o s.run) : Inv (s.settle o (turned ioPost o x)) := by
  rcases turned_cases ioPost o x with ⟨hx,ht⟩ | ⟨hx,ht⟩ | ⟨r,hx,hr,ht⟩
  · obtain ⟨hw,hbeg⟩ := hgo (.inr hx)
    have hbooks := hb
    rw [hbeg.emitted] at hbooks
    rw [ht]
    refine ⟨⟨hbooks.order,hbooks.sends,hbooks.done⟩,fun hn => (by cases hn),fun y hy => ?_,fun o' hp => ?_,
      fun _ _ hp => (by cases hp)⟩
    · cases hy
      exact hbeg
    · cases hp
      exact hw
  · obtain ⟨hw,hbeg⟩ := hgo (.inl hx)
    have hbooks := hb
    rw [hbeg.emitted] at hbooks
    rw [ht]
    refine ⟨⟨hbooks.order,hbooks.sends,hbooks.done⟩,fun hn => (by cases hn),fun y hy => ?_,fun _ hp => (by cases hp),
      fun o' m hp => ?_⟩
    · cases hy
      exact hbeg
    · cases hp
      exact taking_enter hw
  · rw [ht]
    exact inv_settled hb rfl (hend r hx hr)

/-- The post function calls again, or returns to the wake loop. -/
theorem inv_next {x : Next Io Loop} (hb : Books s (popped o s.run.got) s.run.emitted)
    (hx : (∃ m,x=.call o m ∧ Taking o s.run m ∧ Begun o s.run) ∨
      ∃ p,x=.ret o p ∧ (p.ret≠dpeWait → fine ⟨o,p.ret,s.run⟩) ∧ (p.ret=dpeWait → Waiting o s.run ∧ Begun o s.run)) :
    Inv (s.settle o (s.fd.next ioPost x)) := by
  rcases hx with ⟨m,rfl,hm,hbeg⟩ | ⟨p,rfl,hend,hwait⟩
  · have hbooks := hb
    rw [hbeg.emitted] at hbooks
    refine ⟨⟨hbooks.order,hbooks.sends,hbooks.done⟩,fun hn => (by cases hn),fun y hy => ?_,fun _ hp => (by cases hp),
      fun o' m' hp => ?_⟩
    · cases hy
      exact hbeg
    · cases hp
      exact hm
  · refine inv_turned hb (fun r hr hne => ?_) fun hgo => hwait ?_
    · have heq := (dpefdPosted_ret hr).1
      rw [heq] at hne ⊢
      exact hend hne
    · rcases hgo with hgo | hgo
      · exact posted_post hgo
      · exact (dpefdPosted_ret hgo).1.symm

/-- What ends the loop of a post function: all segments are full. -/
def full (o : Io) : ℤ :=
  match o.arg with
  | .buf _ len => len
  | .iov iov | .msg iov => int32 (dpiocIovTotal iov)

def eofRet (o : Io) (total : ℤ) : Dpret := if o.arg.isMsg=true ∧ 0<total then total else dpeEof

theorem turn_eq : ioPost.turn want o m c=match loopTurn (full o) (eofRet o) want m.total c with
    | (_,some p) => .ret o p
    | (t,none) => .call o ⟨t,dpiocIovAdvance m.iov c.res.toNat⟩ := by
  obtain ⟨dir,arg,peek⟩ := o
  cases arg with
  | buf base len => rfl
  | iov iov => rfl
  | msg iov =>
    have heof : eofRet ⟨dir,.msg iov,peek⟩=fun t => if 0<t then t else dpeEof := by
      funext t
      simp [eofRet,AioArg.isMsg]
    rw [heof]
    rfl

theorem locs_fresh (h : m.total=0) (hm : m.iov=o.iov) : locs (o.request m)=locs o.iov := by
  obtain ⟨dir,arg,peek⟩ := o
  cases arg with
  | buf base len => simp [Io.request,Io.iov,h]
  | iov iov => exact congrArg locs hm
  | msg iov => exact congrArg locs hm

/-- A prep function lets an operation begin that has room for a byte at least. -/
theorem size_pos (h : o.prep=dpeContinue) : 0<size o := by
  obtain ⟨dir,arg,peek⟩ := o
  have htotal : ∀ iov : List StreamIo.Iovec,int32 (dpiocIovTotal iov)≠0 → 0<(locs iov).length := by
    intro iov hne
    by_contra hno
    have hzero : (locs iov).length=0 := by omega
    refine hne ?_
    rw [total_small (by omega),hzero]
    rfl
  cases arg with
  | buf base len =>
    simp only [Io.prep] at h
    split at h
    · cases h
    · rename_i hok
      have hlen := (not_or.mp hok).2
      simp only [size,Io.iov,length_locs_sum,List.map_cons,List.map_nil,List.sum_cons,List.sum_nil]
      omega
  | iov iov =>
    simp only [Io.prep] at h
    split at h
    · cases h
    · rename_i hok
      exact htotal iov hok
  | msg iov =>
    simp only [Io.prep] at h
    split at h
    · cases h
    · rename_i hok
      exact htotal iov hok

theorem full_eq (h : o.prep=dpeContinue) (hs : size o<2^31) : full o=size o := by
  have hpos := size_pos h
  obtain ⟨dir,arg,peek⟩ := o
  cases arg with
  | buf base len =>
    simp only [size,Io.iov,length_locs_sum,List.map_cons,List.map_nil,List.sum_cons,List.sum_nil] at hpos ⊢
    simp only [full]
    omega
  | iov iov => exact total_small hs
  | msg iov => exact total_small hs

/-- The operation that the wake loop or the next call finds. -/
def Goes (o : Io) (u : Taken κ α) (x : Next Io Loop) : Prop :=
  (∃ m,x=.call o m ∧ Taking o u m ∧ Begun o u) ∨
    ∃ p,x=.ret o p ∧ (p.ret≠dpeWait → fine ⟨o,p.ret,u⟩) ∧ (p.ret=dpeWait → Waiting o u ∧ Begun o u)

/-- Two datagrams have been taken: whatever the result is, it is a slip. -/
theorem goes_many {k : Dgram κ α} {rest : List (Dgram κ α)} (hg : u.got=g::k::rest) (hs : g.bytes.length<size o)
    (hb : Begun o u) : Goes o u (ioPost.turn want o m c) := by
  have hin : o.dir=.out → False := fun hdir => by
    have := hb.out hdir
    rw [hg] at this
    cases this
  rcases turn_data want o m c with ⟨m',hturn⟩ | ⟨p,hturn⟩
  · refine .inl ⟨m',hturn,?_,hb⟩
    unfold Taking
    rw [hg]
    exact hs
  · refine .inr ⟨p,hturn,fun _ => ⟨fun _ => iff_of_false ?_ (not_not.mpr ⟨g,k::rest,hg,.inr ⟨hs,.inl ?_⟩⟩),
      fun hdir => (hin hdir).elim⟩,fun _ => ⟨?_,hb⟩⟩
    · unfold Exact
      rw [hg]
      exact id
    · exact List.cons_ne_nil _ _
    · unfold Waiting
      rw [hg]
      exact hs

/-- One datagram has been taken. -/
theorem fine_one (hdir : o.dir=.inp) (hg : u.got=[g]) (hst : u.stored=(locs o.iov).zip g.bytes)
    (hname : o.arg.isMsg=true → u.name=some g.sender) (hr : r=min g.bytes.length (size o) ↔
      ¬(g.bytes=[] ∨ g.bytes.length<size o ∧ u.shut=true ∧ o.arg.isMsg=false)) : fine ⟨o,r,u⟩ := by
  have hexact : Exact ⟨o,r,u⟩ ↔ r=min g.bytes.length (size o) := by
    unfold Exact
    rw [hg]
    exact ⟨fun h => h.1,fun h => ⟨h,hst,hname⟩⟩
  have hslip : slips ⟨o,r,u⟩ ↔ g.bytes=[] ∨ g.bytes.length<size o ∧ u.shut=true ∧ o.arg.isMsg=false := by
    constructor
    · rintro ⟨g',rest,hg',hcase⟩
      have hg' : u.got=g'::rest := hg'
      rw [hg] at hg'
      cases hg'
      rcases hcase with hnil | ⟨hs,hne | hshut⟩
      · exact .inl hnil
      · exact absurd rfl hne
      · exact .inr ⟨hs,hshut⟩
    · rintro (hnil | ⟨hs,hshut⟩)
      · exact ⟨g,[],hg,.inl hnil⟩
      · exact ⟨g,[],hg,.inr ⟨hs,.inr hshut⟩⟩
  refine ⟨fun _ => ?_,fun hd => (by rw [hdir] at hd; cases hd)⟩
  rw [hexact,hslip]
  exact hr

/-- The first call has got a datagram. -/
theorem goes_first (hb : Begun o u) (hdir : o.dir=.inp) (hm : m.total=0) (hg : u.got=[g])
    (hst : u.stored=(locs o.iov).zip g.bytes) (hname : o.arg.isMsg=true → u.name=some g.sender) (hshut : u.shut=false)
    (hc : c.res=min g.bytes.length (size o)) : Goes o u (ioPost.turn want o m c) := by
  have hsize := size_pos hb.prep
  have hsmall := g.small
  have hfine {r : Dpret} (hr : r=min g.bytes.length (size o) ↔ g.bytes≠[]) : fine ⟨o,r,u⟩ := by
    refine fine_one hdir hg hst hname (hr.trans (not_congr ?_))
    rw [hshut]
    exact ⟨.inl,fun h => h.resolve_right fun h => Bool.false_ne_true h.2.1⟩
  rw [turn_eq,hm]
  unfold loopTurn
  by_cases hnil : g.bytes.length=0
  · have hzero : c.res=0 := by omega
    have hempty : g.bytes=[] := List.eq_nil_of_length_eq_zero hnil
    rw [hzero]
    refine .inr ⟨_,rfl,fun _ => hfine ?_,fun hwait => ?_⟩
    · refine iff_of_false (fun h => ?_) fun h => h hempty
      rw [hnil] at h
      rw [Nat.zero_min] at h
      exact absurd (show dpeEof=((0 : ℕ) : ℤ) from (by simpa [eofRet] using h)) (by decide)
    · exact absurd (show dpeEof=dpeWait from (by simpa [eofRet] using hwait)) (by decide)
  · have hpos : 0<c.res := by omega
    have hne : g.bytes≠[] := fun h => hnil (by rw [h]; rfl)
    have hsum : int32 (0+c.res)=c.res := by rw [zero_add,int32_eq hpos.le (by omega)]
    rw [if_pos hpos,hsum]
    by_cases hfull : c.res=full o
    · rw [if_pos hfull]
      refine .inr ⟨_,rfl,fun _ => hfine (iff_of_true hc hne),fun hwait => ?_⟩
      have hwait : c.res=dpeWait := hwait
      unfold dpeWait at hwait
      omega
    · rw [if_neg hfull]
      have hroom : g.bytes.length<size o := by
        by_contra hno
        exact hfull (by rw [hc,full_eq hb.prep (by omega)]; omega)
      refine .inl ⟨_,rfl,?_,hb⟩
      unfold Taking
      rw [hg]
      exact ⟨by omega,hroom,by simp only; omega,hst,hname,hshut⟩

/-- A call that gets nothing ends a receive operation. -/
theorem goes_end (h : Taking o u m) (hb : Begun o u) (hdir : o.dir=.inp) (hc : c.res<0) (he : 0<c.errno) :
    Goes o u (ioPost.turn want o m c) := by
  obtain ⟨got,stored,shut,name,emitted⟩ := u
  cases got with
  | nil =>
    obtain ⟨hm,-,hst,hshut⟩ := h
    have hwait : Waiting o (⟨[],stored,shut,name,emitted⟩ : Taken κ α) := ⟨hst,hshut⟩
    rw [turn_eq,hm]
    unfold loopTurn
    rw [if_neg hc.not_gt,if_neg hc.ne,if_neg (lt_irrefl 0)]
    exact .inr ⟨_,rfl,fun _ => fine_waiting hwait hb.emitted (show -(c.errno : ℤ)≤0 by omega),fun _ => ⟨hwait,hb⟩⟩
  | cons g rest =>
    cases rest with
    | nil =>
      obtain ⟨hpos,hroom,hm,hst,hname,hshut⟩ := h
      rw [turn_eq,hm]
      unfold loopTurn
      rw [if_neg hc.not_gt,if_neg hc.ne,if_pos (by omega)]
      refine .inr ⟨_,rfl,fun _ => fine_one hdir rfl hst hname (iff_of_true ?_ ?_),fun hwait => ?_⟩
      · exact (congrArg (Nat.cast : ℕ → ℤ) (min_eq_left hroom.le)).symm
      · rintro (hnil | ⟨-,hs,-⟩)
        · rw [hnil] at hpos
          cases hpos
        · exact Bool.false_ne_true (hshut.symm.trans hs)
      · have hwait : (g.bytes.length : ℤ)=dpeWait := hwait
        unfold dpeWait at hwait
        omega
    | cons g' rest => exact goes_many rfl h hb

/-- A call returns 0 after a shutdown. -/
theorem goes_shut (h : Taking o u m) (hb : Begun o u) (hdir : o.dir=.inp) :
    Goes o {u with shut := true} (ioPost.turn want o m ⟨0,0⟩) := by
  have hb' : Begun o {u with shut := true} := ⟨hb.prep,hb.emitted,hb.out⟩
  obtain ⟨got,stored,shut,name,emitted⟩ := u
  cases got with
  | nil =>
    obtain ⟨hm,-,hst,-⟩ := h
    have heof : eofRet o 0=dpeEof := if_neg fun h => lt_irrefl 0 h.2
    rw [turn_eq,hm]
    refine .inr ⟨_,rfl,fun _ => ⟨fun _ => iff_of_true ⟨?_,hst⟩ ?_,fun hd => (by rw [hdir] at hd; cases hd)⟩,fun hwait => ?_⟩
    · change eofRet o 0≤0
      rw [heof]
      decide
    · rintro ⟨g,rest,hg,-⟩
      cases hg
    · have hwait : eofRet o 0=dpeWait := hwait
      rw [heof] at hwait
      exact absurd hwait (by decide)
  | cons g rest =>
    cases rest with
    | nil =>
      obtain ⟨hpos,hroom,hm,hst,hname,-⟩ := h
      have hret : eofRet o g.bytes.length=if o.arg.isMsg=true then (g.bytes.length : ℤ) else dpeEof := by
        unfold eofRet
        simp only [show (0 : ℤ)<g.bytes.length by omega,and_true]
      have hneg : dpeEof<0 := by decide
      rw [turn_eq,hm]
      refine .inr ⟨⟨eofRet o g.bytes.length,want,want⟩,rfl,fun _ => fine_one hdir rfl hst hname ?_,fun hwait => ?_⟩
      · simp only [hret]
        cases hmsg : o.arg.isMsg with
        | true =>
          refine iff_of_true ?_ ?_
          · rw [if_pos rfl]
            exact (congrArg (Nat.cast : ℕ → ℤ) (min_eq_left hroom.le)).symm
          · rintro (hnil | ⟨-,-,hs⟩)
            · rw [hnil] at hpos
              cases hpos
            · cases hs
        | false =>
          refine iff_of_false (fun h => ?_) (not_not.mpr (.inr ⟨hroom,trivial,rfl⟩))
          rw [if_neg Bool.false_ne_true,min_eq_left hroom.le] at h
          exact absurd (h ▸ hneg) (show ¬(g.bytes.length : ℤ)<0 by omega)
      · simp only [hret] at hwait
        have hneg : dpeWait<0 := by decide
        split at hwait
        · exact absurd (hwait ▸ hneg) (show ¬(g.bytes.length : ℤ)<0 by omega)
        · exact absurd hwait (by decide)
    | cons g' rest => exact goes_many (g := g) (k := g') rfl h hb'

/-- A send emits all of its bytes in one datagram. -/
theorem goes_sent (h : Taking o u m) (hb : Begun o u) (hdir : o.dir=.out) (hl : (locs (o.request m)).length<2^31) :
    Goes o {u with emitted := u.emitted++[locs (o.request m)]} (ioPost.turn want o m ⟨(locs (o.request m)).length,0⟩) := by
  have hpos := size_pos hb.prep
  have hfresh : m.total=0 ∧ m.iov=o.iov := by
    unfold Taking at h
    rw [hb.out hdir] at h
    exact ⟨h.1,h.2.1⟩
  rw [locs_fresh hfresh.1 hfresh.2] at hl ⊢
  have hsize : (locs o.iov).length=size o := rfl
  rw [hsize] at hl ⊢
  have hsum : int32 (0+(size o : ℤ))=size o := by rw [zero_add,int32_eq (by omega) (by omega)]
  rw [turn_eq,hfresh.1,hb.emitted]
  unfold loopTurn
  rw [if_pos (show (0 : ℤ)<size o by omega)]
  simp only [hsum,if_pos (full_eq hb.prep hl).symm]
  refine .inr ⟨_,rfl,fun _ => ⟨fun hd => (by rw [hdir] at hd; cases hd),fun _ => .inl ⟨rfl,?_,rfl⟩⟩,fun hwait => ?_⟩
  · exact show (0 : ℤ)<size o by omega
  · have hwait : (size o : ℤ)=dpeWait := hwait
    unfold dpeWait at hwait
    omega

theorem goes_unsent (h : Taking o u m) (hb : Begun o u) (hdir : o.dir=.out) (hc : c.res<0) (he : 0<c.errno) :
    Goes o u (ioPost.turn want o m c) := by
  have hfresh : m.total=0 ∧ u.stored=[] ∧ u.shut=false := by
    unfold Taking at h
    rw [hb.out hdir] at h
    exact ⟨h.1,h.2.2⟩
  have hwait : Waiting o u := by
    unfold Waiting
    rw [hb.out hdir]
    exact hfresh.2
  rw [turn_eq,hfresh.1]
  unfold loopTurn
  rw [if_neg hc.not_gt,if_neg hc.ne,if_neg (lt_irrefl 0)]
  exact .inr ⟨_,rfl,fun _ => fine_waiting hwait hb.emitted (show -(c.errno : ℤ)≤0 by omega),fun _ => ⟨hwait,hb⟩⟩

/-- A call that gets a datagram. -/
theorem goes_dgram (h : Taking o u m) (hb : Begun o u) (hdir : o.dir=.inp) :
    Goes o (u.take o (locs (o.request m)) g) (ioPost.turn want o m ⟨min g.bytes.length (locs (o.request m)).length,0⟩) := by
  have hb' : Begun o (u.take o (locs (o.request m)) g) :=
    ⟨hb.prep,hb.emitted,fun hd => (by rw [hdir] at hd; cases hd)⟩
  obtain ⟨got,stored,shut,name,emitted⟩ := u
  cases got with
  | nil =>
    obtain ⟨hm,hiov,hst,hshut⟩ := h
    have hst : stored=[] := hst
    rw [locs_fresh hm hiov] at hb' ⊢
    refine goes_first (g := g) hb' hdir hm rfl ?_ (fun hmsg => ?_) hshut ?_
    · simp only [Taken.take,hst,List.nil_append]
    · simp only [Taken.take,if_pos hmsg]
    · simp only [Nat.cast_min,size]
  | cons g1 rest =>
    have hroom : g1.bytes.length<size o := by
      cases rest with
      | nil => exact h.2.1
      | cons g2 rest => exact h
    cases rest with
    | nil => exact goes_many (g := g1) (k := g) rfl hroom hb'
    | cons g2 rest => exact goes_many (g := g1) (k := g2) rfl hroom hb'

theorem inv_call {a : Answer} (h : Inv s) (hu : step s (.call a)=some s') : Inv s' := by
  simp only [step] at hu
  split at hu
  · rename_i o m hpend
    obtain ⟨⟨t,c⟩,hk,rfl⟩ := Option.map_eq_some_iff.mp hu
    have ht := h.runs o m hpend
    have hb : Begun o s.run := h.begun _ hpend
    have hnow : s.now=popped o s.run.got := by
      unfold Sock.now
      rw [hpend]
    have horder := h.books.order
    have hsends := h.books.sends
    rw [hnow] at horder
    rw [List.append_nil] at hsends
    cases a with
    | dgram =>
      simp only [kernel] at hk
      split at hk
      · rename_i g q hdir hq
        cases hk
        refine inv_next ⟨?_,?_,h.books.done⟩ (goes_dgram ht hb hdir)
        · simp only [Taken.take]
          rw [horder,hq]
          unfold popped
          split
          · rfl
          · simp only [List.append_assoc,List.singleton_append]
        · simp only [Taken.take]
          rw [hb.emitted,List.append_nil]
          exact hsends
      · cases hk
    | shut =>
      simp only [kernel] at hk
      split at hk
      · rename_i hg
        cases hk
        refine inv_next ⟨horder,?_,h.books.done⟩ (goes_shut ht hb hg.1)
        simp only
        rw [hb.emitted,List.append_nil]
        exact hsends
      · cases hk
    | sent =>
      simp only [kernel] at hk
      split at hk
      · rename_i hg
        cases hk
        refine inv_next ⟨horder,?_,h.books.done⟩ (goes_sent ht hb hg.1 hg.2)
        simp only
        rw [hb.emitted,List.nil_append,hsends]
      · cases hk
    | fail e =>
      simp only [kernel] at hk
      split at hk
      · rename_i he
        cases hk
        refine inv_next ⟨horder,?_,h.books.done⟩ ?_
        · rw [hb.emitted,List.append_nil]
          exact hsends
        · cases hdir : o.dir with
          | inp => exact goes_end ht hb hdir (show (-1 : ℤ)<0 by decide) he
          | out => exact goes_unsent ht hb hdir (show (-1 : ℤ)<0 by decide) he
      · cases hk
  · cases hu

/-- The wake loop begins with an operation. -/
theorem inv_wake (hs : Books s (popped o s.run.got) []) (hw : Waiting o s.run) (hb : Begun o s.run) (f : Efd) (q : AscOut) :
    Inv (s.settle o (turned ioPost o (dpefdWake f q))) := by
  rw [← hb.emitted] at hs
  refine inv_turned hs (fun r hr hne => fine_waiting hw hb.emitted ?_) fun _ => ⟨hw,hb⟩
  exact le_of_lt ((dpefdWake_ret hr).2 hne).2.1

theorem now_of {run : Option Loop} (h : s.fd.pend=some ⟨o,run⟩) : s.now=popped o s.run.got := by
  unfold Sock.now
  rw [h]

theorem inv_feed {evs : Evts} (h : Inv s) (hu : step s (.feed evs)=some s') : Inv s' := by
  simp only [step] at hu
  split at hu
  · rename_i hpend
    obtain ⟨y,hy,rfl⟩ := Option.map_eq_some_iff.mp hu
    rcases feed_cases hy with ⟨-,rfl⟩ | ⟨d,hd,-⟩
    · have hnow : s.now=[] := by
        unfold Sock.now
        rw [hpend]
      have hbooks := h.books
      rw [hnow] at hbooks
      exact ⟨⟨hbooks.order,hbooks.sends,hbooks.done⟩,fun _ => h.idle hpend,fun _ hp => (by cases hp),fun _ hp => (by cases hp),
        fun _ _ hp => (by cases hp)⟩
    · rw [hpend] at hd
      cases hd
  · rename_i o run hpend
    obtain ⟨y,hy,rfl⟩ := Option.map_eq_some_iff.mp hu
    rcases feed_cases hy with ⟨hno,-⟩ | ⟨d,hd,hcase⟩
    · rw [hpend] at hno
      cases hno
    · have hod : (⟨o,run⟩ : Pend Io Loop)=⟨d,none⟩ := Option.some.inj (hpend.symm.trans hd)
      cases hod
      have hw := h.waits o hpend
      have hb : Begun o s.run := h.begun _ hpend
      have hbooks := h.books
      rw [now_of hpend] at hbooks
      rcases hcase with rfl | rfl
      · refine ⟨⟨hbooks.order,hbooks.sends,hbooks.done⟩,fun hn => (by cases hn),fun y hy => ?_,fun o' hp => ?_,
          fun _ _ hp => (by cases hp)⟩
        · cases hy
          exact hb
        · cases hp
          exact hw
      · exact inv_wake hbooks hw hb _ _

theorem step_inv (a : Act κ α) (h : Inv s) (hu : step s a=some s') : Inv s' := by
  cases a with
  | arrive g =>
    cases hu
    refine ⟨⟨?_,h.books.sends,h.books.done⟩,h.idle,h.begun,h.waits,h.runs⟩
    have horder := h.books.order
    simp only
    rw [horder]
    simp only [List.append_assoc]
    rfl
  | add o =>
    simp only [step] at hu
    split at hu
    · rename_i hpend
      have hrun := h.idle hpend
      have hnow : s.now=popped o s.run.got := by
        unfold Sock.now
        rw [hpend,hrun]
        exact (ite_self []).symm
      have hbooks := h.books
      rw [hnow] at hbooks
      have hw : Waiting o s.run := by
        rw [hrun]
        exact ⟨rfl,rfl⟩
      split at hu
      · rename_i hprep
        cases hu
        refine inv_wake hbooks hw ⟨hprep,?_,fun _ => ?_⟩ _ _
        · rw [hrun]
        · rw [hrun]
      · cases hu
        have hprep : o.prep≤0 := by
          unfold Io.prep
          split <;> split <;> decide
        have hemit : s.run.emitted=[] := by rw [hrun]
        rw [← hemit] at hbooks
        exact inv_settled hbooks hpend (fine_waiting hw hemit hprep)
    · cases hu
      exact h
  | call a => exact inv_call h hu
  | feed evs => exact inv_feed h hu
  | stop r =>
    simp only [step] at hu
    split at hu
    · rename_i o hpend
      split at hu
      · rename_i hr
        cases hu
        have hb : Begun o s.run := h.begun _ hpend
        have hbooks := h.books
        rw [now_of hpend,← hb.emitted] at hbooks
        exact inv_settled hbooks rfl (fine_waiting (h.waits o hpend) hb.emitted hr.1)
      · cases hu
    · cases hu

theorem inv_start : Inv ({} : Sock κ α) :=
  ⟨⟨rfl,rfl,fun _ hd => (by cases hd)⟩,fun _ => rfl,fun _ hp => (by cases hp),fun _ hp => (by cases hp),
    fun _ _ hp => (by cases hp)⟩

end Steps

def alpha : Dgram ℕ ℕ := ⟨7,[1,2],by decide⟩

def beta : Dgram ℕ ℕ := ⟨8,[3,4,5],by decide⟩

/-- A recvmsg finds one datagram and nothing behind it; a recv gets the first two bytes of the next one; a send. -/
def apart : List (Act ℕ ℕ) :=
  [.arrive alpha,.add (StreamIo.dpsktRecvmsg [⟨100,1⟩,⟨300,3⟩] false),.feed {.inp},.call .dgram,.call (.fail 11),
    .arrive beta,.add (StreamIo.dpsktRecv2 200 2),.feed {.inp},.call .dgram,
    .feed {.out},.add (StreamIo.dpsktSend2 400 2),.call .sent]

/-- A recv with room for eight bytes finds two datagrams. -/
def together : List (Act ℕ ℕ) :=
  [.arrive alpha,.arrive beta,.add (StreamIo.dpsktRecv2 200 8),.feed {.inp},.call .dgram,.call .dgram,.call (.fail 11)]

end Dpapp.Datagram
