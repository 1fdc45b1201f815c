import Dpapp.EfdIo
import Dpapp.Machine

/-! # Reading and writing a stream (os/linux/dpasc_epoll.c)

`_dpaio_buf_post`, `_dpaio_iov_post` and `_dpaio_msg_post` on one EFD, call by call. -/

set_option linter.unusedSectionVars false

namespace Dpapp.StreamIo
open Dpapp.Machine Dpapp.Ret Dpapp.EfdWake Dpapp.EfdIo

/-- `int` arithmetic -/
def int32 (x : ℤ) : ℤ := x.bmod (2^32)

/-! ### struct iovec -/

structure Iovec where
  base : ℕ
  len : ℕ
  deriving DecidableEq

def Iovec.locs (v : Iovec) : List ℕ := List.range' v.base v.len

/-- The memory that the segments cover, in their order. -/
def locs (iov : List Iovec) : List ℕ := iov.flatMap Iovec.locs

/-- `_dpioc_iov_total`, a size_t -/
def dpiocIovTotal (iov : List Iovec) : ℕ := (iov.map (·.len)).sum%2^64

/-- `_dpioc_iov_advance` -/
def dpiocIovAdvance : List Iovec → ℕ → List Iovec
  | [],_ => []
  | v::iov,n =>
      if n=0 then v::iov
      else if n<v.len then ⟨v.base+n,v.len-n⟩::iov
      else dpiocIovAdvance iov (n-v.len)

theorem locs_cons (v : Iovec) (iov : List Iovec) : locs (v::iov)=v.locs++locs iov := rfl

theorem length_locs (v : Iovec) : v.locs.length=v.len := List.length_range'

theorem length_locs_sum (iov : List Iovec) : (locs iov).length=(iov.map (·.len)).sum := by
  induction iov with
  | nil => rfl
  | cons v iov ih => rw [locs_cons,List.length_append,length_locs,ih,List.map_cons,List.sum_cons]

theorem locs_advance (iov : List Iovec) (n : ℕ) : locs (dpiocIovAdvance iov n)=(locs iov).drop n := by
  induction iov generalizing n with
  | nil => simp [dpiocIovAdvance,locs]
  | cons v iov ih =>
    unfold dpiocIovAdvance
    split
    · rename_i h0
      rw [h0,List.drop_zero]
    · split
      · rename_i hn
        rw [locs_cons,locs_cons,List.drop_append_of_le_length (by rw [length_locs]; exact hn.le)]
        simp [Iovec.locs]
      · rename_i hn
        have hall : v.locs.drop n=[] := List.drop_eq_nil_of_le (by rw [length_locs]; omega)
        rw [ih,locs_cons,List.drop_append,hall,length_locs,List.nil_append]

/-! ### The post functions -/

/-- A call's return value, and errno where it is negative. -/
structure Call where
  res : ℤ
  errno : ℕ

/-- One turn of the loop of a post function; `eof` is what it returns where a call has returned 0. -/
def loopTurn (full : ℤ) (eof : ℤ → Dpret) (want : Evts) (total : ℤ) (c : Call) : ℤ × Option PostRet :=
  if 0<c.res then (int32 (total+c.res),if int32 (total+c.res)=full then some ⟨int32 (total+c.res),want,∅⟩ else none)
  else if c.res=0 then (total,some ⟨eof total,want,want⟩)
  else (total,some ⟨if 0<total then total else -c.errno,want,want⟩)

/-- `_dpaio_buf_post` -/
def dpaioBufPost (len : ℤ) := loopTurn len fun _ => dpeEof

/-- `_dpaio_iov_post` -/
def dpaioIovPost (total : ℤ) := loopTurn total fun _ => dpeEof

/-- `_dpaio_msg_post` -/
def dpaioMsgPost (total : ℤ) := loopTurn total fun t => if 0<t then t else dpeEof

/-- dpaio_arg_t as the prep functions fill it; a null pointer is 0 or no segment. -/
inductive AioArg
  | buf (base : ℕ) (len : ℤ)
  | iov (iov : List Iovec)
  | msg (iov : List Iovec)

inductive Dir | inp | out
  deriving DecidableEq

def Dir.evt : Dir → Evt
  | .inp => .inp
  | .out => .out

/-- An operation, by the event it waits for; `peek` is whether the flag of a recv has MSG_PEEK. -/
structure Io where
  dir : Dir
  arg : AioArg
  peek : Bool := false

def dpgfdRead (buf : ℕ) (len : ℤ) : Io := ⟨.inp,.buf buf len,false⟩
def dpgfdWrite (buf : ℕ) (len : ℤ) : Io := ⟨.out,.buf buf len,false⟩
def dpgfdReadv (iov : List Iovec) : Io := ⟨.inp,.iov iov,false⟩
def dpgfdWritev (iov : List Iovec) : Io := ⟨.out,.iov iov,false⟩
def dpsktRecv (buf : ℕ) (len : ℤ) (peek : Bool) : Io := ⟨.inp,.buf buf len,peek⟩
def dpsktRecv2 (buf : ℕ) (len : ℤ) : Io := ⟨.inp,.buf buf len,false⟩
def dpsktSend (buf : ℕ) (len : ℤ) : Io := ⟨.out,.buf buf len,false⟩
def dpsktSend2 (buf : ℕ) (len : ℤ) : Io := ⟨.out,.buf buf len,false⟩
def dpsktRecvmsg (iov : List Iovec) (peek : Bool) : Io := ⟨.inp,.msg iov,peek⟩
def dpsktSendmsg (iov : List Iovec) : Io := ⟨.out,.msg iov,false⟩

/-- The local variables of a post function: `iov` is iov_p or msg_work.msg_iov. -/
structure Loop where
  total : ℤ := 0
  iov : List Iovec

def Io.iov (o : Io) : List Iovec :=
  match o.arg with
  | .buf base len => [⟨base,len.toNat⟩]
  | .iov iov | .msg iov => iov

/-- The prep functions. -/
def Io.prep (o : Io) : Dpret :=
  match o.arg with
  | .buf base len => if base=0 ∨ len≤0 then dpeInval else dpeContinue
  | .iov iov | .msg iov => if int32 (dpiocIovTotal iov)=0 then dpeInval else dpeContinue

/-- The segments of the next call. -/
def Io.request (o : Io) (m : Loop) : List Iovec :=
  match o.arg with
  | .buf base len => [⟨base+m.total.toNat,(len-m.total).toNat⟩]
  | .iov _ | .msg _ => m.iov

def Io.loop (o : Io) : Evts → ℤ → Call → ℤ × Option PostRet :=
  match o.arg with
  | .buf _ len => dpaioBufPost len
  | .iov iov => dpaioIovPost (int32 (dpiocIovTotal iov))
  | .msg iov => dpaioMsgPost (int32 (dpiocIovTotal iov))

/-- The post functions of all of them. -/
def ioPost : Post Io Loop Call where
  enter o := ⟨0,o.iov⟩
  turn want o m c :=
    match o.loop want m.total c with
    | (_,some p) => .ret o p
    | (total,none) => .call o ⟨total,dpiocIovAdvance m.iov c.res.toNat⟩

/-! ### The stream -/

/-- An operation that is over: what it has returned, and what its calls have stored where. -/
structure Done (α : Type*) where
  op : Io
  ret : Dpret
  stored : List (ℕ × α)

/-- `input` is what the fd holds for the reader; `taken` is what calls have consumed so far, `stored` what the
calls of the running operation have stored. -/
structure Stream (α : Type*) where
  fd : Fd Io Loop := {}
  input : List α := []
  taken : List α := []
  stored : List (ℕ × α) := []
  done : List (Done α) := []

inductive Act (α : Type*)
  | arrive (x : List α)
  | add (o : Io)
  | call (c : Call)
  | feed (evs : Evts)
  | stop (r : Dpret)

variable {α : Type*}

def Stream.settle (s : Stream α) (o : Io) (x : Fd Io Loop × Option Dpret) : Stream α :=
  match x.2 with
  | none => {s with fd := x.1}
  | some r => {s with fd := x.1, stored := [], done := s.done++[⟨o,r,s.stored⟩]}

/-- The kernel moves the bytes of a call that reads. -/
def Stream.move (s : Stream α) (o : Io) (m : Loop) (n : ℕ) : Stream α :=
  if o.dir=.inp then
    {s with
      input := if o.peek then s.input else s.input.drop n
      taken := if o.peek then s.taken else s.taken++s.input.take n
      stored := s.stored++((locs (o.request m)).take n).zip (s.input.take n)}
  else s

/-- What the kernel answers: no more than has been asked for and is there. -/
def answers (s : Stream α) (o : Io) (m : Loop) (c : Call) : Prop :=
  c.res≤(locs (o.request m)).length ∧ (o.dir=.inp → c.res≤ s.input.length) ∧ (c.res<0 → 0<c.errno)

instance (s : Stream α) (o : Io) (m : Loop) (c : Call) : Decidable (answers s o m c) :=
  inferInstanceAs (Decidable (_ ∧ _ ∧ _))

def step (s : Stream α) : Act α → Option (Stream α)
  | .arrive x => some {s with input := s.input++x}
  | .add o =>
      match s.fd.pend with
      | none =>
          if o.prep=dpeContinue then some (s.settle o (s.fd.add ioPost o ⟨{o.dir.evt},∅⟩))
          else some (s.settle o (s.fd,some o.prep))
      -- dpevp_addv refuses
      | some _ => some s
  | .call c =>
      match s.fd.pend with
      | some ⟨o,some m⟩ =>
          if answers s o m c then
            some ((s.move o m c.res.toNat).settle o (s.fd.next ioPost (ioPost.turn s.fd.efd.want o m c)))
          else none
      | _ => none
  | .feed evs =>
      match s.fd.pend with
      | none => (s.fd.feed ioPost evs).map fun x => {s with fd := x.1}
      | some ⟨o,_⟩ => (s.fd.feed ioPost evs).map (s.settle o)
  | .stop r =>
      match s.fd.pend with
      | some ⟨o,none⟩ => if r≤0 ∧ r≠dpeWait then some (s.settle o (s.fd.stop,some r)) else none
      | _ => none

/-! ### Conservation -/

/-- The bytes that an operation has told its caller of. -/
def Done.reported (d : Done α) : List α := if d.op.dir=.inp then (d.stored.take d.ret.toNat).map Prod.snd else []

def AioArg.isMsg : AioArg → Bool
  | .msg _ => true
  | .buf .. | .iov _ => false

/-- `P` holds of the post function that runs. -/
def running (P : Io → Loop → Prop) : Option (Pend Io Loop) → Prop
  | some ⟨o,some m⟩ => P o m
  | some ⟨_,none⟩ | none => True

instance (P : Io → Loop → Prop) [∀ o m,Decidable (P o m)] : (pend : Option (Pend Io Loop)) → Decidable (running P pend)
  | some ⟨o,some m⟩ => inferInstanceAs (Decidable (P o m))
  | some ⟨_,none⟩ | none => .isTrue trivial

/-- No call returns 0 once calls of the same operation have got bytes, unless it is a recvmsg, an operation moves
less than 2^31 bytes, and no recv asks for MSG_PEEK. -/
def whole (s : Stream α) : Act α → Prop
  | .add o => o.peek=false
  | .call c => running (fun o m => o.dir=.inp → (c.res=0 → m.total=0 ∨ o.arg.isMsg=true) ∧ m.total+c.res<2^31) s.fd.pend
  | .arrive _ | .feed _ | .stop _ => True

/-- The post function that runs has stored the bytes of its calls one after the other. -/
structure Stores (s : Stream α) (o : Io) (m : Loop) : Prop where
  total : m.total=s.stored.length
  rest : locs m.iov=(locs o.iov).drop s.stored.length

structure Books (s : Stream α) : Prop where
  taken : s.taken=s.done.flatMap Done.reported++s.stored.map Prod.snd
  reads : ∀ d∈s.done,d.op.dir=.inp →
    d.stored.length=d.ret.toNat ∧ d.stored.map Prod.fst=(locs d.op.iov).take d.stored.length
  writes : ∀ d∈s.done,d.op.dir≠.inp → d.stored=[]

/-- What the calls of `o` have stored. -/
structure Held (s : Stream α) (o : Io) : Prop where
  peek : o.peek=false
  front : s.stored.map Prod.fst=(locs o.iov).take s.stored.length
  out : o.dir≠.inp → s.stored=[]

structure Inv (s : Stream α) : Prop extends Books s where
  idle : s.fd.pend=none → s.stored=[]
  held : ∀ x,s.fd.pend=some x → Held s x.data
  waits : ∀ o,s.fd.pend=some ⟨o,none⟩ → s.stored=[]
  runs : ∀ o m,s.fd.pend=some ⟨o,some m⟩ → o.dir=.inp → Stores s o m

section Steps
variable {s s' : Stream α} {o : Io} {m : Loop} {c : Call} {want : Evts} {x : Efd × Turn}

theorem int32_eq {y : ℤ} (h : 0≤y) (h' : y<2^31) : int32 y=y := by
  unfold int32
  rw [Int.bmod_eq_of_le] <;> omega

theorem total_small {iov : List Iovec} (h : (locs iov).length<2^31) : int32 (dpiocIovTotal iov)=((locs iov).length : ℤ) := by
  have hmod : dpiocIovTotal iov=(locs iov).length := by
    rw [length_locs_sum] at h ⊢
    unfold dpiocIovTotal
    omega
  rw [hmod]
  exact int32_eq (by omega) (by omega)

theorem locs_request (h : Stores s o m) : locs (o.request m)=(locs o.iov).drop s.stored.length := by
  obtain ⟨dir,arg,peek⟩ := o
  cases arg with
  | buf base len =>
    simp only [Io.request,Io.iov,h.total,locs,Iovec.locs,List.flatMap_cons,List.flatMap_nil,List.append_nil,
      List.drop_range']
    congr 1
    · omega
    · omega
  | iov iov => exact h.rest
  | msg iov => exact h.rest

/-- A turn of the loop goes on, or returns how many bytes the calls have got. -/
theorem loopTurn_cases {n : ℕ} (full : ℤ) (eof : ℤ → Dpret) (herr : c.res<0 → 0<c.errno) (hsmall : n+c.res<2^31)
    (heof : c.res=0 → (eof n).toNat=n) :
    loopTurn full eof want n c=(((n+c.res.toNat : ℕ) : ℤ),none) ∨
      ∃ t p,loopTurn full eof want n c=(t,some p) ∧ p.ret.toNat=n+c.res.toNat := by
  unfold loopTurn
  split
  · rename_i hpos
    have hsum : n+c.res=((n+c.res.toNat : ℕ) : ℤ) := by omega
    rw [int32_eq (by omega) hsmall,hsum]
    split
    · exact .inr ⟨_,_,rfl,Int.toNat_natCast _⟩
    · exact .inl rfl
  · split
    · rename_i hz
      refine .inr ⟨_,_,rfl,?_⟩
      rw [heof hz,hz]
      rfl
    · rename_i hneg hz
      have := herr (by omega)
      refine .inr ⟨_,_,rfl,?_⟩
      simp only
      split <;> omega

theorem turn_cases {n : ℕ} (hm : m.total=n) (herr : c.res<0 → 0<c.errno) (hsmall : m.total+c.res<2^31)
    (heof : c.res=0 → m.total=0 ∨ o.arg.isMsg=true) :
    (ioPost.turn want o m c=.call o ⟨(n+c.res.toNat : ℕ),dpiocIovAdvance m.iov c.res.toNat⟩) ∨
      ∃ p,ioPost.turn want o m c=.ret o p ∧ p.ret.toNat=n+c.res.toNat := by
  rw [hm] at hsmall heof
  have heof' : o.arg.isMsg=false → c.res=0 → dpeEof.toNat=n := by
    intro hmsg hz
    rcases heof hz with h0 | h0
    · rw [show n=0 by omega]
      rfl
    · rw [hmsg] at h0
      cases h0
  have hturn : o.loop want n c=(((n+c.res.toNat : ℕ) : ℤ),none) ∨
      ∃ t p,o.loop want n c=(t,some p) ∧ p.ret.toNat=n+c.res.toNat := by
    obtain ⟨dir,arg,peek⟩ := o
    cases arg with
    | buf base len => exact loopTurn_cases len (fun _ => dpeEof) herr hsmall (heof' rfl)
    | iov iov => exact loopTurn_cases (int32 (dpiocIovTotal iov)) (fun _ => dpeEof) herr hsmall (heof' rfl)
    | msg iov =>
      refine loopTurn_cases (int32 (dpiocIovTotal iov)) (fun t => if 0<t then t else dpeEof) herr hsmall fun _ => ?_
      split
      · exact Int.toNat_natCast n
      · rename_i h0
        rw [show n=0 by omega]
        rfl
  rcases hturn with h | ⟨t,p,h,hp⟩
  · exact .inl (by simp only [ioPost,hm,h])
  · exact .inr ⟨p,by simp only [ioPost,hm,h],hp⟩

theorem posted_post {f : Efd} {p : PostRet} (h : (dpefdPosted f p).2=.post) : p.ret=dpeWait := by
  unfold dpefdPosted at h
  split at h
  · assumption
  · cases h

theorem books_settle (hb : Books s) (hh : Held s o) {f : Fd Io Loop} {r : Dpret}
    (hr : o.dir=.inp → s.stored.length=r.toNat) : Books (s.settle o (f,some r)) where
  taken := by
    have hrep : Done.reported ⟨o,r,s.stored⟩=s.stored.map Prod.snd := by
      unfold Done.reported
      split
      · rename_i hdir
        rw [← hr hdir,List.take_length]
      · rename_i hdir
        rw [hh.out hdir]
        rfl
    refine hb.taken.trans ?_
    simp [Stream.settle,hrep]
  reads d hd hdir := by
    rcases List.mem_append.mp hd with hd | hd
    · exact hb.reads d hd hdir
    · cases List.mem_singleton.mp hd
      exact ⟨hr hdir,hh.front⟩
  writes d hd hdir := by
    rcases List.mem_append.mp hd with hd | hd
    · exact hb.writes d hd hdir
    · cases List.mem_singleton.mp hd
      exact hh.out hdir

/-- The wake loop goes on with an operation: one that ends has reported what its calls have got, and the loop only
waits or calls the post function again where they have got nothing. -/
theorem inv_turned (hb : Books s) (hh : Held s o) (hend : ∀ r,x.2=.ret r → r≠dpeWait → o.dir=.inp → s.stored.length=r.toNat)
    (hgo : x.2=.post ∨ x.2=.ret dpeWait → s.stored=[]) : Inv (s.settle o (turned ioPost o x)) := by
  rcases turned_cases ioPost o x with ⟨hx,ht⟩ | ⟨hx,ht⟩ | ⟨r,hx,hr,ht⟩
  · have hnil := hgo (.inr hx)
    rw [ht]
    refine ⟨⟨hb.taken,hb.reads,hb.writes⟩,fun _ => hnil,fun y hy => ?_,fun _ _ => hnil,fun _ _ hp => (by cases hp)⟩
    cases hy
    exact ⟨hh.peek,hh.front,hh.out⟩
  · have hnil := hgo (.inl hx)
    rw [ht]
    refine ⟨⟨hb.taken,hb.reads,hb.writes⟩,fun _ => hnil,fun y hy => ?_,fun _ _ => hnil,fun o' m hp _ => ?_⟩
    · cases hy
      exact ⟨hh.peek,hh.front,hh.out⟩
    · cases hp
      constructor
      · change (0 : ℤ)=s.stored.length
        rw [hnil]
        rfl
      · change locs o.iov=(locs o.iov).drop s.stored.length
        rw [hnil]
        rfl
  · rw [ht]
    exact ⟨books_settle hb hh (hend r hx hr),fun _ => rfl,fun _ hp => (by cases hp),fun _ hp => (by cases hp),
      fun _ _ hp => (by cases hp)⟩

theorem inv_next {x : Next Io Loop} (hb : Books s) (hh : Held s o)
    (hx : (∃ m,x=.call o m ∧ (o.dir=.inp → Stores s o m)) ∨
      ∃ p,x=.ret o p ∧ (o.dir=.inp → s.stored.length=p.ret.toNat)) : Inv (s.settle o (s.fd.next ioPost x)) := by
  rcases hx with ⟨m,rfl,hm⟩ | ⟨p,rfl,hp⟩
  · refine ⟨⟨hb.taken,hb.reads,hb.writes⟩,fun hn => (by cases hn),fun y hy => ?_,fun _ hp => (by cases hp),fun o' m' hp hdir => ?_⟩
    · cases hy
      exact ⟨hh.peek,hh.front,hh.out⟩
    · cases hp
      exact ⟨(hm hdir).total,(hm hdir).rest⟩
  · have hnil : p.ret=dpeWait → s.stored=[] := by
      intro hwait
      by_cases hdir : o.dir=.inp
      · exact List.length_eq_zero_iff.mp ((hp hdir).trans (by rw [hwait]; rfl))
      · exact hh.out hdir
    refine inv_turned hb hh (fun r hr _ hdir => ?_) fun hgo => hnil ?_
    · rw [(dpefdPosted_ret hr).1]
      exact hp hdir
    · rcases hgo with hgo | hgo
      · exact posted_post hgo
      · exact (dpefdPosted_ret hgo).1.symm

theorem turn_data (want : Evts) (o : Io) (m : Loop) (c : Call) :
    (∃ m',ioPost.turn want o m c=.call o m') ∨ ∃ p,ioPost.turn want o m c=.ret o p := by
  simp only [ioPost]
  split
  · exact .inr ⟨_,rfl⟩
  · exact .inl ⟨_,rfl⟩

theorem inv_call (h : Inv s) (hok : whole s (.call c)) (hu : step s (.call c)=some s') : Inv s' := by
  simp only [step] at hu
  split at hu
  · rename_i o m hpend
    split at hu
    · rename_i hans
      cases hu
      obtain ⟨hreq,hin,herr⟩ := hans
      have hh : Held s o := h.held _ hpend
      by_cases hdir : o.dir=.inp
      · obtain ⟨heof,hsmall⟩ := (by simpa only [whole,running,hpend] using hok :
          o.dir=.inp → (c.res=0 → m.total=0 ∨ o.arg.isMsg=true) ∧ m.total+c.res<2^31) hdir
        have hs : Stores s o m := h.runs o m hpend hdir
        have hlreq : c.res.toNat≤(locs (o.request m)).length := by omega
        have hlin : c.res.toNat≤ s.input.length := by have := hin hdir; omega
        have hlen : ((locs (o.request m)).take c.res.toNat).length=(s.input.take c.res.toNat).length := by
          rw [List.length_take,List.length_take]
          omega
        have hmove : s.move o m c.res.toNat={s with
            input := s.input.drop c.res.toNat, taken := s.taken++s.input.take c.res.toNat,
            stored := s.stored++((locs (o.request m)).take c.res.toNat).zip (s.input.take c.res.toNat)} := by
          simp [Stream.move,hdir,hh.peek]
        have hstored : (s.move o m c.res.toNat).stored.length=s.stored.length+c.res.toNat := by
          rw [hmove]
          simp only [List.length_append,List.length_zip,List.length_take]
          omega
        have hfd : s.fd=(s.move o m c.res.toNat).fd := by rw [hmove]
        rw [hfd]
        refine inv_next ?_ ?_ ?_
        · rw [hmove]
          refine ⟨?_,h.reads,h.writes⟩
          simp only
          rw [List.map_append,List.map_snd_zip hlen.ge,h.taken,List.append_assoc]
        · refine ⟨hh.peek,?_,fun hno => (hno hdir).elim⟩
          rw [hstored,hmove]
          simp only
          rw [List.map_append,List.map_fst_zip hlen.le,hh.front,locs_request hs,List.take_add]
        · rcases turn_cases hs.total herr hsmall heof with hturn | ⟨p,hturn,hp⟩
          · refine .inl ⟨_,hturn,fun _ => ⟨?_,?_⟩⟩
            · rw [hstored]
            · rw [hstored,locs_advance,hs.rest,List.drop_drop]
          · exact .inr ⟨p,hturn,fun _ => by rw [hstored,hp]⟩
      · have hmove : s.move o m c.res.toNat=s := by simp [Stream.move,hdir]
        rw [hmove]
        refine inv_next h.toBooks hh ?_
        rcases turn_data s.fd.efd.want o m c with ⟨m',hturn⟩ | ⟨p,hturn⟩
        · exact .inl ⟨m',hturn,fun hd => (hdir hd).elim⟩
        · exact .inr ⟨p,hturn,fun hd => (hdir hd).elim⟩
    · cases hu
  · cases hu

/-- Where the wake loop starts, nothing has been stored. -/
theorem inv_wake (hb : Books s) (hnil : s.stored=[]) (hpeek : o.peek=false) (f : Efd) (q : AscOut) :
    Inv (s.settle o (turned ioPost o (dpefdWake f q))) := by
  refine inv_turned hb ⟨hpeek,by rw [hnil]; rfl,fun _ => hnil⟩ (fun r hr hne _ => ?_) fun _ => hnil
  have herr : dpretIserr r := ((dpefdWake_ret hr).2 hne).2.1
  rw [hnil]
  exact (Int.toNat_of_nonpos (le_of_lt herr)).symm

theorem inv_feed {evs : Evts} (h : Inv s) (hu : step s (.feed evs)=some s') : Inv s' := by
  simp only [step] at hu
  split at hu
  · rename_i hpend
    obtain ⟨y,hy,rfl⟩ := Option.map_eq_some_iff.mp hu
    rcases feed_cases hy with ⟨-,rfl⟩ | ⟨d,hd,-⟩
    · exact ⟨⟨h.taken,h.reads,h.writes⟩,fun _ => h.idle hpend,fun _ hp => (by cases hp),fun _ hp => (by cases hp),
        fun _ _ hp => (by cases hp)⟩
    · rw [hpend] at hd
      cases hd
  · rename_i o run hpend
    obtain ⟨y,hy,rfl⟩ := Option.map_eq_some_iff.mp hu
    rcases feed_cases hy with ⟨hno,-⟩ | ⟨d,hd,hcase⟩
    · rw [hpend] at hno
      cases hno
    · have hod : (⟨o,run⟩ : Pend Io Loop)=⟨d,none⟩ := Option.some.inj (hpend.symm.trans hd)
      cases hod
      have hnil := h.waits o hpend
      have hh := h.held _ hpend
      rcases hcase with rfl | rfl
      · refine ⟨⟨h.taken,h.reads,h.writes⟩,fun hn => (by cases hn),fun y hy => ?_,fun _ _ => hnil,fun _ _ hp => (by cases hp)⟩
        cases hy
        exact ⟨hh.peek,hh.front,hh.out⟩
      · exact inv_wake h.toBooks hnil hh.peek _ _

theorem step_inv (a : Act α) (h : Inv s) (hok : whole s a) (hu : step s a=some s') : Inv s' := by
  cases a with
  | arrive x =>
    cases hu
    exact ⟨⟨h.taken,h.reads,h.writes⟩,h.idle,fun y hy => ⟨(h.held y hy).peek,(h.held y hy).front,(h.held y hy).out⟩,h.waits,
      fun o m hp hd => ⟨(h.runs o m hp hd).total,(h.runs o m hp hd).rest⟩⟩
  | add o =>
    simp only [step] at hu
    split at hu
    · rename_i hpend
      have hnil := h.idle hpend
      split at hu
      · cases hu
        exact inv_wake h.toBooks hnil hok _ _
      · cases hu
        have hprep : o.prep≤0 := by
          unfold Io.prep
          split <;> split <;> decide
        have hh : Held s o := ⟨hok,by rw [hnil]; rfl,fun _ => hnil⟩
        have hb := books_settle (f := s.fd) h.toBooks hh fun _ => by rw [hnil,Int.toNat_of_nonpos hprep]; rfl
        have hnone : ∀ y,s.fd.pend≠some y := fun y hy => by rw [hpend] at hy; cases hy
        exact ⟨hb,fun _ => rfl,fun y hy => (hnone y hy).elim,fun _ hp => (hnone _ hp).elim,fun _ _ hp => (hnone _ hp).elim⟩
    · cases hu
      exact h
  | call c => exact inv_call h hok hu
  | feed evs => exact inv_feed h hu
  | stop r =>
    simp only [step] at hu
    split at hu
    · rename_i o hpend
      split at hu
      · rename_i hr
        cases hu
        have hnil := h.waits o hpend
        refine ⟨books_settle h.toBooks (h.held _ hpend) fun _ => ?_,fun _ => rfl,fun _ hp => (by cases hp),
          fun _ hp => (by cases hp),fun _ _ hp => (by cases hp)⟩
        rw [hnil,Int.toNat_of_nonpos hr.1]
        rfl
      · cases hu
    · cases hu

/-- Where no post function runs, the bytes the operations have reported are those the calls have taken, and a read
has reported all the bytes its calls have stored at the front of its segments. -/
structure Conserved (s : Stream α) : Prop where
  bytes : (∀ o m,s.fd.pend≠some ⟨o,some m⟩) → s.taken=s.done.flatMap Done.reported
  counts : ∀ d∈s.done,d.op.dir=.inp → d.stored.length=d.ret.toNat
  places : ∀ d∈s.done,d.op.dir=.inp → d.stored.map Prod.fst=(locs d.op.iov).take d.stored.length

theorem inv_start : Inv ({} : Stream α) :=
  ⟨⟨rfl,fun _ hd => (by cases hd),fun _ hd => (by cases hd)⟩,fun _ => rfl,fun _ hp => (by cases hp),fun _ _ => rfl,
    fun _ _ hp => (by cases hp)⟩

theorem stream_conserved (h : Reach step whole {} s) : Conserved s := by
  have hinv : Inv s := h.invariant inv_start fun _ a _ hi hok hu => step_inv a hi hok hu
  refine ⟨fun hrun => ?_,fun d hd hdir => (hinv.reads d hd hdir).1,fun d hd hdir => (hinv.reads d hd hdir).2⟩
  have hnil : s.stored=[] := by
    cases hpend : s.fd.pend with
    | none => exact hinv.idle hpend
    | some x =>
      obtain ⟨o,run⟩ := x
      cases run with
      | none => exact hinv.waits o hpend
      | some m => exact (hrun o m hpend).elim
  rw [hinv.taken,hnil]
  exact List.append_nil _

end Steps

instance (s : Stream α) : (a : Act α) → Decidable (whole s a)
  | .add o => inferInstanceAs (Decidable (o.peek=false))
  | .call _ => inferInstanceAs (Decidable (running _ _))
  | .arrive _ | .feed _ | .stop _ => .isTrue trivial

/-- A read gets five bytes in two calls and a recvmsg two more before the end of the stream. -/
def drained : List (Act ℕ) :=
  [.arrive [1,2,3],.add (dpgfdRead 100 8),.feed {.inp},.call ⟨3,0⟩,.arrive [4,5],.call ⟨2,0⟩,.call ⟨-1,11⟩,
    .arrive [6,7],.add (dpsktRecvmsg [⟨200,1⟩,⟨300,4⟩] false),.feed {.inp},.call ⟨2,0⟩,.call ⟨0,0⟩]

theorem stream_conserved_drained : ∃ s : Stream ℕ,s.done.map (·.ret)=[5,2] ∧ s.taken=[1,2,3,4,5,6,7] ∧ Conserved s := by
  have hrun : ((execOk step whole {} drained).any fun s =>
      decide (s.done.map (·.ret)=[5,2]) && decide (s.taken=[1,2,3,4,5,6,7]))=true := by decide +kernel
  obtain ⟨s,hs,hf⟩ := (Option.any_eq_true _ _).mp hrun
  obtain ⟨hret,htaken⟩ := Bool.and_eq_true_iff.mp hf
  exact ⟨s,of_decide_eq_true hret,of_decide_eq_true htaken,stream_conserved (execOk_reach hs)⟩

/-- Three bytes and the end of the stream arrive before a read of eight bytes. -/
def truncated : List (Act ℕ) :=
  [.arrive [1,2,3],.add (dpgfdRead 100 8),.feed {.inp},.call ⟨3,0⟩,.call ⟨0,0⟩]

/-- The read returns DPE_EOF and the bytes are gone. -/
theorem stream_loses : ¬∀ s : Stream ℕ,Reach step anyStep {} s → Conserved s := by
  intro hall
  have hrun : ((exec step {} truncated).any fun s =>
      s.fd.pend.isNone && decide (s.taken=[1,2,3]) && decide (s.done.flatMap Done.reported=[]))=true := by decide +kernel
  obtain ⟨s,hs,hf⟩ := (Option.any_eq_true _ _).mp hrun
  obtain ⟨hf,hrep⟩ := Bool.and_eq_true_iff.mp hf
  obtain ⟨hnone,htaken⟩ := Bool.and_eq_true_iff.mp hf
  have hbytes := (hall s (exec_reach hs)).bytes fun o m hp => by rw [hp] at hnone; cases hnone
  rw [of_decide_eq_true htaken,of_decide_eq_true hrep] at hbytes
  cases hbytes

end Dpapp.StreamIo
