import Dpapp.AioReadUntil
import Dpapp.EfdReady

/-! # The wake loop (os/linux/dpevp_epoll.c, os/linux/dpasc_epoll.c, dpasc.c, dpssl.c)

One element: the operations that it is given, the events that it is fed, and how often `_dpefd_wake` calls a post function
before it returns. -/

set_option linter.unusedSectionVars false

namespace Dpapp.WakeLoop
open Dpapp.Machine Dpapp.Ret Dpapp.EfdWake Dpapp.EfdIo
open Dpapp.StreamIo (Call Dir Io Loop Iovec ioPost locs int32 dpiocIovTotal dpiocIovAdvance loopTurn)
open Dpapp.EfdReady (Op Ans Aio prep turn post begun)
open Dpapp.SslQueue (Asc Seen asks postErr)
open Dpapp.Dpbuf (Byte CInt)
open Dpapp.AioWrite (Mem)
open Dpapp.ReadMust (Stm)

variable {σ : Type*}

/-! ### The dpaio operations -/

/-- dpaio_read_must, over `_dpaio_buf_post`. -/
def dpaioReadMust : AioOp.Op Byte (Mem σ) CInt Stm Dpbuf.Mem where
  prep e len mem := (ReadMust.readMustPrep mem.1 mem.2 len e).map fun x => ((x.1,x.2.1),x.2.2)
  ioLen := Stm.ioLen
  move mem stm := AioRead.takeIn mem stm.pos
  post _ mem stm ret := (ReadMust.readMustPost mem.1 mem.2 stm ret).map fun x => ((x.1,x.2.1),x.2.2)

inductive Kind | readSome | writeSome | readMust | writeMust
  deriving DecidableEq

/-- The `_dpaio_stm_t` of a dpaio operation and what it works on. -/
inductive Aios (σ : Type*)
  | buf (kind : Kind) (mem : Mem σ) (stm : Stm)
  | data (dir : Dir) (mem : List Byte) (stm : Stm)
  | readUntil (mem : Mem σ) (stm : AioReadUntil.Stm)

def Aios.dir : Aios σ → Dir
  | .buf .readSome .. | .buf .readMust .. | .readUntil .. => .inp
  | .buf .writeSome .. | .buf .writeMust .. => .out
  | .data dir .. => dir

/-- io.len -/
def Aios.len : Aios σ → ℤ
  | .buf _ _ stm | .data _ _ stm => stm.ioLen
  | .readUntil _ stm => stm.ioLen

/-- One of them after `sub->post`, which has moved these bytes. -/
def after {β ω τ ε : Type*} (op : AioOp.Op Byte β ω τ ε) (mk : β → τ → Aios σ) (x : List Byte) (e : ε) (mem : β) (stm : τ)
    (r : Dpret) : Aios σ × Dpret :=
  let y := (Aio.ofOp op true).post (x,e) (mem,stm) r
  (mk y.1.1 y.1.2,y.2)

def aiosPost (x : List Byte × Dpbuf.Mem) : Aios σ → Dpret → Aios σ × Dpret
  | .buf .readSome mem stm,r => after AioRead.dpaioReadSome (.buf .readSome) x.1 x.2 mem stm r
  | .buf .writeSome mem stm,r => after AioWrite.dpaioWriteSome (.buf .writeSome) x.1 () mem stm r
  | .buf .readMust mem stm,r => after dpaioReadMust (.buf .readMust) x.1 x.2 mem stm r
  | .buf .writeMust mem stm,r => after AioWrite.dpaioWriteMust (.buf .writeMust) x.1 () mem stm r
  | .data dir mem stm,r => after (AioData.dataOp dir) (.data dir) x.1 () mem stm r
  | .readUntil mem stm,r => after AioReadUntil.dpaioReadUntil .readUntil x.1 x.2 mem stm r

/-- All of them, past their prep functions; only dpaio_read_some leaves want_events as it is. -/
def dpaio : Aio (Aios σ) (List Byte × Dpbuf.Mem) where
  prep _ := dpeContinue
  len := Aios.len
  post := aiosPost
  again
    | .buf .readSome .. => false
    | .buf .. | .data .. | .readUntil .. => true

/-- What the prep functions have found of the length with which dpaio_write_some compares its total. -/
def Aios.checked : Aios σ → Prop
  | .buf .writeSome _ stm => 0<stm.len
  | .buf .readSome .. | .buf .readMust .. | .buf .writeMust .. | .data .. | .readUntil .. => True

instance (t : Aios σ) : Decidable t.checked := by
  unfold Aios.checked
  split <;> infer_instance

def given : Op (Aios σ) → Prop
  | .aio dir _ t => dir=t.dir ∧ t.checked
  | .io _ | .accept | .pipe _ | .connect _ | .poll _ | .ssl _ => True

instance (op : Op (Aios σ)) : Decidable (given op) := by
  unfold given
  split <;> infer_instance

/-! ### The kernel -/

/-- MSG_PEEK -/
def msgPeek (flag : ℤ) : Bool := (BitVec.ofInt 32 flag).getLsbD 1

/-- io.flag goes to recv: there it is what the caller has given, or how much dpaio_read_until has searched. -/
def Aios.peeks : Aios σ → Bool
  | .readUntil _ stm => msgPeek stm.flag
  | .buf .. | .data .. => false

/-- The bytes that a call takes from the file or from its room; `skt` tells whether it is a socket. -/
def takes (skt : Bool) : Op (Aios σ) → Ans → ℕ
  | .io o,.call c => if o.peek=true then 0 else c.res.toNat
  | .aio _ false t,.call c => if skt=true ∧ t.peeks=true then 0 else c.res.toNat
  | .pipe _,.pipe c _ => c.res.toNat
  | .ssl (.recv ..),.ssl a | .ssl (.send ..),.ssl a | .aio _ true _,.ssl a => a.ret.toNat
  | _,_ => 0

/-- How much the segments of a recv or recvmsg with MSG_PEEK still have room for. -/
def room : Op (Aios σ) → Loop → ℕ
  | .io o,m => if o.peek=true then (locs m.iov).length else 0
  | .accept,_ | .pipe _,_ | .connect _,_ | .poll _,_ | .ssl _,_ | .aio ..,_ => 0

/-- The kernel gives no more than there is, and what it lets see fits into the segments. -/
def answers (skt : Bool) (left : ℕ) (op : Op (Aios σ)) (m : Loop) (a : Ans) : Prop :=
  takes skt op a≤ left ∧
  match op,a with
  | .io o,.call c => o.peek=true → c.res≤ room op m
  | _,_ => True

instance (skt : Bool) (left : ℕ) (op : Op (Aios σ)) (m : Loop) (a : Ans) : Decidable (answers skt left op m a) := by
  induction op using Op.casesOn <;> induction a using Ans.casesOn <;> (dsimp only [answers]; infer_instance)

/-! ### The loop -/

/-- A post function that has returned and is called again: what its calls have taken, and which events that the loop waits
for it has cleared. -/
structure Round where
  got : ℕ
  cleared : Evts

/- `left` is what the file has, or has room for, until it is found not ready. History: the rounds of the loop that runs or
has run last, what the post function that runs has taken, how many calls the loop has made, and what it began with. -/
structure Sys (σ : Type*) where
  fd : Fd (Op (Aios σ)) Loop := {}
  left : ℕ := 0
  rounds : List Round := []
  got : ℕ := 0
  calls : ℕ := 0
  budget : ℕ := 0
  room : ℕ := 0

def roomOf (fd : Fd (Op (Aios σ)) Loop) : ℕ :=
  match fd.pend with
  | some ⟨op,some m⟩ => WakeLoop.room op m
  | _ => 0

def runs (fd : Fd (Op (Aios σ)) Loop) : Bool :=
  match fd.pend with
  | some ⟨_,some _⟩ => true
  | _ => false

/-- `_dpefd_wake` is entered, and the file has `n` bytes. -/
def entered (fd : Fd (Op (Aios σ)) Loop) (n : ℕ) : Sys σ :=
  {fd := fd, left := n, budget := n+fd.efd.able.card, room := roomOf fd}

/-- After a call that has taken `k` bytes. -/
def Sys.next (s : Sys σ) (k : ℕ) (n : Next (Op (Aios σ)) Loop) : Sys σ :=
  let fd := (s.fd.next (post dpaio) n).1
  let cleared := s.fd.efd.able∩s.fd.efd.want
  let s := {s with fd := fd, left := s.left-k, got := s.got+k, calls := s.calls+1}
  match n with
  | .call .. => s
  | .ret _ p =>
      if runs fd=true then {s with rounds := s.rounds++[⟨s.got,cleared∩p.out.inva⟩], got := 0} else s

inductive Act (σ : Type*)
  | add (op : Op (Aios σ)) (a : Ans) (n : ℕ)
  | feed (evs : Evts) (n : ℕ)
  | call (a : Ans) (x : List Byte × Dpbuf.Mem)
  | stop

variable (skt : Bool) (types : BitVec 32)

def step (s : Sys σ) : Act σ → Option (Sys σ)
  | .add op a n =>
      -- dpevp_addv refuses
      if s.fd.pend.isSome=true then some s
      else if given op then (prep types dpaio op a).map fun p => entered (begun dpaio s.fd op p) n
      else none
  | .feed evs n =>
      (Fd.feed (post dpaio) ⟨s.fd.efd,s.fd.pend.map fun p => {p with data := p.data.kept}⟩ evs).map fun y => entered y.1 n
  | .call a x =>
      match s.fd.pend with
      | some ⟨op,some m⟩ =>
          if answers skt s.left op m a then (turn dpaio s.fd.efd.want op m a x).map (s.next (takes skt op a)) else none
      | _ => none
  | .stop =>
      match s.fd.pend with
      | some ⟨_,none⟩ => some {s with fd := s.fd.stop}
      | _ => none

/-- An element, with any events that it remembers. -/
def start (able : Evts) : Sys σ := {fd := {efd := ⟨able,∅⟩}}

/-! ### Rounds that bring nothing -/

/-- The total at which a post function is content. -/
def full (o : Io) : ℤ :=
  match o.arg with
  | .buf _ len => len
  | .iov iov | .msg iov => int32 (dpiocIovTotal iov)

/-- A session fails before anything has been moved, and errno has been left at EAGAIN. -/
def fails (asc : Asc) (m : Loop) (a : Seen) : Prop :=
  m.total≤0 ∧ asks asc a.ret=true ∧ a.err=.ssl ∧ a.eof=false ∧ a.errno=SktConnect.eagain

/-- A call after which a post function may return DPE_WAIT for nothing: of a session that fails so, or one that has looked
at bytes with MSG_PEEK, in dpaio_read_until or where the int of a total is DPE_WAIT. -/
def slip (op : Op (Aios σ)) (m : Loop) (a : Ans) : Prop :=
  match op,a with
  | .io o,.call c => o.peek=true ∧ full o=dpeWait ∧ 0<c.res
  | .aio _ false t,.call c => skt=true ∧ t.peeks=true ∧ 0<c.res
  | .ssl asc,.ssl a => fails asc m a
  | .aio dir true t,.ssl a => fails (dpaio.asc dir t) m a
  | _,_ => False

def sound (s : Sys σ) : Act σ → Prop
  | .call a _ =>
      match s.fd.pend with
      | some ⟨op,some m⟩ => ¬slip skt op m a
      | _ => True
  | .add .. | .feed .. | .stop => True

/-- Each round has taken a byte or cleared an event that the loop waits for, there are no more rounds than bytes and events,
the calls are bounded too, and a loop that leaves the operation waiting has no event that it waits for. -/
structure Ends (s : Sys σ) : Prop where
  progress : ∀ r∈s.rounds,0<r.got ∨ r.cleared.Nonempty
  rounds : s.rounds.length≤ s.budget
  calls : s.calls≤2*s.budget+s.room
  exits : ∀ op,s.fd.pend=some ⟨op,none⟩ → Disjoint s.fd.efd.able s.fd.efd.want

/-! ### The dpaio post functions -/

section Aios
variable {x : List Byte × Dpbuf.Mem} {t : Aios σ} {r : Dpret}

/-- Where `sub->post` has moved nothing, a post function returns its total or what `sub->post` has returned. -/
theorem after_small {β ω τ ε : Type*} {op : AioOp.Op Byte β ω τ ε} {mk : β → τ → Aios σ} {y : List Byte} {e : ε} {mem : β}
    {stm : τ} {total : ℤ} {c : Prop} [Decidable c]
    (hpost : ∀ mem,op.post e mem stm r=some (mem,stm,if c then total else r)) (hc : c → 0≤total)
    (h : (after op mk y e mem stm r).2=dpeWait) : r=dpeWait := by
  unfold after Aio.ofOp at h
  simp only at h
  split at h
  · rename_i mem' stm' r' hm
    obtain ⟨mem₁,-,hp⟩ := Option.bind_eq_some_iff.mp hm
    rw [hpost mem₁] at hp
    cases hp
    split at h
    · have hpos := hc ‹_›
      rw [show total=dpeWait from h] at hpos
      exact absurd hpos (by decide)
    · exact h
  · exact h

/-- It waits only if something has been moved or `sub->post` waits. -/
theorem aiosPost_waits (hc : t.checked) (h : (aiosPost x t r).2=dpeWait) : 0<r ∨ r=dpeWait := by
  by_cases hr : 0<r
  · exact .inl hr
  right
  have hle : r≤0 := not_lt.mp hr
  cases t with
  | buf kind mem stm =>
    cases kind with
    | readSome => exact after_small (fun mem => if_pos hle) (fun h => h.le) h
    | writeSome => exact after_small (fun mem => if_pos hle) (fun h => (show 0<stm.len from hc).le.trans h) h
    | readMust =>
      have hpost : ∀ mem' : Mem σ,dpaioReadMust.post x.2 mem' stm r=some (mem',stm,if 0<stm.total then stm.total else r) := by
        intro mem'
        simp only [dpaioReadMust,ReadMust.readMustPost,if_pos hle,Option.map_some]
      exact after_small hpost (fun h => h.le) h
    | writeMust => exact after_small (fun mem => if_pos hle) (fun h => h.le) h
  | data dir mem stm =>
    cases dir with
    | inp => exact after_small (fun mem => if_pos hle) (fun h => h.le) h
    | out => exact after_small (fun mem => if_pos hle) (fun h => h.le) h
  | readUntil mem stm => exact after_small (fun mem => if_pos hle) (fun h => h.le) h

theorem aiosPost_checked (hc : t.checked) : (aiosPost x t r).1.checked := by
  cases t with
  | buf kind mem stm =>
    cases kind with
    | writeSome =>
      have hlen : ∀ (mem' : Mem σ) y,AioWrite.writeSomePost () mem' stm r=some y → y.2.1.len=stm.len := by
        intro mem' y hy
        unfold AioWrite.writeSomePost at hy
        split at hy
        · cases hy
          rfl
        · obtain ⟨z,-,rfl⟩ := Option.map_eq_some_iff.mp hy
          split <;> rfl
      unfold aiosPost after Aio.ofOp
      simp only
      split
      · rename_i hm
        obtain ⟨mem₁,-,hp⟩ := Option.bind_eq_some_iff.mp hm
        exact lt_of_lt_of_eq (show 0<stm.len from hc) (hlen mem₁ _ hp).symm
      · exact hc
    | readSome | readMust | writeMust => trivial
  | data | readUntil => trivial

end Aios

/-! ### A turn of a post function -/

section Turns
variable {want : Evts} {op op' : Op (Aios σ)} {m m' : Loop} {a : Ans} {x : List Byte × Dpbuf.Mem} {p : PostRet}
  {n : Next (Op (Aios σ)) Loop}

/-- What the loop waits for, by the operation. -/
def Suits (want : Evts) : Op (Aios σ) → Prop
  | .io o => want⊆{o.dir.evt}
  | .aio dir false t => want⊆{dir.evt} ∧ t.checked
  | .aio _ true t => t.checked
  | .accept => want⊆{.inp}
  | .pipe _ => want⊆{.out}
  | .connect _ | .poll _ | .ssl _ => True

/-- A post function that returns DPE_WAIT so ends the loop. -/
def Clears (want : Evts) (o : AscOut) : Prop := o.want⊆o.inva ∧ (o.want=∅ → want⊆o.inva)

theorem clears_of {o : AscOut} (hout : o.want=want) (hinva : want⊆o.inva) : Clears want o :=
  ⟨hout ▸ hinva,fun _ => hinva⟩

theorem clears_posted {f : Efd} (hp : p.ret=dpeWait) (h : Clears f.want p.out) :
    (dpefdPosted f p).1.able∩(dpefdPosted f p).1.want=∅ := by
  unfold dpefdPosted
  rw [if_pos hp]
  refine Finset.disjoint_iff_inter_eq_empty.mp (Finset.disjoint_left.mpr fun e he hw => ?_)
  split at hw
  · exact (Finset.mem_sdiff.mp (by simpa [‹p.out.want.Nonempty›] using he)).2 (h.1 hw)
  · rename_i hno
    exact (Finset.mem_sdiff.mp (by simpa [hno] using he)).2 (h.2 (Finset.not_nonempty_iff_eq_empty.mp hno) hw)

/-- A turn of the loops of read and write: it has moved something, or it ends with what there was before. -/
theorem loopTurn_spec {content total : ℤ} {eof : ℤ → Dpret} {c : Call} :
    ((loopTurn content eof want total c).2=none ∧ 0<c.res) ∨
    ∃ p,(loopTurn content eof want total c).2=some p ∧ p.out.want=want ∧
      (0<c.res ∧ p.ret=content ∨ c.res≤0 ∧ p.out.inva=want ∧ (0<p.ret → 0<total ∨ 0<eof total)) := by
  unfold loopTurn
  split
  · rename_i hres
    split
    · rename_i hfull
      exact .inr ⟨_,rfl,rfl,.inl ⟨hres,hfull⟩⟩
    · exact .inl ⟨rfl,hres⟩
  · rename_i hres
    split
    · exact .inr ⟨_,rfl,rfl,.inr ⟨not_lt.mp hres,rfl,.inr⟩⟩
    · refine .inr ⟨_,rfl,rfl,.inr ⟨not_lt.mp hres,rfl,fun hpos => ?_⟩⟩
      simp only at hpos
      split at hpos
      · exact .inl ‹_›
      · have herr : (0 : ℤ)< -c.errno := hpos
        omega

theorem locs_goes {o : Io} {c : Call} (hres : 0<c.res) (hfit : o.peek=true → c.res≤(locs m.iov).length) (hp : o.peek=true) :
    (locs (dpiocIovAdvance m.iov c.res.toNat)).length<(locs m.iov).length := by
  have hle := hfit hp
  rw [StreamIo.locs_advance,List.length_drop]
  omega

theorem ioTurn_spec {o : Io} {c : Call} :
    (∃ total,ioPost.turn want o m c=.call o ⟨total,dpiocIovAdvance m.iov c.res.toNat⟩ ∧ 0<c.res) ∨
    ∃ p,ioPost.turn want o m c=.ret o p ∧ p.out.want=want ∧
      (0<c.res ∧ p.ret=full o ∨ c.res≤0 ∧ p.out.inva=want ∧ (0<p.ret → 0< m.total ∨ o.arg.isMsg=true)) := by
  have hloop : ((o.loop want m.total c).2=none ∧ 0<c.res) ∨ ∃ p,(o.loop want m.total c).2=some p ∧ p.out.want=want ∧
      (0<c.res ∧ p.ret=full o ∨ c.res≤0 ∧ p.out.inva=want ∧ (0<p.ret → 0< m.total ∨ o.arg.isMsg=true)) := by
    obtain ⟨dir,arg,peek⟩ := o
    have hend : ∀ {p : PostRet} {total : ℤ} {eof : Dpret},eof=dpeEof → (0<p.ret → 0<total ∨ 0<eof) → 0<p.ret → 0<total := by
      intro p total eof heof h hpos
      rcases h hpos with h | h
      · exact h
      · rw [heof] at h
        exact absurd h (by decide)
    cases arg with
    | buf base len =>
      rcases @loopTurn_spec want len m.total (fun _ => dpeEof) c with h | ⟨p,hp,hw,h | ⟨hres,hinva,h⟩⟩
      · exact .inl h
      · exact .inr ⟨p,hp,hw,.inl h⟩
      · exact .inr ⟨p,hp,hw,.inr ⟨hres,hinva,fun hpos => .inl (hend rfl h hpos)⟩⟩
    | iov iov =>
      rcases @loopTurn_spec want _ m.total (fun _ => dpeEof) c with h | ⟨p,hp,hw,h | ⟨hres,hinva,h⟩⟩
      · exact .inl h
      · exact .inr ⟨p,hp,hw,.inl h⟩
      · exact .inr ⟨p,hp,hw,.inr ⟨hres,hinva,fun hpos => .inl (hend rfl h hpos)⟩⟩
    | msg iov =>
      rcases @loopTurn_spec want _ m.total (fun t => if 0<t then t else dpeEof) c with h | ⟨p,hp,hw,h | ⟨hres,hinva,h⟩⟩
      · exact .inl h
      · exact .inr ⟨p,hp,hw,.inl h⟩
      · exact .inr ⟨p,hp,hw,.inr ⟨hres,hinva,fun _ => .inr rfl⟩⟩
  cases hl : o.loop want m.total c with
  | mk total r =>
    rw [hl] at hloop
    rcases hloop with ⟨hr,hres⟩ | ⟨p,hr,hp⟩
    · cases hr
      exact .inl ⟨total,by simp only [ioPost,hl],hres⟩
    · cases hr
      exact .inr ⟨p,by simp only [ioPost,hl],hp⟩

/-- An error of a session, where errno is another than EAGAIN. -/
theorem postErr_waits {asc : Asc} {s : Seen} (htotal : m.total≤0) (hask : asks asc s.ret=true) (hfail : ¬fails asc m s)
    (h : (postErr s).ret=dpeWait) : Clears want (postErr s).out := by
  unfold postErr at h ⊢
  cases hs : s.err with
  | ssl =>
    simp only [hs] at h
    split at h
    · exact absurd h (by decide)
    · rename_i heof
      split at h
      · refine absurd ⟨htotal,hask,hs,eq_false_of_ne_true heof,?_⟩ hfail
        have herr : -s.errno=-11 := h
        exact neg_injective herr
      · exact absurd h (by decide)
  | wantRead | wantWrite => exact ⟨subset_rfl,fun hno => absurd hno (Finset.singleton_ne_empty _)⟩
  | none | syscall | zeroReturn | other =>
    simp only [hs] at h
    exact absurd h (by decide)

/-- A turn of recv and send of a session. -/
theorem sslIo_spec {asc : Asc} {len : ℤ} {s : Seen} (hask : s.ret≤0 → asks asc s.ret=true) (hfail : ¬fails asc m s) :
    (∃ total,SslQueue.ioTurn asc len m.total s=.call asc total ∧ 0<s.ret) ∨
    ∃ p,SslQueue.ioTurn asc len m.total s=.ret asc p ∧
      ((0<p.ret → 0<s.ret ∨ 0< m.total ∨ 0<(postErr s).ret) ∧ (p.ret=dpeWait → 0<s.ret ∨ Clears want p.out)) := by
  unfold SslQueue.ioTurn
  split
  · rename_i hret
    split
    · exact .inr ⟨_,rfl,fun _ => .inl hret,fun _ => .inl hret⟩
    · exact .inl ⟨_,rfl,hret⟩
  · rename_i hret
    refine .inr ⟨_,rfl,fun hpos => ?_,fun hwait => .inr ?_⟩
    · simp only at hpos
      split at hpos
      · exact .inr (.inl ‹_›)
      · exact .inr (.inr hpos)
    · simp only at hwait
      split at hwait
      · rename_i htotal
        rw [hwait] at htotal
        exact absurd htotal (by decide)
      · exact postErr_waits (not_lt.mp ‹_›) (hask (not_lt.mp hret)) hfail hwait

theorem postErr_neg {s : Seen} : ¬0<(postErr s).ret := by
  unfold postErr
  cases s.err with
  | ssl =>
    simp only
    split
    · decide
    · split
      · rename_i herr
        exact not_lt.mpr (Int.neg_nonpos_of_nonneg herr.le)
      · decide
  | wantRead | wantWrite | none | syscall | zeroReturn | other => exact of_decide_eq_false rfl

/-- The total of a post function counts what has been taken. -/
def Counts (got : ℕ) : Op (Aios σ) → Loop → Prop
  | .ssl _,m | .aio ..,m => 0< m.total → 0<got
  | .io _,_ | .accept,_ | .pipe _,_ | .connect _,_ | .poll _,_ => True

/-- A post function that goes on has taken something, or looked at something that it had room for. -/
def Goes (skt : Bool) (want : Evts) (got : ℕ) (op : Op (Aios σ)) (m : Loop) (a : Ans) (n : Next (Op (Aios σ)) Loop) : Prop :=
  ∃ op' m',n=.call op' m' ∧ Suits want op' ∧ Counts (got+takes skt op a) op' m' ∧ room op' m'≤room op m ∧
    (0<takes skt op a ∨ room op' m'<room op m)

/-- One that returns DPE_WAIT has taken something, or it ends the loop. -/
def Rets (skt : Bool) (want : Evts) (got : ℕ) (op : Op (Aios σ)) (a : Ans) (n : Next (Op (Aios σ)) Loop) : Prop :=
  ∃ op' p,n=.ret op' p ∧ Suits want op' ∧ Suits p.out.want op' ∧
    (p.ret=dpeWait → 0<got+takes skt op a ∧ (∀ m',room op' m'=0) ∨ Clears want p.out)

variable {skt : Bool} {left got : ℕ}

theorem io_spec {o : Io} {c : Call} (hs : want⊆{o.dir.evt}) (hslip : ¬slip skt (.io o : Op (Aios σ)) m (.call c))
    (hans : answers skt left (.io o : Op (Aios σ)) m (.call c)) (ht : turn dpaio want (.io o) m (.call c) x=some n) :
    Goes skt want got (.io o) m (.call c) n ∨ Rets skt want got (.io o) (.call c) n := by
  cases ht
  have hfit : o.peek=true → c.res≤(locs m.iov).length := by
    intro hpeek
    have hle := hans.2 hpeek
    simp only [room,if_pos hpeek] at hle
    exact hle
  rcases @ioTurn_spec want m o c with ⟨total,ht,hres⟩ | ⟨p,ht,hwant,hp⟩
  · refine .inl ⟨.io o,_,by rw [ht],hs,trivial,?_,?_⟩
    · simp only [room]
      split
      · exact (locs_goes hres hfit ‹_›).le
      · exact le_refl 0
    · by_cases hpeek : o.peek=true
      · refine .inr ?_
        simp only [room,if_pos hpeek]
        exact locs_goes hres hfit hpeek
      · refine .inl ?_
        simp only [takes,if_neg hpeek]
        omega
  · refine .inr ⟨.io o,p,by rw [ht],hs,hwant ▸ hs,fun hwait => ?_⟩
    rcases hp with ⟨hres,hfull⟩ | ⟨-,hinva,-⟩
    · have hpeek : ¬o.peek=true := fun hpeek => hslip ⟨hpeek,hfull.symm.trans hwait,hres⟩
      refine .inl ⟨?_,fun m' => if_neg hpeek⟩
      simp only [takes,if_neg hpeek]
      omega
    · exact .inr (clears_of hwant hinva.ge)

/-- What follows `sub->post` in a dpaio operation, when `sub->post` has counted right. -/
theorem aio_spec {dir : Dir} {ssl : Bool} {t : Aios σ} {k : ℕ} (hs : Suits want (.aio dir ssl t))
    (hw : ssl=false → p.out.want⊆{dir.evt}) (hpos : 0<p.ret → 0<k) (hwait : p.ret=dpeWait → 0<k ∨ Clears want p.out) :
    ∃ op' q,dpaio.over dir ssl t x p=.ret op' q ∧ Suits want op' ∧ Suits q.out.want op' ∧
      (q.ret=dpeWait → 0<k ∧ (∀ m',room op' m'=0) ∨ Clears want q.out) := by
  have hc : t.checked := by
    cases ssl with
    | true => exact hs
    | false => exact hs.2
  have hc' : (aiosPost x t p.ret).1.checked := aiosPost_checked hc
  have hout : ssl=false →
      (if 0<p.ret ∧ (dpaio.post x t p.ret).2=dpeWait ∧ dpaio.again t=true then {dir.evt} else p.out.want)⊆{dir.evt} := by
    intro hssl
    split
    · exact subset_rfl
    · exact hw hssl
  refine ⟨_,_,rfl,?_,?_,fun hq => ?_⟩
  · cases ssl with
    | true => exact hc'
    | false => exact ⟨hs.1,hc'⟩
  · cases ssl with
    | true => exact hc'
    | false => exact ⟨hout rfl,hc'⟩
  · rcases aiosPost_waits hc hq with hr | hr
    · exact .inl ⟨hpos hr,fun _ => rfl⟩
    · rcases hwait hr with hk | hclear
      · exact .inl ⟨hk,fun _ => rfl⟩
      · refine .inr ?_
        have hno : ¬(0<p.ret ∧ (dpaio.post x t p.ret).2=dpeWait ∧ dpaio.again t=true) := by
          rw [hr]
          exact fun h => absurd h.1 (by decide)
        simp only [if_neg hno]
        exact hclear

theorem aioIo_spec {dir : Dir} {t : Aios σ} {c : Call} (hs : Suits want (.aio dir false t))
    (hcounts : Counts got (.aio dir false t) m) (hslip : ¬slip skt (.aio dir false t) m (.call c))
    (ht : turn dpaio want (.aio dir false t) m (.call c) x=some n) :
    Goes skt want got (.aio dir false t) m (.call c) n ∨ Rets skt want got (.aio dir false t) (.call c) n := by
  cases ht
  have htakes : 0<c.res → 0<takes skt (.aio dir false t) (.call c) := by
    intro hres
    have hpeek : ¬(skt=true ∧ t.peeks=true) := fun h => hslip ⟨h.1,h.2,hres⟩
    simp only [takes,if_neg hpeek]
    omega
  rcases @ioTurn_spec want m (dpaio.io dir t) c with ⟨total,ht,hres⟩ | ⟨p,ht,hwant,hp⟩
  · refine .inl ⟨.aio dir false t,_,by rw [ht],hs,fun _ => ?_,le_refl 0,.inl (htakes hres)⟩
    exact Nat.add_pos_right _ (htakes hres)
  · right
    have hpos : 0<p.ret → 0<got+takes skt (.aio dir false t) (.call c) := by
      intro hpos
      rcases hp with ⟨hres,-⟩ | ⟨-,-,h⟩
      · exact Nat.add_pos_right _ (htakes hres)
      · rcases h hpos with h | h
        · exact Nat.add_pos_left (hcounts h) _
        · cases h
    obtain ⟨op',q,hq,hs',hsq,hrq⟩ := @aio_spec σ want x p dir false t _ hs (fun _ => hwant ▸ hs.1) hpos fun hwait => by
      rcases hp with ⟨hres,-⟩ | ⟨-,hinva,-⟩
      · exact .inl (Nat.add_pos_right _ (htakes hres))
      · exact .inr (clears_of hwant hinva.ge)
    exact ⟨op',q,by rw [ht]; exact hq,hs',hsq,hrq⟩

theorem aioSsl_spec {dir : Dir} {t : Aios σ} {s : Seen} (hs : Suits want (.aio dir true t))
    (hcounts : Counts got (.aio dir true t) m) (hslip : ¬slip skt (.aio dir true t) m (.ssl s))
    (ht : turn dpaio want (.aio dir true t) m (.ssl s) x=some n) :
    Goes skt want got (.aio dir true t) m (.ssl s) n ∨ Rets skt want got (.aio dir true t) (.ssl s) n := by
  cases ht
  have htakes : 0<s.ret → 0<takes skt (.aio dir true t) (.ssl s) := fun hret => by
    simp only [takes]
    omega
  have hask : s.ret≤0 → asks (dpaio.asc dir t) s.ret=true := by
    intro hret
    cases dir <;> exact decide_eq_true hret
  have hturn : SslQueue.post.turn want (dpaio.asc dir t) m.total s=
      SslQueue.ioTurn (dpaio.asc dir t) (dpaio.len t) m.total s := by
    cases dir <;> rfl
  rcases @sslIo_spec want m _ (dpaio.len t) s hask hslip with ⟨total,ht,hret⟩ | ⟨p,ht,hpos,hwait⟩
  · refine .inl ⟨.aio dir true t,⟨total,[]⟩,by rw [hturn,ht],hs,fun _ => ?_,le_refl 0,.inl (htakes hret)⟩
    exact Nat.add_pos_right _ (htakes hret)
  · right
    have hpos' : 0<p.ret → 0<got+takes skt (.aio dir true t) (.ssl s) := by
      intro h
      rcases hpos h with h | h | h
      · exact Nat.add_pos_right _ (htakes h)
      · exact Nat.add_pos_left (hcounts h) _
      · exact absurd h postErr_neg
    obtain ⟨op',q,hq,hs',hsq,hrq⟩ := @aio_spec σ want x p dir true t _ hs (fun h => (by cases h)) hpos' fun hw => by
      rcases hwait hw with h | h
      · exact .inl (Nat.add_pos_right _ (htakes h))
      · exact .inr h
    exact ⟨op',q,by rw [hturn,ht]; exact hq,hs',hsq,hrq⟩

theorem sslTurn_spec {asc : Asc} {s : Seen} (hfail : ¬fails asc m s) :
    (∃ total,SslQueue.post.turn want asc m.total s=.call asc total ∧ 0<takes skt (.ssl asc : Op (Aios σ)) (.ssl s)) ∨
    ∃ p,SslQueue.post.turn want asc m.total s=.ret asc p ∧
      (p.ret=dpeWait → 0< m.total ∨ 0<takes skt (.ssl asc : Op (Aios σ)) (.ssl s) ∨ Clears want p.out) := by
  have hone : (s.ret≠1 → asks asc s.ret=true) → (if s.ret=1 then (⟨dpeOk,{}⟩ : PostRet) else postErr s).ret=dpeWait →
      0< m.total ∨ Clears want (if s.ret=1 then (⟨dpeOk,{}⟩ : PostRet) else postErr s).out := by
    intro hask hwait
    by_cases htotal : 0< m.total
    · exact .inl htotal
    split at hwait
    · exact absurd hwait (by decide)
    · rename_i hret
      rw [if_neg hret]
      exact .inr (postErr_waits (not_lt.mp htotal) (hask hret) hfail hwait)
  cases asc with
  | handshake => exact .inr ⟨_,rfl,fun hwait => (hone (fun h => by simp [asks,h]) hwait).imp_right .inr⟩
  | shutdown => exact .inr ⟨_,rfl,fun hwait => (hone (fun h => by simp [asks,h]) hwait).imp_right .inr⟩
  | recv null len =>
    rcases @sslIo_spec want m (.recv null len) len s (fun h => decide_eq_true h) hfail with
      ⟨total,ht,hret⟩ | ⟨p,ht,-,hwait⟩
    · exact .inl ⟨total,ht,by simp only [takes]; omega⟩
    · exact .inr ⟨p,ht,fun hw => .inr ((hwait hw).imp_left fun h => by simp only [takes]; omega)⟩
  | send null len =>
    rcases @sslIo_spec want m (.send null len) len s (fun h => decide_eq_true h) hfail with
      ⟨total,ht,hret⟩ | ⟨p,ht,-,hwait⟩
    · exact .inl ⟨total,ht,by simp only [takes]; omega⟩
    · exact .inr ⟨p,ht,fun hw => .inr ((hwait hw).imp_left fun h => by simp only [takes]; omega)⟩

theorem ssl_spec {asc : Asc} {s : Seen} (hcounts : Counts got (.ssl asc : Op (Aios σ)) m)
    (hslip : ¬slip skt (.ssl asc : Op (Aios σ)) m (.ssl s)) (ht : turn dpaio want (.ssl asc) m (.ssl s) x=some n) :
    Goes skt want got (.ssl asc) m (.ssl s) n ∨ Rets skt want got (.ssl asc) (.ssl s) n := by
  cases ht
  rcases @sslTurn_spec σ want m skt asc s hslip with ⟨total,ht,htakes⟩ | ⟨p,ht,hwait⟩
  · exact .inl ⟨.ssl asc,⟨total,[]⟩,by rw [ht],trivial,fun _ => Nat.add_pos_right _ htakes,le_refl 0,.inl htakes⟩
  · refine .inr ⟨.ssl asc,p,by rw [ht],trivial,trivial,fun hw => ?_⟩
    rcases hwait hw with h | h | h
    · exact .inl ⟨Nat.add_pos_left (hcounts h) _,fun _ => rfl⟩
    · exact .inl ⟨Nat.add_pos_right _ h,fun _ => rfl⟩
    · exact .inr h

theorem pipeTurn_spec {o : PipeIo.DpspTee} {total : ℤ} {c : Call} :
    (∃ total',PipeIo.turn want o total c=.call o total' ∧ 0<c.res) ∨
    ∃ p,PipeIo.turn want o total c=.ret o p ∧ p.out.want=want ∧ (p.ret=dpeWait → 0<c.res ∨ p.out.inva={.out}) := by
  unfold PipeIo.turn
  split
  · rename_i hres
    split
    · exact .inr ⟨_,rfl,rfl,fun _ => .inl hres⟩
    · exact .inl ⟨_,rfl,hres⟩
  · split
    · refine .inr ⟨_,rfl,rfl,fun hwait => ?_⟩
      simp only at hwait
      split at hwait
      · rename_i htotal
        rw [hwait] at htotal
        exact absurd htotal (by decide)
      · exact absurd hwait (by decide)
    · exact .inr ⟨_,rfl,rfl,fun _ => .inr rfl⟩

theorem pipe_spec {o : PipeIo.DpspTee} {c : Call} {blocked : Bool} (hs : want⊆{.out})
    (ht : turn dpaio want (.pipe o : Op (Aios σ)) m (.pipe c blocked) x=some n) :
    Goes skt want got (.pipe o) m (.pipe c blocked) n ∨ Rets skt want got (.pipe o) (.pipe c blocked) n := by
  cases ht
  have htakes : 0<c.res → 0<takes skt (.pipe o : Op (Aios σ)) (.pipe c blocked) := fun hres => by
    simp only [takes]
    omega
  rcases @pipeTurn_spec want o m.total c with ⟨total,ht,hres⟩ | ⟨p,ht,hwant,hp⟩
  · exact .inl ⟨.pipe o,⟨total,[]⟩,by rw [ht],hs,trivial,le_refl 0,.inl (htakes hres)⟩
  · refine .inr ⟨.pipe o,p,by rw [ht],hs,hwant ▸ hs,fun hwait => ?_⟩
    rcases hp hwait with hres | hinva
    · exact .inl ⟨Nat.add_pos_right _ (htakes hres),fun _ => rfl⟩
    · exact .inr (clears_of hwant (hinva.symm ▸ hs))

/-- A turn of a post function, unless its call slips. -/
theorem turn_spec (hs : Suits want op) (hcounts : Counts got op m) (hslip : ¬slip skt op m a)
    (hans : answers skt left op m a) (ht : turn dpaio want op m a x=some n) :
    Goes skt want got op m a n ∨ Rets skt want got op a n := by
  cases op with
  | io o =>
    cases a with
    | call c => exact io_spec hs hslip hans ht
    | none | pipe | connect | ssl => cases ht
  | accept =>
    cases a with
    | call c =>
      cases ht
      refine .inr ⟨.accept,_,rfl,hs,?_,fun hwait => ?_⟩
      · unfold EfdReady.acceptPost
        split <;> exact hs
      · unfold EfdReady.acceptPost at hwait ⊢
        split at hwait
        · rename_i hres
          rw [show c.res=dpeWait from hwait] at hres
          exact absurd hres (by decide)
        · rename_i hres
          rw [if_neg hres]
          exact .inr (clears_of rfl hs)
    | none | pipe | connect | ssl => cases ht
  | pipe o =>
    cases a with
    | pipe c blocked => exact pipe_spec hs ht
    | none | call | connect | ssl => cases ht
  | connect addr =>
    cases a with
    | none =>
      cases ht
      exact .inr ⟨.connect addr,_,rfl,trivial,trivial,fun hwait => absurd (show dpeOk=dpeWait from hwait) (by decide)⟩
    | call | pipe | connect | ssl => cases ht
  | poll mask =>
    cases a with
    | none =>
      cases ht
      refine .inr ⟨.poll mask,_,rfl,trivial,trivial,fun hwait => ?_⟩
      have hneg : ((mask.setWidth 16).toNat : ℤ)=-11 := hwait
      omega
    | call | pipe | connect | ssl => cases ht
  | ssl asc =>
    cases a with
    | ssl s => exact ssl_spec hcounts hslip ht
    | none | call | pipe | connect => cases ht
  | aio dir ssl t =>
    cases ssl with
    | false =>
      cases a with
      | call c => exact aioIo_spec hs hcounts hslip ht
      | none | pipe | connect | ssl => cases ht
    | true =>
      cases a with
      | ssl s => exact aioSsl_spec hs hcounts hslip ht
      | none | call | pipe | connect => cases ht

theorem prep_suits {types : BitVec 32} (hg : given op) (h : prep types dpaio op a=some p) : Suits p.out.want op := by
  have hw := (EfdReady.prep_clears types h).1
  cases op with
  | io o => exact hw
  | accept =>
    cases a with
    | none =>
      cases h
      exact subset_rfl
    | call | pipe | connect | ssl => cases h
  | pipe o =>
    cases a with
    | none =>
      cases h
      exact subset_rfl
    | call | pipe | connect | ssl => cases h
  | connect | poll | ssl => trivial
  | aio dir ssl t =>
    cases ssl with
    | true => exact hg.2
    | false => exact ⟨hw,hg.2⟩

theorem suits_empty (h : Suits want op) : Suits ∅ op := by
  cases op with
  | io o => exact Finset.empty_subset _
  | aio dir ssl t =>
    cases ssl with
    | true => exact h
    | false => exact ⟨Finset.empty_subset _,h.2⟩
  | accept | pipe => exact Finset.empty_subset _
  | connect | poll | ssl => trivial

theorem suits_kept (h : Suits want op) : Suits want op.kept := by
  cases op with
  | poll mask => trivial
  | io | accept | pipe | connect | ssl | aio => exact h

end Turns

/-! ### The element -/

section Fds
variable {op op' : Op (Aios σ)} {m : Loop} {a : Ans} {p : PostRet} {y : Efd × Turn} {f : Efd}
  {fd : Fd (Op (Aios σ)) Loop} {evs : Evts}

structure FdOk (fd : Fd (Op (Aios σ)) Loop) : Prop where
  idle : fd.pend=none → fd.efd.want=∅
  waits : ∀ op,fd.pend=some ⟨op,none⟩ → fd.efd.able∩fd.efd.want=∅
  wakes : ∀ op m,fd.pend=some ⟨op,some m⟩ → fd.efd.able.Nonempty
  suits : ∀ p∈fd.pend,Suits fd.efd.want p.data

/-- A post function has just been called. -/
def fresh (fd : Fd (Op (Aios σ)) Loop) : Prop := ∀ op m,fd.pend=some ⟨op,some m⟩ → m.total=0

theorem enter_total : (EfdReady.enter dpaio op).total=0 := by
  cases op with
  | io | accept | pipe | connect | poll | ssl => rfl
  | aio dir ssl t => cases ssl <;> rfl

theorem wakeTest_post (h : wakeTest f=.post) : (f.able∩f.want).Nonempty := by
  unfold wakeTest at h
  split at h
  · assumption
  · cases h

theorem turned_ok (hret : ∀ r,y.2=.ret r → y.1.able∩y.1.want=∅ ∧ (r≠dpeWait → y.1.want=∅))
    (hpost : y.2=.post → (y.1.able∩y.1.want).Nonempty) (hs : Suits y.1.want op) :
    FdOk (turned (post dpaio) op y).1 ∧ fresh (turned (post dpaio) op y).1 := by
  rcases turned_cases (post dpaio) op y with ⟨hy,heq⟩ | ⟨hy,heq⟩ | ⟨r,hy,hr,heq⟩
  · rw [heq]
    refine ⟨⟨fun hn => (by cases hn),fun op' _ => (hret _ hy).1,fun op' m hq => (by cases hq),fun q hq => ?_⟩,
      fun op' m hq => (by cases hq)⟩
    cases hq
    exact hs
  · rw [heq]
    refine ⟨⟨fun hn => (by cases hn),fun op' hq => (by cases hq),fun op' m hq => ?_,fun q hq => ?_⟩,fun op' m hq => ?_⟩
    · exact (hpost hy).mono Finset.inter_subset_left
    · cases hq
      exact hs
    · cases hq
      exact enter_total
  · rw [heq]
    exact ⟨⟨fun _ => (hret r hy).2 hr,fun op' hq => (by cases hq),fun op' m hq => (by cases hq),fun q hq => (by cases hq)⟩,
      fun op' m hq => (by cases hq)⟩

theorem wake_ok {o : AscOut} (hs : Suits o.want op) :
    FdOk (turned (post dpaio) op (dpefdWake f o)).1 ∧ fresh (turned (post dpaio) op (dpefdWake f o)).1 := by
  refine turned_ok (fun r hr => ⟨(dpefdWake_ret hr).1,fun hne => ((dpefdWake_ret hr).2 hne).1⟩) (fun hp => ?_) ?_
  · unfold dpefdWake at hp ⊢
    split at hp
    · cases hp
    · rename_i herr
      rw [if_neg herr]
      exact wakeTest_post hp
  · unfold dpefdWake
    split
    · exact suits_empty hs
    · exact hs

theorem posted_wakes (h : (dpefdPosted f p).2=.post) :
    p.ret=dpeWait ∧ ((dpefdPosted f p).1.able∩(dpefdPosted f p).1.want).Nonempty := by
  unfold dpefdPosted at h ⊢
  split at h
  · rename_i hp
    rw [if_pos hp]
    exact ⟨hp,wakeTest_post h⟩
  · cases h

theorem posted_ok (hs : Suits f.want op) (hp : Suits p.out.want op) :
    FdOk (turned (post dpaio) op (dpefdPosted f p)).1 ∧ fresh (turned (post dpaio) op (dpefdPosted f p)).1 := by
  refine turned_ok (fun r hr => (dpefdPosted_ret hr).2) (fun h => (posted_wakes h).2) ?_
  unfold dpefdPosted
  split
  · split
    · exact hp
    · exact hs
  · exact suits_empty hs

theorem begun_ok {types : BitVec 32} (h : FdOk fd) (hn : fd.pend=none) (hg : given op)
    (hp : prep types dpaio op a=some p) : FdOk (begun dpaio fd op p) ∧ fresh (begun dpaio fd op p) := by
  have hs := prep_suits hg hp
  unfold begun
  split
  · exact wake_ok hs
  · split
    · refine ⟨⟨fun hn => (by cases hn),fun op' _ => ?_,fun op' m hq => (by cases hq),fun q hq => ?_⟩,
        fun op' m hq => (by cases hq)⟩
      · rw [h.idle hn,Finset.inter_empty]
      · cases hq
        rw [h.idle hn]
        exact suits_empty hs
    · refine ⟨h,fun op' m hq => ?_⟩
      rw [hn] at hq
      cases hq

theorem feed_ok {z : Fd (Op (Aios σ)) Loop × Option Dpret} (h : FdOk fd)
    (hf : Fd.feed (post dpaio) ⟨fd.efd,fd.pend.map fun p => {p with data := p.data.kept}⟩ evs=some z) :
    FdOk z.1 ∧ fresh z.1 := by
  unfold Fd.feed at hf
  split at hf
  · rename_i hn
    cases hf
    have hidle := h.idle (Option.map_eq_none_iff.mp hn)
    exact ⟨⟨fun _ => hidle,fun op' hq => (by cases hq),fun op' m hq => (by cases hq),fun q hq => (by cases hq)⟩,
      fun op' m hq => (by cases hq)⟩
  · rename_i d hd
    obtain ⟨⟨op,run⟩,hq,heq⟩ := Option.map_eq_some_iff.mp hd
    cases heq
    have hs : Suits fd.efd.want op.kept := suits_kept (h.suits _ hq)
    split at hf
    · rename_i hwant
      cases hf
      refine ⟨⟨fun hn => (by cases hn),fun op' _ => ?_,fun op' m hq => (by cases hq),fun q hq => ?_⟩,
        fun op' m hq => (by cases hq)⟩
      · simp only [Fd.feedBits]
        rw [hwant,Finset.inter_empty]
      · cases hq
        exact hs
    · cases hf
      exact wake_ok hs
  · cases hf

end Fds

/-! ### Runs -/

section Runs
variable {skt : Bool} {types : BitVec 32} {s t : Sys σ} {able : Evts} {a : Act σ}

/-- What is still to be had, and the byte or so that the post function that runs has. -/
def Sys.load (s : Sys σ) : ℕ := if runs s.fd=true then s.left+min 1 s.got+s.fd.efd.able.card else 0

/-- The calls that are still to come. -/
def Sys.work (s : Sys σ) : ℕ := if runs s.fd=true then 2*s.left+min 1 s.got+2*s.fd.efd.able.card+roomOf s.fd else 0

structure Inv (s : Sys σ) : Prop where
  fd : FdOk s.fd
  counts : ∀ op m,s.fd.pend=some ⟨op,some m⟩ → Counts s.got op m
  progress : ∀ r∈s.rounds,0<r.got
  rounds : s.rounds.length+s.load≤ s.budget
  calls : s.calls+s.work≤2*s.budget+s.room

theorem counts_fresh {fd : Fd (Op (Aios σ)) Loop} (h : fresh fd) {op : Op (Aios σ)} {m : Loop} (hq : fd.pend=some ⟨op,some m⟩)
    {got : ℕ} : Counts got op m := by
  have htotal : 0< m.total → 0<got := fun hpos => by
    rw [h op m hq] at hpos
    exact absurd hpos (by decide)
  cases op with
  | ssl | aio => exact htotal
  | io | accept | pipe | connect | poll => trivial

theorem runs_iff {fd : Fd (Op (Aios σ)) Loop} : runs fd=true ↔ ∃ op m,fd.pend=some ⟨op,some m⟩ := by
  unfold runs
  split
  · rename_i op m hq
    exact ⟨fun _ => ⟨op,m,hq⟩,fun _ => rfl⟩
  · rename_i hno
    exact ⟨fun h => (by cases h),fun ⟨op,m,hq⟩ => (hno op m hq).elim⟩

theorem inv_entered {fd : Fd (Op (Aios σ)) Loop} (h : FdOk fd ∧ fresh fd) (n : ℕ) : Inv (entered fd n) := by
  refine ⟨h.1,fun op m hq => counts_fresh h.2 hq,fun r hr => (by cases hr),?_,?_⟩
  · unfold Sys.load
    split
    · exact (Nat.zero_add _).le
    · exact Nat.zero_le _
  · unfold Sys.work
    split
    · simp only [entered]
      omega
    · exact Nat.zero_le _

/-- A loop that goes on after a call. -/
theorem inv_goes {op : Op (Aios σ)} {m : Loop} {x : Ans} {n : Next (Op (Aios σ)) Loop} (h : Inv s)
    (hq : s.fd.pend=some ⟨op,some m⟩) (hle : takes skt op x≤ s.left) (hn : Goes skt s.fd.efd.want s.got op m x n) :
    Inv (s.next (takes skt op x) n) := by
  obtain ⟨op',m',rfl,hs,hcounts,hroom,hgo⟩ := hn
  have hrun : runs s.fd=true := runs_iff.mpr ⟨op,m,hq⟩
  have hroom' : roomOf s.fd=room op m := by
    unfold roomOf
    rw [hq]
  have hr := h.rounds
  have hc := h.calls
  unfold Sys.load at hr
  unfold Sys.work at hc
  rw [if_pos hrun] at hr hc
  rw [hroom'] at hc
  refine ⟨⟨fun hno => (by cases hno),fun op' hq' => (by cases hq'),fun _ _ _ => h.fd.wakes op m hq,fun q hq' => ?_⟩,
    fun op'' m'' hq' => ?_,h.progress,?_,?_⟩
  · cases hq'
    exact hs
  · cases hq'
    exact hcounts
  · simp only [Sys.next,Sys.load,Fd.next,runs,if_true]
    omega
  · simp only [Sys.next,Sys.work,Fd.next,runs,roomOf,if_true]
    omega

theorem inv_rets {op : Op (Aios σ)} {m : Loop} {x : Ans} {n : Next (Op (Aios σ)) Loop} (h : Inv s)
    (hq : s.fd.pend=some ⟨op,some m⟩) (hle : takes skt op x≤ s.left) (hn : Rets skt s.fd.efd.want s.got op x n) :
    Inv (s.next (takes skt op x) n) := by
  obtain ⟨op',p,rfl,hs,hsp,hwait⟩ := hn
  have hrun : runs s.fd=true := runs_iff.mpr ⟨op,m,hq⟩
  have hr := h.rounds
  have hc := h.calls
  unfold Sys.load at hr
  unfold Sys.work at hc
  rw [if_pos hrun] at hr hc
  have hable : 0< s.fd.efd.able.card := Finset.card_pos.mpr (h.fd.wakes op m hq)
  obtain ⟨hok,hfresh⟩ := posted_ok hs hsp
  generalize hy : dpefdPosted s.fd.efd p=y at hok hfresh
  have hless : y.1.able.card≤ s.fd.efd.able.card := by
    rw [← hy]
    exact Finset.card_le_card dpefdPosted_able
  have hfd : (s.fd.next (post dpaio) (.ret op' p)).1=(turned (post dpaio) op' y).1 := by
    rw [← hy]
    rfl
  cases hgo : runs (turned (post dpaio) op' y).1 with
  | true =>
    -- the post function is called again
    have hpost : y.2=.post ∧ (turned (post dpaio) op' y).1=⟨y.1,some ⟨op',some (EfdReady.enter dpaio op')⟩⟩ := by
      rcases turned_cases (post dpaio) op' y with ⟨-,heq⟩ | ⟨hpost,heq⟩ | ⟨r,-,-,heq⟩
      · rw [heq] at hgo
        cases hgo
      · exact ⟨hpost,congrArg Prod.fst heq⟩
      · rw [heq] at hgo
        cases hgo
    obtain ⟨hpost,heq⟩ := hpost
    obtain ⟨hret,hmeet⟩ := posted_wakes ((congrArg Prod.snd hy).trans hpost)
    obtain ⟨hgot,hroom⟩ : 0< s.got+takes skt op x ∧ ∀ m',room op' m'=0 := by
      rcases hwait hret with hgot | hclear
      · exact hgot
      · rw [clears_posted hret hclear] at hmeet
        exact absurd hmeet Finset.not_nonempty_empty
    have hnext : s.next (takes skt op x) (.ret op' p)={s with
        fd := (turned (post dpaio) op' y).1
        left := s.left-takes skt op x
        calls := s.calls+1
        rounds := s.rounds++[⟨s.got+takes skt op x,s.fd.efd.able∩s.fd.efd.want∩p.out.inva⟩]
        got := 0} := by
      simp only [Sys.next,hfd]
      rw [if_pos hgo]
    rw [hnext]
    refine ⟨hok,fun op'' m'' hq' => counts_fresh hfresh hq',fun r hr => ?_,?_,?_⟩
    · rcases List.mem_append.mp hr with hr | hr
      · exact h.progress r hr
      · rw [List.mem_singleton.mp hr]
        exact hgot
    · simp only [Sys.load,hgo,if_true,List.length_append,List.length_singleton]
      rw [heq]
      simp only
      omega
    · simp only [Sys.work,hgo,if_true]
      rw [heq]
      simp only [roomOf,hroom]
      omega
  | false =>
    have hnext : s.next (takes skt op x) (.ret op' p)={s with
        fd := (turned (post dpaio) op' y).1
        left := s.left-takes skt op x
        got := s.got+takes skt op x
        calls := s.calls+1} := by
      simp only [Sys.next,hfd]
      rw [if_neg (by rw [hgo]; exact Bool.false_ne_true)]
    rw [hnext]
    refine ⟨hok,fun op'' m'' hq' => counts_fresh hfresh hq',h.progress,?_,?_⟩
    · simp only [Sys.load,hgo,Bool.false_eq_true,if_false]
      omega
    · simp only [Sys.work,hgo,Bool.false_eq_true,if_false]
      omega

theorem inv_step (h : Inv s) (hok : sound skt s a) (hu : step skt types s a=some t) : Inv t := by
  cases a with
  | add op x n =>
    simp only [step] at hu
    split at hu
    · cases hu
      exact h
    · rename_i hn
      obtain ⟨hg,hu⟩ := Option.ite_none_right_eq_some.mp hu
      obtain ⟨p,hp,rfl⟩ := Option.map_eq_some_iff.mp hu
      exact inv_entered (begun_ok h.fd (Option.not_isSome_iff_eq_none.mp hn) hg hp) n
  | feed evs n =>
    obtain ⟨z,hz,rfl⟩ := Option.map_eq_some_iff.mp hu
    exact inv_entered (feed_ok h.fd hz) n
  | call x y =>
    simp only [step] at hu
    split at hu
    · rename_i op m hq
      obtain ⟨hans,hu⟩ := Option.ite_none_right_eq_some.mp hu
      obtain ⟨n,hn,rfl⟩ := Option.map_eq_some_iff.mp hu
      have hslip : ¬slip skt op m x := by
        unfold sound at hok
        rw [hq] at hok
        exact hok
      rcases turn_spec (h.fd.suits _ hq) (h.counts op m hq) hslip hans hn with hgo | hret
      · exact inv_goes h hq hans.1 hgo
      · exact inv_rets h hq hans.1 hret
    · cases hu
  | stop =>
    simp only [step] at hu
    split at hu
    · rename_i hq
      cases hu
      have hidle : runs s.fd=false := by
        unfold runs
        rw [hq]
      have hr := h.rounds
      have hc := h.calls
      unfold Sys.load at hr
      unfold Sys.work at hc
      rw [hidle] at hr hc
      refine ⟨⟨fun _ => rfl,fun op hq => (by cases hq),fun op m hq => (by cases hq),fun q hq => (by cases hq)⟩,
        fun op m hq => (by cases hq),h.progress,hr,hc⟩
    · cases hu

theorem inv_start : Inv (start able : Sys σ) :=
  ⟨⟨fun _ => rfl,fun op hq => (by cases hq),fun op m hq => (by cases hq),fun q hq => (by cases hq)⟩,
    fun op m hq => (by cases hq),fun r hr => (by cases hr),le_refl 0,le_refl 0⟩

theorem wake_ends (h : Reach (step skt types) (sound skt) (start able : Sys σ) s) : Ends s := by
  have hinv : Inv s := h.invariant inv_start fun _ _ _ hi hok hu => inv_step hi hok hu
  refine ⟨fun r hr => .inl (hinv.progress r hr),?_,?_,fun op hq => ?_⟩
  · exact (Nat.le_add_right _ _).trans hinv.rounds
  · exact (Nat.le_add_right _ _).trans hinv.calls
  · exact Finset.disjoint_iff_inter_eq_empty.mpr (hinv.fd.waits op hq)

end Runs

instance (skt : Bool) (op : Op (Aios σ)) (m : Loop) (a : Ans) : Decidable (slip skt op m a) := by
  induction op using Op.casesOn with
  | aio dir ssl t =>
    induction ssl using Bool.casesOn <;> induction a using Ans.casesOn <;> (dsimp only [slip,fails]; infer_instance)
  | _ => induction a using Ans.casesOn <;> (dsimp only [slip,fails]; infer_instance)

instance (skt : Bool) (s : Sys σ) (a : Act σ) : Decidable (sound skt s a) := by
  unfold sound
  split
  · split <;> infer_instance
  · infer_instance
  · infer_instance
  · infer_instance

/-- A read of four bytes from a session has two of them when the session has to write; the loop goes on. -/
def halfRead : List (Act Unit) :=
  [.add (.aio .inp true (.data .inp [0,0,0,0,0] ⟨1,4,0,4⟩)) .none 0,.feed {.inp} 4,
    .call (.ssl ⟨2,.none,false,0⟩) ([],none),.call (.ssl ⟨-1,.wantWrite,false,0⟩) ([7,8],none),
    .call (.ssl ⟨2,.none,false,0⟩) ([9,10],none)]

theorem wake_ends_half : ∃ s : Sys Unit,s.rounds.map Round.got=[2] ∧ s.fd.pend.isNone=true ∧ Ends s := by
  have hrun : ((execOk (step true 7#32) (sound true) (start ∅) halfRead).any fun s =>
      decide (s.rounds.map Round.got=[2] ∧ s.fd.pend.isNone=true))=true := by
    decide +kernel
  obtain ⟨s,hs,hr⟩ := (Option.any_eq_true _ _).mp hrun
  obtain ⟨hrounds,hpend⟩ := of_decide_eq_true hr
  exact ⟨s,hrounds,hpend,wake_ends (execOk_reach hs)⟩

/-- A handshake that waits for input, and fails when the input comes; errno is still EAGAIN. -/
def failing (n : ℕ) : Sys Unit where
  fd := ⟨⟨{.inp},{.inp}⟩,some ⟨.ssl .handshake,some ⟨0,[]⟩⟩⟩
  rounds := List.replicate n ⟨0,∅⟩
  calls := n
  budget := 1

theorem failing_step (n : ℕ) :
    step false 7#32 (failing n) (.call (.ssl ⟨-1,.ssl,false,11⟩) ([],none))=some (failing (n+1)) := by
  have hround : failing (n+1)={failing n with rounds := (failing n).rounds++[⟨0,∅⟩], calls := n+1} := by
    simp only [failing,List.replicate_succ']
  rw [hround]
  rfl

theorem failing_reach (n : ℕ) : Reach (step false 7#32) anyStep (start ∅) (failing n) := by
  induction n with
  | zero =>
    have hrun : exec (step false 7#32) (start ∅) [.add (.ssl .handshake) (.ssl ⟨-1,.wantRead,false,0⟩) 0,.feed {.inp} 0]=
        some (failing 0) := by
      rfl
    exact exec_reach hrun
  | succ n ih => exact .tail ih trivial (failing_step n)

/-- The loop never ends. -/
theorem handshake_spins : ¬∀ (skt : Bool) (types : BitVec 32) (able : Evts) (s : Sys Unit),
    Reach (step skt types) anyStep (start able) s → Ends s := by
  intro hall
  have hends := (hall _ _ _ _ (failing_reach 2)).rounds
  exact absurd hends (by decide)

end Dpapp.WakeLoop
