import Dpapp.StreamIo

/-! # A peer that closes its sending side (os/linux/dpevp_epoll.c, os/linux/dpasc_epoll.c)

Reads and writes on a connected socket, with what the kernel reports of it: EPOLLRDHUP reaches the element as
DPEVT_HUP, and `_dpefd_wake` asks for the hang-up before it asks for data. -/

namespace Dpapp.HalfClose
open Dpapp.Machine Dpapp.Ret Dpapp.EfdWake Dpapp.EfdIo Dpapp.StreamIo

variable {α : Type*}

/-- A socket: `fin` and `reset` tell whether the peer has closed its sending side and whether the connection has
failed. `sent` is all the peer has sent, and `cut` what the calls had taken of it when the first hang-up or error was
fed to the element. -/
structure Conn (α : Type*) where
  io : Stream α := {}
  fin : Bool := false
  reset : Bool := false
  sent : List α := []
  cut : Option (List α) := none

inductive Act (α : Type*)
  | send (x : List α)
  | close
  | fail
  | add (o : Io)
  | call (r : Call)
  | event (h : Harvest)

/-- A read returns 0 at the end of the stream only, a write never, and another errno than EAGAIN tells of a connection
that has failed. -/
def answered (c : Conn α) (o : Io) (r : Call) : Prop :=
  (r.res=0 → o.dir=.inp ∧ c.io.input=[] ∧ c.fin=true) ∧
    (r.res<0 → r.errno<150 ∧ ((-r.errno : ℤ)≠dpeWait → c.reset=true))

/-- EPOLLRDHUP and EPOLLHUP come after the peer has closed or the connection has failed, EPOLLERR after it has failed. -/
def occurs (c : Conn α) (h : Harvest) : Prop :=
  (.hup∈h.bits → c.fin=true ∨ c.reset=true) ∧ (.err∈h.bits → c.reset=true)

instance (c : Conn α) (o : Io) (r : Call) : Decidable (answered c o r) := inferInstanceAs (Decidable (_ ∧ _))
instance (c : Conn α) (h : Harvest) : Decidable (occurs c h) := inferInstanceAs (Decidable (_ ∧ _))

/-- What DPEVT_GET_ERR asks for. -/
def hangs (evs : Evts) : Prop := .hup∈evs ∨ .err∈evs

instance (evs : Evts) : Decidable (hangs evs) := inferInstanceAs (Decidable (_ ∨ _))

def Conn.cutBy (c : Conn α) (evs : Evts) : Option (List α) :=
  if hangs evs then c.cut.or (some c.io.taken) else c.cut

def step (c : Conn α) : Act α → Option (Conn α)
  | .send x =>
      if c.fin=false ∧ c.reset=false then
        (StreamIo.step c.io (.arrive x)).map fun io => {c with io := io, sent := c.sent++x}
      else none
  | .close => some {c with fin := true}
  | .fail => some {c with reset := true}
  | .add o => (StreamIo.step c.io (.add o)).map fun io => {c with io := io}
  | .call r =>
      if running (fun o _ => answered c o r) c.io.fd.pend then
        (StreamIo.step c.io (.call r)).map fun io => {c with io := io}
      else none
  | .event h =>
      if occurs c h then
        (StreamIo.step c.io (.feed h.bits)).map fun io => {c with io := io, cut := c.cutBy h.bits}
      else none

/-- No call returns 0 once calls of the same operation have got bytes, unless it is a recvmsg, an operation moves
less than 2^31 bytes, and no recv asks for MSG_PEEK. -/
def orderly (c : Conn α) : Act α → Prop
  | .add o => o.peek=false
  | .call r => running (fun o m => (o.dir=.inp → r.res=0 → m.total=0 ∨ o.arg.isMsg=true) ∧ m.total+r.res<2^31) c.io.fd.pend
  | .send _ | .close | .fail | .event _ => True

/-- How an operation ends that returns no positive result: a read at the end of the stream, once all that has been sent
has been obtained; an operation with bad arguments; one whose connection has failed; or one after the hang-up, and then
what had been taken before the hang-up has been obtained. -/
def Ends (c : Conn α) (l : List (Done α)) (d : Done α) : Prop :=
  (d.op.dir=.inp ∧ d.ret=dpeEof ∧ c.fin=true ∧ l.flatMap Done.reported=c.sent) ∨
    (d.op.prep≠dpeContinue ∧ d.ret=d.op.prep) ∨ c.reset=true ∨
    ∃ x,c.cut=some x ∧ (d.ret=dpeConnreset ∨ d.ret=dpeBadfd) ∧ l.flatMap Done.reported=x

structure Inv (c : Conn α) : Prop where
  io : StreamIo.Inv c.io
  sent : c.sent=c.io.taken++c.io.input
  total : ∀ o m,c.io.fd.pend=some ⟨o,some m⟩ → 0≤ m.total
  want : ¬hangs c.io.fd.efd.want
  calm : c.cut=none → ¬hangs c.io.fd.efd.able
  cut : ∀ x,c.cut=some x → hangs c.io.fd.efd.able ∧ c.io.taken=x ∧ ∀ o m,c.io.fd.pend≠some ⟨o,some m⟩
  ends : ∀ l d r,c.io.done=l++d::r → d.ret≤0 → Ends c l d

section Steps
variable {c c' : Conn α} {o : Io} {m : Loop} {r : Call} {x : Efd × Turn} {f : Efd}

theorem evtGetErr_iff (evs : Evts) : dpretIserr (evtGetErr evs) ↔ hangs evs := by
  unfold evtGetErr hangs
  split
  · rename_i h
    exact iff_of_true (by decide) (.inl h)
  · rename_i hh
    split
    · rename_i h
      exact iff_of_true (by decide) (.inr h)
    · rename_i he
      exact iff_of_false (by decide) (not_or.mpr ⟨hh,he⟩)

theorem evtGetErr_cases {evs : Evts} (h : hangs evs) : evtGetErr evs=dpeConnreset ∨ evtGetErr evs=dpeBadfd := by
  unfold evtGetErr
  split
  · exact .inl rfl
  · rename_i hh
    exact .inr (if_pos (h.resolve_left hh))

theorem settle_done (s : Stream α) (o : Io) (y : Fd Io Loop × Option Dpret) :
    (s.settle o y).done=s.done++(y.2.map fun r => (⟨o,r,s.stored⟩ : Done α)).toList := by
  unfold Stream.settle
  split
  · rename_i hy
    simp [hy]
  · rename_i hy
    simp [hy]

theorem settle_fd (s : Stream α) (o : Io) (y : Fd Io Loop × Option Dpret) :
    (s.settle o y).fd=y.1 ∧ (s.settle o y).taken=s.taken ∧ (s.settle o y).input=s.input := by
  unfold Stream.settle
  split <;> exact ⟨rfl,rfl,rfl⟩

/-- One more result. -/
theorem ends_append {c : Conn α} {done : List (Done α)} {d : Done α}
    (h : ∀ l d r,done=l++d::r → d.ret≤0 → Ends c l d) (hd : d.ret≤0 → Ends c done d) :
    ∀ l e r,done++[d]=l++e::r → e.ret≤0 → Ends c l e := by
  intro l e r heq he
  rcases List.eq_nil_or_concat r with rfl | ⟨r,z,rfl⟩
  · obtain ⟨rfl,h1⟩ := List.append_inj' heq rfl
    cases h1
    exact hd he
  · rw [List.concat_eq_append,← List.cons_append,← List.append_assoc] at heq
    obtain ⟨h1,-⟩ := List.append_inj' heq rfl
    exact h l e r h1 he

theorem Ends.mono {l : List (Done α)} {d : Done α} (h : Ends c l d) (hfin : c.fin=true → c'.fin=true ∧ c'.sent=c.sent)
    (hreset : c.reset=true → c'.reset=true) (hcut : ∀ x,c.cut=some x → c'.cut=some x) : Ends c' l d := by
  rcases h with ⟨hdir,hret,hf,hs⟩ | hprep | hr | ⟨x,hx,hret,hl⟩
  · exact .inl ⟨hdir,hret,(hfin hf).1,by rw [(hfin hf).2]; exact hs⟩
  · exact .inr (.inl hprep)
  · exact .inr (.inr (.inl (hreset hr)))
  · exact .inr (.inr (.inr ⟨x,hcut x hx,hret,hl⟩))

theorem hangs_mono {a b : Evts} (h : a⊆b) (ha : hangs a) : hangs b := ha.imp (@h _) (@h _)

theorem wake_able {q : AscOut} (hq : q.inva=∅) : (dpefdWake f q).1.able=f.able := by
  unfold dpefdWake
  split
  · rfl
  · simp [hq]

theorem wake_want {q : AscOut} (hq : ¬hangs q.want) : ¬hangs (dpefdWake f q).1.want := by
  unfold dpefdWake
  split
  · simp [hangs]
  · exact hq

/-- A hang-up ends the operation. -/
theorem wake_hangs {q : AscOut} (h : hangs f.able) : (dpefdWake f q).2=.ret (evtGetErr f.able) := by
  unfold dpefdWake
  rw [if_pos ((evtGetErr_iff _).mpr h)]

/-- The wake loop starts: it ends an operation for a hang-up only. -/
theorem inv_woken {s : Stream α} {q : AscOut} (hio : StreamIo.Inv c'.io)
    (heq : c'.io=s.settle o (turned ioPost o (dpefdWake f q))) (htaken : s.taken=s.done.flatMap Done.reported)
    (hsent : c'.sent=s.taken++s.input) (hq : ¬hangs q.want) (hinva : q.inva=∅) (hcalm : c'.cut=none → ¬hangs f.able)
    (hcut : ∀ x,c'.cut=some x → hangs f.able ∧ s.taken=x)
    (hends : ∀ l d r,s.done=l++d::r → d.ret≤0 → Ends c' l d) : Inv c' := by
  obtain ⟨hfd,htak,hinp⟩ := settle_fd s o (turned ioPost o (dpefdWake f q))
  rw [← heq] at hfd htak hinp
  have hefd : c'.io.fd.efd=(dpefdWake f q).1 := by rw [hfd,turned_efd]
  refine ⟨hio,by rw [htak,hinp,hsent],fun o' m hp => ?_,?_,fun h => ?_,fun x hx => ⟨?_,?_,fun o' m hp => ?_⟩,?_⟩
  · rw [hfd] at hp
    rcases turned_cases ioPost o (dpefdWake f q) with ⟨-,ht⟩ | ⟨-,ht⟩ | ⟨r,-,-,ht⟩
    · rw [ht] at hp
      cases hp
    · rw [ht] at hp
      cases hp
      exact le_refl _
    · rw [ht] at hp
      cases hp
  · rw [hefd]
    exact wake_want hq
  · rw [hefd,wake_able hinva]
    exact hcalm h
  · rw [hefd,wake_able hinva]
    exact (hcut x hx).1
  · rw [htak]
    exact (hcut x hx).2
  · have hret := wake_hangs (q := q) (hcut x hx).1
    rw [hfd] at hp
    rcases turned_cases ioPost o (dpefdWake f q) with ⟨-,ht⟩ | ⟨hpost,-⟩ | ⟨r,-,-,ht⟩
    · rw [ht] at hp
      cases hp
    · rw [hret] at hpost
      cases hpost
    · rw [ht] at hp
      cases hp
  · rw [heq,settle_done]
    rcases turned_cases ioPost o (dpefdWake f q) with ⟨-,ht⟩ | ⟨-,ht⟩ | ⟨r,hr,hne,ht⟩
    · rw [ht]
      simpa using hends
    · rw [ht]
      simpa using hends
    · rw [ht]
      refine ends_append hends fun _ => ?_
      obtain ⟨-,herr,hget⟩ := (dpefdWake_ret hr).2 hne
      rw [hget] at herr
      have hhang := (evtGetErr_iff _).mp herr
      obtain ⟨x,hx⟩ := Option.ne_none_iff_exists'.mp fun h => hcalm h hhang
      refine .inr (.inr (.inr ⟨x,hx,?_,?_⟩))
      · rw [show (⟨o,r,s.stored⟩ : Done α).ret=r from rfl,hget]
        exact evtGetErr_cases hhang
      · rw [← htaken]
        exact (hcut x hx).2

/-- What a post function returns where it does not return a count. -/
theorem turn_fails {want : Evts} {p : PostRet} (h : ioPost.turn want o m r=.ret o p) (hp : p.ret≤0) (h0 : 0≤ m.total)
    (hsmall : m.total+r.res<2^31) (heof : r.res=0 → m.total=0 ∨ o.arg.isMsg=true) :
    (r.res=0 ∧ m.total=0 ∧ p.ret=dpeEof) ∨ (r.res<0 ∧ p.ret=-r.errno) := by
  have hloop : ∀ full eof t,loopTurn full eof want m.total r=(t,some p) →
      (r.res=0 ∧ p.ret=eof m.total) ∨ (r.res<0 ∧ p.ret=-r.errno) := by
    intro full eof t ht
    unfold loopTurn at ht
    split at ht
    · rename_i hpos
      rw [int32_eq (by omega) hsmall] at ht
      split at ht
      · cases ht
        change m.total+r.res≤0 at hp
        omega
      · cases ht
    · split at ht
      · rename_i hz
        cases ht
        exact .inl ⟨hz,rfl⟩
      · rename_i hneg hz
        cases ht
        refine .inr ⟨by omega,if_neg fun hpos => ?_⟩
        change (if 0< m.total then m.total else -(r.errno : ℤ))≤0 at hp
        rw [if_pos hpos] at hp
        omega
  have hturn : ∃ t,o.loop want m.total r=(t,some p) := by
    simp only [ioPost] at h
    split at h
    · rename_i t p' ht
      cases h
      exact ⟨t,ht⟩
    · cases h
  obtain ⟨t,ht⟩ := hturn
  obtain ⟨dir,arg,peek⟩ := o
  cases arg with
  | buf base len =>
    refine (hloop len (fun _ => dpeEof) t ht).imp_left fun hend => ?_
    exact ⟨hend.1,(heof hend.1).resolve_right (by simp [AioArg.isMsg]),hend.2⟩
  | iov iov =>
    refine (hloop _ (fun _ => dpeEof) t ht).imp_left fun hend => ?_
    exact ⟨hend.1,(heof hend.1).resolve_right (by simp [AioArg.isMsg]),hend.2⟩
  | msg iov =>
    refine (hloop _ (fun t => if 0<t then t else dpeEof) t ht).imp_left fun hend => ?_
    obtain ⟨hz,he⟩ := hend
    have hnot : ¬0< m.total := by
      intro hpos
      rw [he,if_pos hpos] at hp
      exact absurd hp (not_le.mpr hpos)
    rw [if_neg hnot] at he
    exact ⟨hz,by omega,he⟩

theorem loop_turn (want : Evts) (r : Call) (o : Io) (t : ℤ) : ∃ full eof,o.loop want t r=loopTurn full eof want t r := by
  obtain ⟨dir,arg,peek⟩ := o
  cases arg with
  | buf base len => exact ⟨len,fun _ => dpeEof,rfl⟩
  | iov iov => exact ⟨int32 (dpiocIovTotal iov),fun _ => dpeEof,rfl⟩
  | msg iov => exact ⟨int32 (dpiocIovTotal iov),fun t => if 0<t then t else dpeEof,rfl⟩

/-- A post function that calls again has got something, and one that returns leaves want_events as they are. -/
theorem turn_goes {want : Evts} {m' : Loop} (h : ioPost.turn want o m r=.call o m') (h0 : 0≤ m.total)
    (hsmall : m.total+r.res<2^31) : 0≤ m'.total := by
  obtain ⟨full,eof,hloop⟩ := loop_turn want r o m.total
  simp only [ioPost,hloop,loopTurn] at h
  split at h
  · cases h
  · rename_i total ht
    cases h
    split at ht
    · rename_i hpos
      obtain ⟨rfl,-⟩ := Prod.mk.inj ht
      rw [int32_eq (by omega) hsmall]
      exact Int.add_nonneg h0 (le_of_lt hpos)
    · split at ht <;> cases ht

theorem turn_want {want : Evts} {p : PostRet} (h : ioPost.turn want o m r=.ret o p) : p.out.want=want := by
  obtain ⟨full,eof,hloop⟩ := loop_turn want r o m.total
  simp only [ioPost,hloop,loopTurn] at h
  split at h
  · rename_i t p' ht
    cases h
    split at ht
    · split at ht <;> cases ht
      rfl
    · split at ht <;> cases ht <;> rfl
  · cases h

theorem posted_want {p : PostRet} (hp : p.out.want=f.want) (hw : ¬hangs f.want) : ¬hangs (dpefdPosted f p).1.want := by
  unfold dpefdPosted
  split
  · simp only
    split
    · rw [hp]
      exact hw
    · exact hw
  · simp [hangs]

theorem move_spec (s : Stream α) (m : Loop) (n : ℕ) (hpeek : o.peek=false) :
    (s.move o m n).taken++(s.move o m n).input=s.taken++s.input ∧ (s.move o m n).fd=s.fd ∧ (s.move o m n).done=s.done := by
  unfold Stream.move
  split
  · simp [hpeek]
  · exact ⟨rfl,rfl,rfl⟩

theorem inv_call (h : Inv c) (hok : orderly c (.call r)) (hu : step c (.call r)=some c') : Inv c' := by
  simp only [step] at hu
  split at hu
  · rename_i hans
    obtain ⟨io,hio,rfl⟩ := Option.map_eq_some_iff.mp hu
    have hpart := hio
    simp only [StreamIo.step] at hio
    split at hio
    · rename_i o m hpend
      have hok : (o.dir=.inp → r.res=0 → m.total=0 ∨ o.arg.isMsg=true) ∧ m.total+r.res<2^31 := by
        simpa only [orderly,running,hpend] using hok
      have hans : answered c o r := by simpa only [running,hpend] using hans
      have hwhole : whole c.io (.call r) := by
        simp only [whole,running,hpend]
        exact fun hdir => ⟨hok.1 hdir,hok.2⟩
      have hinv : StreamIo.Inv io := StreamIo.step_inv (.call r) h.io hwhole hpart
      have hcalm : c.cut=none := by
        refine Option.eq_none_iff_forall_ne_some.mpr fun x hx => ?_
        exact (h.cut x hx).2.2 o m hpend
      have hnocut : ∀ x,c.cut≠some x := fun x hx => by rw [hcalm] at hx; cases hx
      have hheld := h.io.held _ hpend
      have h0 := h.total o m hpend
      split at hio
      · obtain ⟨hsent,hfd,hdone⟩ := move_spec c.io m r.res.toNat hheld.peek
        obtain ⟨hsfd,hstak,hsinp⟩ := settle_fd (c.io.move o m r.res.toNat) o
          (c.io.fd.next ioPost (ioPost.turn c.io.fd.efd.want o m r))
        have hsdone := settle_done (c.io.move o m r.res.toNat) o (c.io.fd.next ioPost (ioPost.turn c.io.fd.efd.want o m r))
        cases hio
        rcases turn_data c.io.fd.efd.want o m r with ⟨m',hturn⟩ | ⟨p,hturn⟩
        · rw [hturn] at hinv hsfd hstak hsinp hsdone ⊢
          refine ⟨hinv,?_,fun o' m'' hp => ?_,?_,fun _ => ?_,fun x hx => (hnocut x hx).elim,?_⟩
          · refine h.sent.trans ?_
            rw [hstak,hsinp,hsent]
          · rw [hsfd] at hp
            cases hp
            exact turn_goes hturn h0 hok.2
          · rw [hsfd]
            exact h.want
          · rw [hsfd]
            exact h.calm hcalm
          · rw [hsdone,hdone]
            simp only [Fd.next,Option.map_none,Option.toList_none,List.append_nil]
            exact h.ends
        · rw [hturn] at hinv hsfd hstak hsinp hsdone ⊢
          have hefd : (c.io.fd.next ioPost (.ret o p)).1.efd=(dpefdPosted c.io.fd.efd p).1 := turned_efd
          refine ⟨hinv,?_,fun o' m'' hp => ?_,?_,fun _ => ?_,fun x hx => (hnocut x hx).elim,?_⟩
          · refine h.sent.trans ?_
            rw [hstak,hsinp,hsent]
          · rw [hsfd,Fd.next] at hp
            rcases turned_cases ioPost o (dpefdPosted c.io.fd.efd p) with ⟨-,ht⟩ | ⟨-,ht⟩ | ⟨z,-,-,ht⟩
            all_goals rw [ht] at hp; cases hp
            exact le_refl _
          · rw [hsfd,hefd]
            exact posted_want (turn_want hturn) h.want
          · rw [hsfd,hefd]
            exact fun hh => h.calm hcalm (hangs_mono dpefdPosted_able hh)
          · rw [hsdone,hdone]
            simp only [Fd.next]
            rcases turned_cases ioPost o (dpefdPosted c.io.fd.efd p) with ⟨-,ht⟩ | ⟨-,ht⟩ | ⟨z,hz,hne,ht⟩
            · simp only [ht,Option.map_none,Option.toList_none,List.append_nil]
              exact h.ends
            · simp only [ht,Option.map_none,Option.toList_none,List.append_nil]
              exact h.ends
            · rw [ht]
              refine ends_append h.ends fun hle => ?_
              have hzp : z=p.ret := (dpefdPosted_ret hz).1
              have hle : p.ret≤0 := hzp ▸ hle
              rcases turn_fails hturn hle h0 hok.2 (fun hzero => hok.1 (hans.1 hzero).1 hzero) with ⟨hzero,htot,heof⟩ | ⟨hneg,hret⟩
              · obtain ⟨hdir,hinput,hfin⟩ := hans.1 hzero
                refine .inl ⟨hdir,hzp.trans heof,hfin,?_⟩
                have hnil : c.io.stored=[] := by
                  have hlen := (h.io.runs o m hpend hdir).total
                  rw [htot] at hlen
                  exact List.length_eq_zero_iff.mp (by exact_mod_cast hlen.symm)
                have htaken := h.io.taken
                rw [hnil] at htaken
                refine Eq.symm (h.sent.trans ?_)
                rw [hinput,htaken]
                simp
              · refine .inr (.inr (.inl ((hans.2 hneg).2 ?_)))
                rw [← hret,← hzp]
                exact hne
      · cases hio
    · cases hio
  · cases hu

theorem hangs_union (a b : Evts) : hangs (a∪b) ↔ hangs a ∨ hangs b := by
  simp only [hangs,Finset.mem_union]
  tauto

theorem stored_nil {s : Stream α} (h : StreamIo.Inv s) (hp : ∀ o m,s.fd.pend≠some ⟨o,some m⟩) :
    s.stored=[] ∧ s.taken=s.done.flatMap Done.reported := by
  have hnil : s.stored=[] := by
    cases hpend : s.fd.pend with
    | none => exact h.idle hpend
    | some x =>
      obtain ⟨o,run⟩ := x
      cases run with
      | none => exact h.waits o hpend
      | some m => exact (hp o m hpend).elim
  refine ⟨hnil,h.taken.trans ?_⟩
  rw [hnil]
  exact List.append_nil _

theorem inv_add {o : Io} (h : Inv c) (hok : orderly c (.add o)) (hu : step c (.add o)=some c') : Inv c' := by
  obtain ⟨io,hio,rfl⟩ := Option.map_eq_some_iff.mp (show (StreamIo.step c.io (.add o)).map _=some c' from hu)
  have hinv : StreamIo.Inv io := StreamIo.step_inv (.add o) h.io hok hio
  simp only [StreamIo.step] at hio
  split at hio
  · rename_i hpend
    obtain ⟨hnil,htaken⟩ := stored_nil h.io fun o m hp => by rw [hpend] at hp; cases hp
    split at hio
    · cases hio
      refine inv_woken hinv rfl htaken h.sent ?_ rfl h.calm (fun x hx => ?_) h.ends
      · cases o.dir <;> simp [hangs,Dir.evt]
      · exact ⟨(h.cut x hx).1,(h.cut x hx).2.1⟩
    · rename_i hprep
      cases hio
      exact ⟨hinv,h.sent,h.total,h.want,h.calm,h.cut,ends_append h.ends fun _ => .inr (.inl ⟨hprep,rfl⟩)⟩
  · cases hio
    exact h

theorem inv_event {e : Harvest} (h : Inv c) (hu : step c (.event e)=some c') : Inv c' := by
  simp only [step] at hu
  split at hu
  · obtain ⟨io,hio,rfl⟩ := Option.map_eq_some_iff.mp hu
    have hinv : StreamIo.Inv io := StreamIo.step_inv (.feed e.bits) h.io trivial hio
    have hcut : ∀ x,c.cut=some x → c.cutBy e.bits=some x := by
      intro x hx
      rw [Conn.cutBy,hx]
      split <;> rfl
    have hcalm : c.cutBy e.bits=none → ¬hangs (c.io.fd.feedBits e.bits).able := by
      intro hnone
      unfold Conn.cutBy at hnone
      split at hnone
      · cases hc : c.cut <;> rw [hc] at hnone <;> cases hnone
      · rename_i hb
        rw [Fd.feedBits,hangs_union]
        exact not_or.mpr ⟨h.calm hnone,hb⟩
    have htak : ∀ x,c.cutBy e.bits=some x → hangs (c.io.fd.feedBits e.bits).able ∧ c.io.taken=x := by
      intro x hx
      rw [Fd.feedBits,hangs_union]
      cases hc : c.cut with
      | some y =>
        rw [hcut y hc] at hx
        cases hx
        exact ⟨.inl (h.cut _ hc).1,(h.cut _ hc).2.1⟩
      | none =>
        rw [Conn.cutBy,hc] at hx
        split at hx
        · rename_i hb
          exact ⟨.inr hb,Option.some.inj hx⟩
        · cases hx
    have hends : ∀ l d r',c.io.done=l++d::r' → d.ret≤0 → Ends {c with cut := c.cutBy e.bits} l d :=
      fun l d r' hd hle => (h.ends l d r' hd hle).mono (fun hf => ⟨hf,rfl⟩) id hcut
    simp only [StreamIo.step] at hio
    split at hio
    · rename_i hpend
      obtain ⟨y,hy,rfl⟩ := Option.map_eq_some_iff.mp hio
      rcases feed_cases hy with ⟨-,rfl⟩ | ⟨d,hd,-⟩
      · exact ⟨hinv,h.sent,fun _ _ hp => (by cases hp),h.want,hcalm,
          fun x hx => ⟨(htak x hx).1,(htak x hx).2,fun _ _ hp => (by cases hp)⟩,hends⟩
      · rw [hpend] at hd
        cases hd
    · rename_i o run hpend
      obtain ⟨y,hy,rfl⟩ := Option.map_eq_some_iff.mp hio
      rcases feed_cases hy with ⟨hno,-⟩ | ⟨d,hd,hcase⟩
      · rw [hpend] at hno
        cases hno
      · have hod : (⟨o,run⟩ : Pend Io Loop)=⟨d,none⟩ := Option.some.inj (hpend.symm.trans hd)
        cases hod
        obtain ⟨-,htaken⟩ := stored_nil h.io fun o' m hp => by rw [hpend] at hp; cases hp
        rcases hcase with rfl | rfl
        · exact ⟨hinv,h.sent,fun _ _ hp => (by cases hp),h.want,hcalm,
            fun x hx => ⟨(htak x hx).1,(htak x hx).2,fun _ _ hp => (by cases hp)⟩,hends⟩
        · exact inv_woken hinv rfl htaken h.sent h.want rfl hcalm htak hends
  · cases hu

theorem step_inv (a : Act α) (h : Inv c) (hok : orderly c a) (hu : step c a=some c') : Inv c' := by
  cases a with
  | send x =>
    simp only [step] at hu
    split at hu
    · rename_i hopen
      cases hu
      refine ⟨StreamIo.step_inv (.arrive x) h.io trivial rfl,?_,h.total,h.want,h.calm,h.cut,fun l d r hd hle => ?_⟩
      · simp [h.sent]
      · refine (h.ends l d r hd hle).mono (fun hf => ?_) id fun _ => id
        rw [hopen.1] at hf
        cases hf
    · cases hu
  | close =>
    cases hu
    exact ⟨h.io,h.sent,h.total,h.want,h.calm,h.cut,
      fun l d r hd hle => (h.ends l d r hd hle).mono (fun _ => ⟨rfl,rfl⟩) id fun _ => id⟩
  | fail =>
    cases hu
    exact ⟨h.io,h.sent,h.total,h.want,h.calm,h.cut,
      fun l d r hd hle => (h.ends l d r hd hle).mono (fun hf => ⟨hf,rfl⟩) (fun _ => rfl) fun _ => id⟩
  | add o => exact inv_add h hok hu
  | call r => exact inv_call h hok hu
  | event e => exact inv_event h hu

/-- How reads and writes end, in whatever order the peer's bytes, its close and the events come: `untouched` says that
nothing is taken once a hang-up has been fed. -/
structure HalfClosed (c : Conn α) : Prop where
  sent : c.sent=c.io.taken++c.io.input
  obtained : (∀ o m,c.io.fd.pend≠some ⟨o,some m⟩) → c.io.done.flatMap Done.reported=c.io.taken
  ends : ∀ l d r,c.io.done=l++d::r → d.ret≤0 → Ends c l d
  untouched : ∀ x,c.cut=some x → c.io.taken=x

end Steps

instance (c : Conn α) : (a : Act α) → Decidable (orderly c a)
  | .add o => inferInstanceAs (Decidable (o.peek=false))
  | .call _ => inferInstanceAs (Decidable (running _ _))
  | .send _ | .close | .fail | .event _ => .isTrue trivial

/-- The peer sends four bytes and closes; the hang-up comes once two of them have been read, and a write after it. -/
def cutShort : List (Act ℕ) :=
  [.send [1,2],.add (dpgfdRead 100 2),.event ⟨{.inp,.out},false⟩,.call ⟨2,0⟩,.send [3,4],.close,.event ⟨{.inp},true⟩,
    .add (dpgfdRead 100 2),.add (dpgfdWrite 200 1)]

/-- Three bytes and the peer's close arrive in one event; then a read and a write. -/
def mergedEvent : List (Act ℕ) :=
  [.send [1,2,3],.close,.event ⟨{.inp,.out},true⟩,.add (dpgfdRead 100 8),.add (dpgfdWrite 200 1)]

end Dpapp.HalfClose
