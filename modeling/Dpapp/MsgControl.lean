import Dpapp.EfdRun
import Dpapp.StreamIo

/-! # Control data of sendmsg and recvmsg (os/linux/dpasc_epoll.c)

`_dpaio_msg_post` call by call, with the fields of a msghdr that the kernel reads and writes. -/

namespace Dpapp.MsgControl
open Dpapp.Machine Dpapp.Ret Dpapp.EfdWake Dpapp.EfdIo Dpapp.EfdRun
open Dpapp.StreamIo (Call Iovec Dir locs int32 dpiocIovTotal dpiocIovAdvance dpaioMsgPost)

/- `buf` is the memory at msg_control. -/
structure Msghdr (β : Type*) where
  buf : List β
  controllen : ℕ
  namelen : ℕ
  flags : ℤ
  deriving DecidableEq

variable {β : Type*}

def Msghdr.control (h : Msghdr β) : List β := h.buf.take h.controllen

/-- dpaio_arg_t of `_dpskt_recvmsg_prep` and `_dpskt_sendmsg_prep`; a null pointer has no segment. -/
structure MsgIo (β : Type*) where
  dir : Dir
  iov : List Iovec
  hdr : Msghdr β

def dpsktRecvmsg (iov : List Iovec) (hdr : Msghdr β) : MsgIo β := ⟨.inp,iov,hdr⟩
def dpsktSendmsg (iov : List Iovec) (hdr : Msghdr β) : MsgIo β := ⟨.out,iov,hdr⟩

def MsgIo.total (o : MsgIo β) : ℤ := int32 (dpiocIovTotal o.iov)

def MsgIo.prep (o : MsgIo β) : Dpret := if o.total=0 then dpeInval else dpeContinue

/-- What a call returns, and what recvmsg reports where it does not fail. -/
structure Reply (β : Type*) where
  res : ℤ
  errno : ℕ := 0
  ctl : List β := []
  namelen : ℕ := 0
  flags : ℤ := 0

/-- msg_work after a call: sendmsg leaves it alone, and recvmsg unless it fails writes what it has received. -/
def Msghdr.reply (dir : Dir) (h : Msghdr β) (r : Reply β) : Msghdr β :=
  if dir=.inp ∧ 0≤r.res then ⟨r.ctl++h.buf.drop r.ctl.length,r.ctl.length,r.namelen,r.flags⟩ else h

/-- The local variables of `_dpaio_msg_post`; `work` and `iov` are msg_work. -/
structure Loop (β : Type*) where
  total : ℤ := 0
  iov : List Iovec
  work : Msghdr β

/-- `_dpaio_msg_post`; at its end the fields are written back to the caller's msghdr. -/
def msgPost : Post (MsgIo β) (Loop β) (Reply β) where
  enter o := ⟨0,o.iov,o.hdr⟩
  turn want o m r :=
    let work := m.work.reply o.dir r
    match dpaioMsgPost o.total want m.total ⟨r.res,r.errno⟩ with
    | (total,none) => .call o ⟨total,dpiocIovAdvance m.iov r.res.toNat,work⟩
    | (_,some p) => .ret {o with hdr := work} p

/-- A call, and the msghdr that it has got. -/
structure Issued (β : Type*) where
  offered : Msghdr β
  reply : Reply β

/- `sent` is the number of bytes that the kernel has accepted; `handed` is the control data that it has got, each with the
byte that it goes with. History: `calls`. -/
structure Net (β : Type*) where
  sent : ℕ := 0
  handed : List (ℕ × List β) := []
  calls : List (Issued β) := []

/-- sendmsg takes the control data with the first byte that it accepts; recvmsg delivers what there is room for, and none
without a byte. -/
def kernel (w : Net β) (o : MsgIo β) (m : Loop β) (r : Reply β) : Option (Net β × Reply β) :=
  let w' := {w with calls := w.calls++[⟨m.work,r⟩]}
  if r.res≤(locs m.iov).length ∧ (r.res<0 → 0<r.errno) ∧ r.ctl.length≤ m.work.controllen ∧ (r.res=0 → r.ctl=[]) then
    match o.dir with
    | .inp => some (w',r)
    | .out =>
        if 0<r.res then
          some ({w' with sent := w.sent+r.res.toNat, handed := if m.work.control=[] then w.handed
                           else w.handed++[(w.sent,m.work.control)]},r)
        else some (w',r)
  else none

def sem : Sem (MsgIo β) (Loop β) (Reply β) (Net β) (Reply β) Unit where
  prep := MsgIo.prep
  want o := {o.dir.evt}
  post := msgPost
  kernel := kernel
  env w _ := w

/-! ### What an operation owes its caller -/

/-- The calls that an operation has made, those that have not failed, and those whose bytes it reports. -/
def made (x : Ended (MsgIo β) (Net β)) : List (Issued β) := x.after.calls.drop x.before.calls.length

def successes (x : Ended (MsgIo β) (Net β)) : List (Reply β) := ((made x).map (·.reply)).filter fun r => 0≤r.res

def reported (x : Ended (MsgIo β) (Net β)) : List (Reply β) := ((made x).map (·.reply)).filter fun r => 0<r.res

/-- sendmsg: the control data has gone with the first byte, and never again. -/
def Handed (x : Ended (MsgIo β) (Net β)) : Prop :=
  x.after.handed=if x.op.hdr.control=[] then x.before.handed else x.before.handed++[(x.before.sent,x.op.hdr.control)]

/-- recvmsg: each call has got all of the caller's room, and the caller gets what each call has reported. -/
structure Given (x : Ended (MsgIo β) (Net β)) : Prop where
  offered : ∀ c∈made x,c.offered.controllen=x.op.hdr.controllen ∧ c.offered.namelen=x.op.hdr.namelen
  control : reported x≠[] → x.left.hdr.control=(reported x).flatMap (·.ctl)
  fields : ∀ r∈reported x,r.flags=x.left.hdr.flags ∧ r.namelen=x.left.hdr.namelen

/-- The reply leaves the room as it is: it fills it. -/
def fills (h : Msghdr β) (r : Reply β) : Prop := r.ctl.length=h.controllen ∧ r.namelen=h.namelen

/-- The calls before the last one fail, or fill the room; and one call succeeds at most, or there is no room for control
data and the calls that succeed report the same. -/
structure Single (x : Ended (MsgIo β) (Net β)) : Prop where
  fills : ∀ r∈((made x).map (·.reply)).dropLast,0≤r.res → fills x.op.hdr r
  one : (successes x).length≤1 ∨ x.op.hdr.controllen=0 ∧
    ∀ r∈successes x,∀ q∈successes x,r.flags=q.flags ∧ r.namelen=q.namelen

def Fine (x : Ended (MsgIo β) (Net β)) : Prop :=
  (x.op.dir=.inp → (Given x ↔ Single x)) ∧
    (x.op.dir=.out → x.before.sent<x.after.sent → (Handed x ↔ x.op.hdr.control=[] ∨ (reported x).length≤1))

/-- The calls with these replies, each of which gets the msghdr that the one before has left. -/
def issue (dir : Dir) (h : Msghdr β) : List (Reply β) → List (Issued β)
  | [] => []
  | r::l => ⟨h,r⟩::issue dir (h.reply dir r) l

section Chain
variable {dir : Dir} {h : Msghdr β} {l : List (Reply β)} {r : Reply β}

theorem issue_append : issue dir h (l++[r])=issue dir h l++[⟨l.foldl (Msghdr.reply dir) h,r⟩] := by
  induction l generalizing h with
  | nil => rfl
  | cons q l ih =>
    rw [List.cons_append,issue,ih]
    rfl

theorem issue_reply : (issue dir h l).map (·.reply)=l := by
  induction l generalizing h with
  | nil => rfl
  | cons q l ih =>
    rw [issue,List.map_cons,ih]

theorem reply_fails (hr : ¬0≤r.res) : h.reply dir r=h := if_neg fun hx => hr hx.2

theorem reply_inp (hr : 0≤r.res) : h.reply .inp r=⟨r.ctl++h.buf.drop r.ctl.length,r.ctl.length,r.namelen,r.flags⟩ :=
  if_pos ⟨rfl,hr⟩

theorem reply_out : h.reply .out r=h := if_neg fun hx => by cases hx.1

theorem fold_out : l.foldl (Msghdr.reply .out) h=h := by
  induction l with
  | nil => rfl
  | cons q l ih =>
    rw [List.foldl_cons,reply_out]
    exact ih

/-- Each call gets the whole room if those before it have filled it. -/
theorem offered_iff {h' : Msghdr β} (hsame : h'.controllen=h.controllen ∧ h'.namelen=h.namelen) :
    (∀ c∈issue .inp h' l,c.offered.controllen=h.controllen ∧ c.offered.namelen=h.namelen) ↔
      ∀ r∈l.dropLast,0≤r.res → fills h r := by
  induction l generalizing h' with
  | nil => exact iff_of_true (fun _ hc => by cases hc) fun _ hr => by cases hr
  | cons q l ih =>
    cases l with
    | nil =>
      refine iff_of_true (fun c hc => ?_) fun _ hr => by cases hr
      cases List.mem_singleton.mp hc
      exact hsame
    | cons p l =>
      rw [List.dropLast_cons_of_ne_nil (List.cons_ne_nil p l)]
      by_cases hq : 0≤q.res
      · have hnext : (h'.reply .inp q).controllen=q.ctl.length ∧ (h'.reply .inp q).namelen=q.namelen := by
          rw [reply_inp hq]
          exact ⟨rfl,rfl⟩
        constructor
        · intro hall
          have hfill : fills h q := by
            have hp := hall ⟨h'.reply .inp q,p⟩ (List.mem_cons_of_mem _ List.mem_cons_self)
            exact ⟨hnext.1.symm.trans hp.1,hnext.2.symm.trans hp.2⟩
          have hrest := (ih ⟨hnext.1.trans hfill.1,hnext.2.trans hfill.2⟩).mp fun c hc =>
            hall c (List.mem_cons_of_mem _ hc)
          intro r hr hres
          rcases List.mem_cons.mp hr with rfl | hr
          · exact hfill
          · exact hrest r hr hres
        · intro hall
          have hfill := hall q List.mem_cons_self hq
          have hrest := (ih ⟨hnext.1.trans hfill.1,hnext.2.trans hfill.2⟩).mpr fun r hr =>
            hall r (List.mem_cons_of_mem _ hr)
          intro c hc
          rcases List.mem_cons.mp hc with rfl | hc
          · exact hsame
          · exact hrest c hc
      · have hnext : h'.reply .inp q=h' := reply_fails hq
        have hrest := ih hsame
        rw [issue,hnext]
        constructor
        · intro hall r hr hres
          rcases List.mem_cons.mp hr with rfl | hr
          · exact absurd hres hq
          · exact hrest.mp (fun c hc => hall c (List.mem_cons_of_mem _ hc)) r hr hres
        · intro hall c hc
          rcases List.mem_cons.mp hc with rfl | hc
          · exact hsame
          · exact hrest.mpr (fun r hr => hall r (List.mem_cons_of_mem _ hr)) c hc

/-- What the caller's msghdr holds is what the last call has reported that has not failed. -/
theorem fold_last {f : Reply β} (hf : (l.filter fun r => 0≤r.res).getLast? =some f) :
    (l.foldl (Msghdr.reply .inp) h).control=f.ctl ∧ (l.foldl (Msghdr.reply .inp) h).flags=f.flags ∧
      (l.foldl (Msghdr.reply .inp) h).namelen=f.namelen := by
  induction l using List.reverseRecOn with
  | nil => cases hf
  | append_singleton l q ih =>
    rw [List.filter_append] at hf
    rw [List.foldl_append,List.foldl_cons,List.foldl_nil]
    by_cases hq : 0≤q.res
    · have hlast : q=f := by simpa [hq] using hf
      rw [reply_inp hq,← hlast]
      exact ⟨List.take_left,rfl,rfl⟩
    · rw [reply_fails hq]
      exact ih (by simpa [hq] using hf)

/-- Calls that report no byte have no control data. -/
theorem reported_ctl (hctl : ∀ r∈l,r.res=0 → r.ctl=[]) :
    (l.filter fun r => 0<r.res).flatMap (·.ctl)=(l.filter fun r => 0≤r.res).flatMap (·.ctl) := by
  induction l with
  | nil => rfl
  | cons q l ih =>
    have hrest := ih fun r hr => hctl r (List.mem_cons_of_mem q hr)
    rcases Int.lt_trichotomy q.res 0 with hq | hq | hq
    · rw [List.filter_cons_of_neg (by simpa using hq.le),List.filter_cons_of_neg (by simpa using hq)]
      exact hrest
    · rw [List.filter_cons_of_neg (by simp [hq]),List.filter_cons_of_pos (by simp [hq]),List.flatMap_cons,
        hctl q List.mem_cons_self hq]
      exact hrest
    · rw [List.filter_cons_of_pos (by simpa using hq),List.filter_cons_of_pos (by simpa using hq.le),List.flatMap_cons,
        List.flatMap_cons,hrest]

end Chain

section Recv
variable {h : Msghdr β} {l p : List (Reply β)} {f : Reply β}

/-- The calls that succeed before the last one of them are not the last call. -/
theorem before_last (hp : (l.filter fun r => 0≤r.res)=p++[f]) : ∀ r∈p,r∈ l.dropLast ∧ 0≤r.res := by
  intro r hr
  rcases List.eq_nil_or_concat l with rfl | ⟨l,q,rfl⟩
  · have := congrArg List.length hp
    simp at this
  · rw [List.concat_eq_append] at hp ⊢
    rw [List.dropLast_concat]
    rw [List.filter_append] at hp
    have hmem : r∈l.filter fun r => 0≤r.res := by
      by_cases hq : 0≤q.res
      · rw [List.filter_cons_of_pos (by simpa using hq),List.filter_nil] at hp
        rw [(List.append_inj' hp rfl).1]
        exact hr
      · rw [List.filter_cons_of_neg (by simpa using hq),List.filter_nil,List.append_nil] at hp
        rw [hp]
        exact List.mem_append_left _ hr
    have hboth := List.mem_filter.mp hmem
    exact ⟨hboth.1,of_decide_eq_true hboth.2⟩

/-- recvmsg, by the replies that it has got. -/
theorem given_iff {x : Ended (MsgIo β) (Net β)} (hop : x.op.hdr=h) (hmade : made x=issue .inp h l)
    (hleft : x.left.hdr=l.foldl (Msghdr.reply .inp) h) (hz : ∀ r∈l.dropLast,r.res≠0)
    (hctl : ∀ r∈l,r.res=0 → r.ctl=[]) : Given x ↔ Single x := by
  have hreplies : (made x).map (·.reply)=l := by rw [hmade,issue_reply]
  have hsucc : successes x=l.filter fun r => 0≤r.res := by rw [successes,hreplies]
  have hrep : reported x=l.filter fun r => 0<r.res := by rw [reported,hreplies]
  have hoffer : (∀ c∈made x,c.offered.controllen=x.op.hdr.controllen ∧ c.offered.namelen=x.op.hdr.namelen) ↔
      ∀ r∈((made x).map (·.reply)).dropLast,0≤r.res → fills x.op.hdr r := by
    rw [hreplies,hmade,hop]
    exact offered_iff ⟨rfl,rfl⟩
  rcases List.eq_nil_or_concat (l.filter fun r => 0≤r.res) with hnil | ⟨p,f,hlast⟩
  · have hnone : l.filter (fun r => 0<r.res)=[] := by
      refine List.filter_eq_nil_iff.mpr fun r hr hpos => ?_
      have hpos : 0<r.res := of_decide_eq_true hpos
      exact List.filter_eq_nil_iff.mp hnil r hr (by simpa using hpos.le)
    constructor
    · intro hx
      exact ⟨hoffer.mp hx.offered,.inl (by rw [hsucc,hnil]; exact Nat.zero_le 1)⟩
    · intro hx
      refine ⟨hoffer.mpr hx.fills,fun hne => absurd (hrep.trans hnone) hne,fun r hr => ?_⟩
      rw [hrep,hnone] at hr
      cases hr
  · rw [List.concat_eq_append] at hlast
    obtain ⟨hcontrol,hflags,hname⟩ := fold_last (h := h) (f := f) (by rw [hlast,List.getLast?_append]; rfl)
    have hbefore := before_last hlast
    -- what the caller gets is the reply `f`
    have hflat : (reported x).flatMap (·.ctl)=p.flatMap (·.ctl)++f.ctl := by
      rw [hrep,reported_ctl hctl,hlast,List.flatMap_append,List.flatMap_cons,List.flatMap_nil,List.append_nil]
    have hpos : ∀ r∈p,0<r.res := fun r hr =>
      lt_of_le_of_ne (hbefore r hr).2 (Ne.symm (hz r (hbefore r hr).1))
    have hrepp : ∀ r∈p,r∈reported x := by
      intro r hr
      rw [hrep]
      exact List.mem_filter.mpr ⟨List.mem_of_mem_dropLast (hbefore r hr).1,decide_eq_true (hpos r hr)⟩
    have hrepf : ∀ r∈reported x,r∈p ∨ r=f := by
      intro r hr
      rw [hrep] at hr
      obtain ⟨hr,hres⟩ := List.mem_filter.mp hr
      have hmem : r∈l.filter fun r => 0≤r.res := List.mem_filter.mpr ⟨hr,by simpa using (of_decide_eq_true hres : 0<r.res).le⟩
      rw [hlast] at hmem
      rcases List.mem_append.mp hmem with hr | hr
      · exact .inl hr
      · exact .inr (List.mem_singleton.mp hr)
    constructor
    · intro hx
      have hfill := hoffer.mp hx.offered
      refine ⟨hfill,?_⟩
      rw [hsucc,hlast]
      cases hp : p with
      | nil => exact .inl (Nat.le_refl 1)
      | cons q p' =>
        refine .inr ⟨?_,?_⟩
        · have hq : q∈p := hp ▸ List.mem_cons_self
          have hne : reported x≠[] := List.ne_nil_of_mem (hrepp q hq)
          have heq := hx.control hne
          rw [hleft,hcontrol,hflat] at heq
          have hlen := congrArg List.length heq
          rw [hp,List.length_append,List.flatMap_cons,List.length_append] at hlen
          have hqfill := hfill q (by rw [hreplies]; exact (hbefore q hq).1) (hbefore q hq).2
          rw [← hqfill.1]
          omega
        · have hsame : ∀ r∈p++[f],r.flags=f.flags ∧ r.namelen=f.namelen := by
            intro r hr
            rcases List.mem_append.mp hr with hr | hr
            · have hfield := hx.fields r (hrepp r hr)
              rw [hleft,hflags,hname] at hfield
              exact hfield
            · rw [List.mem_singleton.mp hr]
              exact ⟨rfl,rfl⟩
          intro r hr q' hq'
          rw [← hp] at hr hq'
          exact ⟨(hsame r hr).1.trans (hsame q' hq').1.symm,(hsame r hr).2.trans (hsame q' hq').2.symm⟩
    · intro hx
      have hone := hx.one
      rw [hsucc,hlast] at hone
      refine ⟨hoffer.mpr hx.fills,fun _ => ?_,fun r hr => ?_⟩
      · rw [hleft,hcontrol,hflat]
        have hempty : p.flatMap (·.ctl)=[] := by
          rcases hone with hone | ⟨hzero,-⟩
          · rw [List.length_append,List.length_singleton] at hone
            rw [List.length_eq_zero_iff.mp (by omega : p.length=0)]
            rfl
          · refine List.flatMap_eq_nil_iff.mpr fun r hr => List.length_eq_zero_iff.mp ?_
            have hfill := hx.fills r (by rw [hreplies]; exact (hbefore r hr).1) (hbefore r hr).2
            rw [hfill.1,hzero]
        rw [hempty,List.nil_append]
      · rw [hleft,hflags,hname]
        rcases hrepf r hr with hr | rfl
        · rcases hone with hone | ⟨-,hsame⟩
          · rw [List.length_append,List.length_singleton] at hone
            rw [List.length_eq_zero_iff.mp (by omega : p.length=0)] at hr
            cases hr
          · exact hsame r (List.mem_append_left _ hr) f (List.mem_append_right _ (List.mem_singleton_self f))
        · exact ⟨rfl,rfl⟩

end Recv

/-! ### The rule -/

/-- What the calls with these replies have done. -/
structure Held (b : MsgIo β × Net β) (l : List (Reply β)) (w : Net β) : Prop where
  calls : w.calls=b.2.calls++issue b.1.dir b.1.hdr l
  ctl : ∀ r∈l,r.res=0 → r.ctl=[]
  none : b.1.dir=.out → l.filter (fun r => 0<r.res)=[] → w.sent=b.2.sent ∧ w.handed=b.2.handed
  some : b.1.dir=.out → l.filter (fun r => 0<r.res)≠[] → b.2.sent<w.sent ∧
    ∃ t : List (ℕ × List β),t.length+1=(l.filter fun r => 0<r.res).length ∧
      w.handed=b.2.handed++if b.1.hdr.control=[] then [] else (b.2.sent,b.1.hdr.control)::t

def Wait (b : MsgIo β × Net β) (o : MsgIo β) (w : Net β) : Prop :=
  ∃ l,Held b l w ∧ o={b.1 with hdr := l.foldl (Msghdr.reply b.1.dir) b.1.hdr} ∧ ∀ r∈l,r.res≠0

def Runs (b : MsgIo β × Net β) (o : MsgIo β) (m : Loop β) (w : Net β) : Prop :=
  ∃ l,Held b l w ∧ o={b.1 with hdr := o.hdr} ∧ m.work=l.foldl (Msghdr.reply b.1.dir) b.1.hdr ∧ ∀ r∈l,r.res≠0

section Rules
variable {b : MsgIo β × Net β} {o : MsgIo β} {m : Loop β} {l : List (Reply β)} {w w' : Net β} {r : Reply β}

theorem held_start : Held (o,w) [] w where
  calls := (List.append_nil _).symm
  ctl _ hr := by cases hr
  none _ _ := ⟨rfl,rfl⟩
  some _ hne := absurd rfl hne

theorem filter_last (hr : ¬0<r.res) : (l++[r]).filter (fun r => 0<r.res)=l.filter fun r => 0<r.res := by
  rw [List.filter_append,List.filter_cons_of_neg (by simpa using hr),List.filter_nil,List.append_nil]

theorem filter_more (hr : 0<r.res) : (l++[r]).filter (fun r => 0<r.res)=(l.filter fun r => 0<r.res)++[r] := by
  rw [List.filter_append,List.filter_cons_of_pos (by simpa using hr),List.filter_nil]

/-- One more call. -/
theorem held_call {c : Reply β} (h : Held b l w) (hdir : o.dir=b.1.dir) (hwork : m.work=l.foldl (Msghdr.reply b.1.dir) b.1.hdr)
    (hk : kernel w o m r=some (w',c)) : c=r ∧ Held b (l++[r]) w' := by
  obtain ⟨⟨-,-,-,hctl⟩,hk⟩ := Option.ite_none_right_eq_some.mp hk
  have hcalls : w.calls++[⟨m.work,r⟩]=b.2.calls++issue b.1.dir b.1.hdr (l++[r]) := by
    rw [h.calls,List.append_assoc,issue_append,hwork]
  have hctl : ∀ q∈l++[r],q.res=0 → q.ctl=[] := by
    intro q hq
    rcases List.mem_append.mp hq with hq | hq
    · exact h.ctl q hq
    · rw [List.mem_singleton.mp hq]
      exact hctl
  cases hd : b.1.dir with
  | inp =>
    rw [hdir,hd] at hk
    cases hk
    exact ⟨rfl,hcalls,hctl,fun hx => absurd (hd.symm.trans hx) Dir.noConfusion,fun hx => absurd (hd.symm.trans hx) Dir.noConfusion⟩
  | out =>
    have hsame : m.work=b.1.hdr := by
      rw [hwork,hd]
      exact fold_out
    have hcalls' : w.calls++[⟨b.1.hdr,r⟩]=b.2.calls++issue b.1.dir b.1.hdr (l++[r]) := by
      rw [← hcalls,hsame]
    rw [hdir,hd,hsame] at hk
    by_cases hr : 0<r.res
    · simp only [if_pos hr] at hk
      cases hk
      refine ⟨rfl,hcalls',hctl,fun _ hnil => ?_,fun _ _ => ⟨?_,?_⟩⟩
      · rw [filter_more hr] at hnil
        exact absurd hnil (List.append_ne_nil_of_right_ne_nil _ (List.cons_ne_nil _ _))
      · by_cases hnil : l.filter (fun r => 0<r.res)=[]
        · rw [(h.none hd hnil).1]
          exact Nat.lt_add_of_pos_right (by omega)
        · exact Nat.lt_add_right _ (h.some hd hnil).1
      · by_cases hnil : l.filter (fun r => 0<r.res)=[]
        · obtain ⟨hsent,hhanded⟩ := h.none hd hnil
          refine ⟨[],by rw [filter_more hr,hnil]; rfl,?_⟩
          simp only [hsent,hhanded]
          split
          · rw [List.append_nil]
          · rfl
        · obtain ⟨-,t,ht,hhanded⟩ := h.some hd hnil
          refine ⟨t++[(w.sent,b.1.hdr.control)],by rw [filter_more hr,List.length_append,List.length_append,← ht]; rfl,?_⟩
          simp only [hhanded]
          split
          · rfl
          · rw [List.append_assoc]
            rfl
    · simp only [if_neg hr] at hk
      cases hk
      refine ⟨rfl,hcalls',hctl,fun hx hnil => ?_,fun hx hne => ?_⟩
      · rw [filter_last hr] at hnil
        exact h.none hx hnil
      · rw [filter_last hr] at hne ⊢
        exact h.some hx hne

/-- An operation is over. -/
theorem held_fine {ret : Dpret} (h : Held b l w) (hleft : o.hdr=l.foldl (Msghdr.reply b.1.dir) b.1.hdr)
    (hz : ∀ r∈l.dropLast,r.res≠0) : Fine ⟨b.1,o,ret,b.2,w⟩ := by
  have hdrop : w.calls.drop b.2.calls.length=issue b.1.dir b.1.hdr l := by rw [h.calls,List.drop_left]
  refine ⟨fun hd => ?_,fun hd hsent => ?_⟩
  · rw [hd] at hdrop hleft
    exact given_iff rfl hdrop hleft hz h.ctl
  · have hrep : reported ⟨b.1,o,ret,b.2,w⟩=l.filter fun r => 0<r.res := by rw [reported,made,hdrop,issue_reply]
    rw [hrep]
    by_cases hnil : l.filter (fun r => 0<r.res)=[]
    · rw [(h.none hd hnil).1] at hsent
      exact absurd hsent (Nat.lt_irrefl _)
    · obtain ⟨-,t,ht,hhanded⟩ := h.some hd hnil
      rw [Handed,hhanded]
      by_cases hctl : b.1.hdr.control=[]
      · rw [if_pos hctl,if_pos hctl,List.append_nil]
        exact iff_of_true rfl (.inl hctl)
      · rw [if_neg hctl,if_neg hctl,or_iff_right hctl,← ht]
        constructor
        · intro heq
          have hlen := congrArg List.length (List.append_cancel_left heq)
          rw [List.length_cons,List.length_singleton] at hlen
          omega
        · intro hle
          rw [List.length_eq_zero_iff.mp (by omega : t.length=0)]

theorem rule : Rule sem (Wait (β := β)) Runs Fine where
  add o w _ := ⟨[],held_start,rfl,fun _ hr => by cases hr⟩
  refuse o w _ := held_fine (b := (o,w)) held_start rfl fun _ hr => by cases hr
  waits _ _ _ _ h := h
  runs _ _ _ _ _ h := h
  enter b o w h := by
    obtain ⟨l,h,ho,hz⟩ := h
    refine ⟨l,h,?_,?_,hz⟩
    · rw [ho]
    · rw [ho]
      rfl
  turn b o m w r w' c want h hk := by
    obtain ⟨l,h,ho,hwork,hz⟩ := h
    have hdir : o.dir=b.1.dir := by rw [ho]
    obtain ⟨rfl,hnext⟩ := held_call h hdir hwork hk
    have hfold : m.work.reply o.dir c=(l++[c]).foldl (Msghdr.reply b.1.dir) b.1.hdr := by
      rw [hwork,hdir,List.foldl_append,List.foldl_cons,List.foldl_nil]
    have hleft : ({o with hdr := m.work.reply o.dir c} : MsgIo β)=
        {b.1 with hdr := (l++[c]).foldl (Msghdr.reply b.1.dir) b.1.hdr} := by
      rw [hfold,ho]
    have hlast : ∀ q∈(l++[c]).dropLast,q.res≠0 := by
      rw [List.dropLast_concat]
      exact hz
    have hall : c.res≠0 → ∀ q∈l++[c],q.res≠0 := by
      intro hc q hq
      rcases List.mem_append.mp hq with hq | hq
      · exact hz q hq
      · rw [List.mem_singleton.mp hq]
        exact hc
    simp only [sem,msgPost]
    split
    · rename_i hs
      split at hs
      · rename_i total hpost
        cases hs
        refine ⟨l++[c],hnext,ho,hfold,hall fun hc => ?_⟩
        -- the loop does not go on after a call that returns 0
        unfold dpaioMsgPost StreamIo.loopTurn at hpost
        rw [if_neg (by simp [hc]),if_pos hc] at hpost
        cases hpost
      · cases hs
    · rename_i hs
      split at hs
      · cases hs
      · rename_i total p hpost
        cases hs
        split
        · rename_i hret
          refine ⟨l++[c],hnext,hleft,hall fun hc => ?_⟩
          unfold dpaioMsgPost StreamIo.loopTurn at hpost
          rw [if_neg (by simp [hc]),if_pos hc] at hpost
          cases hpost
          simp only at hret
          split at hret
          · rename_i hpos
            rw [hret] at hpos
            exact absurd hpos (by decide)
          · exact absurd hret (by decide)
        · exact held_fine hnext hfold hlast
  stop b o w r h _ := by
    obtain ⟨l,h,ho,hz⟩ := h
    exact held_fine h (by rw [ho]) fun q hq => hz q (List.mem_of_mem_dropLast hq)

end Rules

theorem control_right {w : Net β} {s : Sys (MsgIo β) (Loop β) (Net β)} (h : Reach (step sem) anyStep {world := w} s) :
    ∀ x∈ s.done,(x.op.dir=.inp → (Given x ↔ Single x)) ∧
      (x.op.dir=.out → x.before.sent<x.after.sent → (Handed x ↔ x.op.hdr.control=[] ∨ (reported x).length≤1)) :=
  rule.fine h

def segment : List Iovec := [⟨64,4⟩]

/-- A recvmsg with control data that is over after one call, and a sendmsg with control data whose first call takes all. -/
def plain : List (EfdRun.Act (MsgIo ℕ) (Reply ℕ) Unit) :=
  [.feed {.inp,.out},.add (dpsktRecvmsg segment ⟨[0,0],2,16,0⟩),.call ⟨4,0,[7],0,0⟩,
    .add (dpsktSendmsg segment ⟨[8],1,0,0⟩),.call ⟨4,0,[],0,0⟩]

theorem control_right_plain : ∃ s : Sys (MsgIo ℕ) (Loop ℕ) (Net ℕ),
    (s.done.map fun x => (x.ret,x.left.hdr.control))=[(4,[7]),(4,[8])] ∧ s.world.handed=[(0,[8])] ∧
      ∀ x∈ s.done,(x.op.dir=.inp → (Given x ↔ Single x)) ∧
        (x.op.dir=.out → x.before.sent<x.after.sent → (Handed x ↔ x.op.hdr.control=[] ∨ (reported x).length≤1)) := by
  have hrun : ((exec (step sem) {world := {}} plain).any fun s =>
      decide ((s.done.map fun x => (x.ret,x.left.hdr.control))=[(4,[7]),(4,[8])] ∧ s.world.handed=[(0,[8])]))=true := by
    decide +kernel
  obtain ⟨s,hs,hr⟩ := (Option.any_eq_true _ _).mp hrun
  obtain ⟨hret,hhanded⟩ := of_decide_eq_true hr
  exact ⟨s,hret,hhanded,control_right (exec_reach hs)⟩

/-- A sendmsg of four bytes, of which the first call takes three. -/
def partly : List (EfdRun.Act (MsgIo ℕ) (Reply ℕ) Unit) :=
  [.feed {.out},.add (dpsktSendmsg segment ⟨[8],1,0,0⟩),.call ⟨3,0,[],0,0⟩,.call ⟨1,0,[],0,0⟩]

/-- Its control data is handed over twice. -/
theorem control_twice : ¬∀ (w : Net ℕ) (s : Sys (MsgIo ℕ) (Loop ℕ) (Net ℕ)),Reach (step sem) anyStep {world := w} s →
    ∀ x∈ s.done,(x.op.dir=.inp → Given x) ∧ (x.op.dir=.out → x.before.sent<x.after.sent → Handed x) := by
  intro hall
  have hrun : ((exec (step sem) {world := {}} partly).any fun s => s.done.any fun x =>
      decide (x.op.dir=.out ∧ x.before.sent<x.after.sent ∧ x.op.hdr.control=[8] ∧ x.before.handed=[] ∧
        x.after.handed=[(0,[8]),(3,[8])]))=true := by decide +kernel
  obtain ⟨s,hs,hr⟩ := (Option.any_eq_true _ _).mp hrun
  obtain ⟨x,hx,hr⟩ := List.any_eq_true.mp hr
  obtain ⟨hd,hsent,hctl,hbefore,hafter⟩ := of_decide_eq_true hr
  have hhanded := ((hall _ s (exec_reach hs)) x hx).2 hd hsent
  rw [Handed,hctl,hbefore,hafter,if_neg (List.cons_ne_nil 8 [])] at hhanded
  cases congrArg List.length hhanded

end Dpapp.MsgControl
