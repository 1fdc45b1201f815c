import Dpapp.EfdRun
import Dpapp.StreamIo

/-! # The stream operations on kqueue (os/bsd/dpasc_kqueue.c, os/bsd/dpevp_kqueue.c)

There a post function has a quota, the number of bytes that the last event has reported. The wake loop is that of the other
back end. -/

set_option linter.unusedSectionVars false

namespace Dpapp.KqIo
open Dpapp.Machine Dpapp.Ret Dpapp.EfdWake Dpapp.EfdIo Dpapp.EfdRun
open Dpapp.StreamIo (Call Io Iovec dpiocIovTotal dpiocIovAdvance int32 int32_eq locs locs_advance total_small)

/-- EAGAIN and EWOULDBLOCK. The number is another one there, but DPE_WAIT is -EAGAIN. -/
def eagain : ℕ := 11

/-- `uint32_t` arithmetic -/
def uint32 (x : ℤ) : ℕ := (x%2^32).toNat

/-- An operation of fewer than 2^31 bytes. -/
structure Op where
  io : Io
  small : (locs io.iov).length<2^31

/-- The local variables of a post function; `quota` is set when it makes its first call. -/
structure Loop where
  total : ℤ := 0
  quota : Option ℕ := none
  iov : List Iovec

/-! ### The post functions -/

def Op.full (o : Op) : ℤ :=
  match o.io.arg with
  | .buf _ len => len
  | .iov iov | .msg iov => int32 (dpiocIovTotal iov)

/-- What is returned where a call has returned 0. -/
def Op.eof (o : Op) (total : ℤ) : Dpret :=
  match o.io.arg with
  | .buf .. | .iov _ => dpeEof
  | .msg _ => if 0<total then total else dpeEof

/-- `_dpaio_iov_post` and `_dpaio_msg_post` return before a call. -/
def Op.blocked (o : Op) (total : ℤ) (quota : ℕ) : Prop :=
  match o.io.arg with
  | .buf .. => False
  | .iov _ | .msg _ => quota=0 ∧ total<o.full

instance (o : Op) (total : ℤ) (quota : ℕ) : Decidable (o.blocked total quota) := by
  unfold Op.blocked
  cases o.io.arg <;> infer_instance

/-- The segments of the next call; the others ask for all, whatever the quota. -/
def Op.request (o : Op) (m : Loop) (quota : ℕ) : List Iovec :=
  match o.io.arg with
  | .buf base len =>
      let remain := (len-m.total).toNat
      [⟨base+m.total.toNat,if 0<quota ∧ quota<remain then quota else remain⟩]
  | .iov _ | .msg _ => m.iov

/-- A turn of `_dpaio_buf_post`, `_dpaio_iov_post` and `_dpaio_msg_post` -/
def Op.turn (o : Op) (want : Evts) (m : Loop) (quota : ℕ) (c : Call) : Next Op Loop :=
  if 0<c.res then
    let total := int32 (m.total+c.res)
    let quota := if 0<quota then uint32 (quota-c.res) else quota
    if total=o.full then .ret o ⟨total,want,∅⟩
    else if quota=0 then .ret o ⟨dpeWait,want,∅⟩
    else .call o ⟨total,some quota,dpiocIovAdvance m.iov c.res.toNat⟩
  else if c.res=0 then .ret o ⟨o.eof m.total,want,want⟩
  else if c.errno=eagain then .ret o ⟨if 0< m.total then m.total else dpeWait,want,∅⟩
  else .ret o ⟨if 0< m.total then m.total else -c.errno,want,want⟩

/-- They are answered with the quota, and by a call unless they are blocked. -/
def post : Post Op Loop (ℕ × Option Call) where
  enter o := {iov := o.io.iov}
  turn want o m x :=
    match x.2 with
    | none => .ret o ⟨dpeWait,want,∅⟩
    | some c => o.turn want m x.1 c

/-! ### What the calls move -/

/-- A post function: its quota, and the memory that its calls have stored into, or read from. -/
structure Round where
  quota : ℕ
  moved : List ℕ := []

/-- `feed` is `_g_kq_feed_bytes`, a uint32_t; the last round is the first of the list. -/
structure World where
  feed : Fin (2^32) := 0
  rounds : List Round := []

def World.begin (w : World) (m : Loop) : World :=
  if m.quota.isNone then {w with rounds := ⟨w.feed,[]⟩::w.rounds} else w

def World.move (w : World) (x : List ℕ) : World :=
  match w.rounds with
  | [] => w
  | r::rounds => {w with rounds := {r with moved := r.moved++x}::rounds}

/-- A call moves no more than it asks for. -/
def kernel (w : World) (o : Op) (m : Loop) : Option Call → Option (World × (ℕ × Option Call))
  | none =>
      let quota := m.quota.getD w.feed
      if o.blocked m.total quota then some (w.begin m,(quota,none)) else none
  | some c =>
      let quota := m.quota.getD w.feed
      if ¬o.blocked m.total quota ∧ c.res≤(locs (o.request m quota)).length ∧ (c.res<0 → 0<c.errno) then
        some ((w.begin m).move ((locs (o.request m quota)).take c.res.toNat),(quota,some c))
      else none

/-- Others only bring events, with the bytes that each reports. -/
def sem : Sem Op Loop (ℕ × Option Call) World (Option Call) (Fin (2^32)) where
  prep o := o.io.prep
  want o := {o.io.dir.evt}
  post := post
  kernel := kernel
  env w bytes := {w with feed := bytes}

/-- The post function has used up its quota, or has none and has moved less than all. -/
def Round.spent (r : Round) : Prop := r.moved≠[] ∧ (r.quota=0 ∨ r.moved.length=r.quota)

instance (r : Round) : Decidable r.spent := inferInstanceAs (Decidable (_ ∧ _))

/-- The post functions of an operation, the last one first: each begins at the front of the segments, those that have not
ended the operation have moved nothing or spent their quota, and the result is what the last one has moved. -/
structure Told (o : Op) (ret : Dpret) (posts : List Round) : Prop where
  front : ∀ r∈posts,r.moved=(locs o.io.iov).take r.moved.length
  before : ∀ r∈posts.tail,r.moved=[] ∨ r.spent
  last : 0<ret → ∃ r∈posts.head?,ret=r.moved.length
  fail : ret≤0 → ∀ r∈posts.head?,r.moved=[] ∨ r.spent ∨ ret=dpeEof

/-! ### One turn -/

/-- The post function goes on: it has not spent its quota. -/
structure Going (o : Op) (m : Loop) (r : Round) : Prop where
  front : r.moved=(locs o.io.iov).take r.moved.length
  total : m.total=r.moved.length
  rest : locs m.iov=(locs o.io.iov).drop r.moved.length
  quota : m.quota=some (if r.quota=0 then 0 else uint32 (r.quota-r.moved.length))
  range : r.quota<2^32
  unspent : ¬r.spent

section Turn
variable {o : Op} {m : Loop} {r : Round} {c : Call} {want : Evts} {quota : ℕ}

/-- A call asks for a front part of what is left. -/
theorem request_take (h : Going o m r) : ∃ k,locs (o.request m quota)=(locs m.iov).take k := by
  unfold Op.request
  cases harg : o.io.arg with
  | buf base len =>
    dsimp only
    generalize hn : (if 0<quota ∧ quota<(len-m.total).toNat then quota else (len-m.total).toNat)=n
    have hle : n≤len.toNat-r.moved.length := by
      have htotal := h.total
      rw [← hn]
      split <;> omega
    have hone : ∀ v : Iovec,locs [v]=v.locs := fun v => by simp [locs]
    have hiov : locs o.io.iov=List.range' base len.toNat := by
      simp [Io.iov,harg,hone,Iovec.locs]
    refine ⟨n,?_⟩
    rw [h.rest,hiov,h.total,hone,Iovec.locs,List.drop_range',List.take_range'_of_length_ge hle]
    simp
  | iov iov => exact ⟨_,(List.take_length).symm⟩
  | msg iov => exact ⟨_,(List.take_length).symm⟩

/-- The round with the bytes of one more call. -/
def Round.grown (o : Op) (m : Loop) (quota : ℕ) (c : Call) (r : Round) : Round :=
  {r with moved := r.moved++(locs (o.request m quota)).take c.res.toNat}

theorem grown_front (h : Going o m r) :
    (r.grown o m quota c).moved=(locs o.io.iov).take (r.grown o m quota c).moved.length := by
  obtain ⟨k,hk⟩ : ∃ k,locs (o.request m quota)=(locs m.iov).take k := request_take h
  rw [← List.prefix_iff_eq_take]
  have hall : r.moved++(locs o.io.iov).drop r.moved.length=locs o.io.iov := by
    nth_rewrite 1 [h.front]
    exact List.take_append_drop ..
  have hpre : (locs (o.request m quota)).take c.res.toNat<+:(locs o.io.iov).drop r.moved.length := by
    rw [hk,h.rest,List.take_take]
    exact List.take_prefix ..
  rw [← hall]
  exact (List.prefix_append_right_inj _).mpr hpre

theorem grown_length (hc : c.res≤(locs (o.request m quota)).length) :
    (r.grown o m quota c).moved.length=r.moved.length+c.res.toNat := by
  unfold Round.grown
  rw [List.length_append,List.length_take,min_eq_left (by omega)]

theorem nonneg_ne {v : ℤ} (h : 0≤v) : v≠dpeWait := fun heq : v=-11 => by omega

theorem count_ne (n : ℕ) : (n : ℤ)≠dpeWait := nonneg_ne (Int.natCast_nonneg n)

/-- What is left of the quota, while it is not spent. -/
theorem quota_next (h : Going o m r) (hq : m.quota=some quota) (hpos : 0<c.res) :
    (if 0<quota then uint32 (quota-c.res) else quota)=
      if r.quota=0 then 0 else uint32 (r.quota-(r.moved.length+c.res.toNat : ℕ)) := by
  have hquota := h.quota
  rw [hq,Option.some.injEq] at hquota
  by_cases hzero : r.quota=0
  · rw [if_pos hzero] at hquota ⊢
    rw [hquota,if_neg (lt_irrefl 0)]
  · rw [if_neg hzero] at hquota ⊢
    have hne : r.moved.length≠r.quota := fun heq => h.unspent ⟨List.ne_nil_of_length_pos (by omega),.inr heq⟩
    have hrange := h.range
    have hsmall := o.small
    have hlen : r.moved.length≤(locs o.io.iov).length := by
      rw [h.front]
      exact List.length_take_le' ..
    unfold uint32 at hquota ⊢
    rw [if_pos (by omega)]
    omega

/-- The quota is spent when nothing is left of it. -/
theorem spent_iff {n : ℕ} (hn : n<2^31) (hr : r.quota<2^32) :
    (if r.quota=0 then 0 else uint32 (r.quota-n))=0 ↔ r.quota=0 ∨ n=r.quota := by
  unfold uint32
  split
  · rename_i hzero
    simp [hzero]
  · rename_i hzero
    omega

/-- What a post function leaves behind a turn. -/
structure Over (o : Op) (ret : Dpret) (r : Round) : Prop where
  front : r.moved=(locs o.io.iov).take r.moved.length
  wait : ret=dpeWait → r.moved=[] ∨ r.spent
  last : 0<ret → ret=r.moved.length
  fail : ret≤0 → r.moved=[] ∨ r.spent ∨ ret=dpeEof

theorem over_count (hf : r.moved=(locs o.io.iov).take r.moved.length) : Over o (r.moved.length : ℤ) r where
  front := hf
  wait hw := absurd hw (count_ne _)
  last _ := rfl
  fail hle := .inl (List.eq_nil_of_length_eq_zero (Int.natCast_nonpos_iff.mp hle))

theorem over_fail {ret : Dpret} (hf : r.moved=(locs o.io.iov).take r.moved.length) (hret : ret≤0)
    (h : r.moved=[] ∨ r.spent ∨ ret=dpeEof) : Over o ret r where
  front := hf
  wait hw := h.imp_right fun h => h.resolve_right (by rw [hw]; decide)
  last hpos := absurd hret (not_le.mpr hpos)
  fail _ := h

theorem turn_spec (want : Evts) (h : Going o m r) (hq : m.quota=some quota) (hc : c.res≤(locs (o.request m quota)).length)
    (herr : c.res<0 → 0<c.errno) : match o.turn want m quota c with
      | .call o' m' => o'=o ∧ Going o m' (r.grown o m quota c)
      | .ret o' p => o'=o ∧ Over o p.ret (r.grown o m quota c) ∧ (p.ret=dpeWait → p.out=⟨want,∅⟩) := by
  have hfront : (r.grown o m quota c).moved=_ := grown_front h
  have hlen := grown_length (r := r) hc
  have hsmall := o.small
  have hn : (r.grown o m quota c).moved.length≤(locs o.io.iov).length := by
    rw [hfront]
    exact List.length_take_le' ..
  have hrange := h.range
  have hquota := h.quota
  have htotal := h.total
  rw [hq,Option.some.injEq] at hquota
  rcases lt_or_ge 0 c.res with hpos | hnone
  · have hsum : int32 (m.total+c.res)=(r.grown o m quota c).moved.length := by
      rw [int32_eq] <;> omega
    have hne : (r.grown o m quota c).moved≠[] := List.ne_nil_of_length_pos (by omega)
    have hnext := quota_next h hq hpos
    rw [← hlen] at hnext
    have hturn : o.turn want m quota c=if ((r.grown o m quota c).moved.length : ℤ)=o.full then
        .ret o ⟨(r.grown o m quota c).moved.length,want,∅⟩
      else if (if r.quota=0 then 0 else uint32 (r.quota-(r.grown o m quota c).moved.length))=0 then .ret o ⟨dpeWait,want,∅⟩
      else .call o ⟨(r.grown o m quota c).moved.length,
        some (if r.quota=0 then 0 else uint32 (r.quota-(r.grown o m quota c).moved.length)),
        dpiocIovAdvance m.iov c.res.toNat⟩ := by
      simp only [Op.turn,if_pos hpos,hsum,hnext]
    rw [hturn]
    have hspent := spent_iff (r := r) (n := (r.grown o m quota c).moved.length) (by omega) hrange
    by_cases hfull : ((r.grown o m quota c).moved.length : ℤ)=o.full
    · rw [if_pos hfull]
      exact ⟨rfl,over_count hfront,fun hw => absurd hw (count_ne _)⟩
    · rw [if_neg hfull]
      by_cases hzero : (if r.quota=0 then 0 else uint32 (r.quota-(r.grown o m quota c).moved.length))=0
      · rw [if_pos hzero]
        have hwait : dpeWait≤0 := by decide
        exact ⟨rfl,over_fail hfront hwait (.inr (.inl ⟨hne,hspent.mp hzero⟩)),fun _ => rfl⟩
      · rw [if_neg hzero]
        refine ⟨rfl,hfront,rfl,?_,rfl,hrange,fun hs => hzero (hspent.mpr hs.2)⟩
        rw [locs_advance,h.rest,List.drop_drop,hlen]
  · have hsame : r.grown o m quota c=r := by
      unfold Round.grown
      rw [Int.toNat_of_nonpos hnone,List.take_zero,List.append_nil]
    rw [hsame]
    -- what a call that moves nothing ends with, unless others have moved something
    have hend : ∀ (ret : Dpret) (inva : Evts),ret<0 → (ret=dpeWait → inva=∅) →
        o.turn want m quota c=.ret o ⟨if 0< m.total then m.total else ret,want,inva⟩ →
        match o.turn want m quota c with
        | .call o' m' => o'=o ∧ Going o m' r
        | .ret o' p => o'=o ∧ Over o p.ret r ∧ (p.ret=dpeWait → p.out=⟨want,∅⟩) := by
      intro ret inva hneg hinva hturn
      rw [hturn]
      by_cases hm : 0< m.total
      · rw [if_pos hm,htotal]
        exact ⟨rfl,over_count h.front,fun hw => absurd hw (count_ne _)⟩
      · rw [if_neg hm]
        have hnil : r.moved=[] := List.eq_nil_of_length_eq_zero (by omega)
        exact ⟨rfl,over_fail h.front hneg.le (.inl hnil),fun hw => by rw [hinva hw]⟩
    by_cases hzero : c.res=0
    · have hturn : o.turn want m quota c=.ret o ⟨o.eof m.total,want,want⟩ := by
        simp only [Op.turn,if_neg hnone.not_gt,if_pos hzero]
      by_cases hmsg : ∃ iov,o.io.arg=.msg iov
      · obtain ⟨iov,hmsg⟩ := hmsg
        refine hend dpeEof want (by decide) (fun hw => absurd hw (by decide)) ?_
        rw [hturn,Op.eof,hmsg]
      · have heof : o.eof m.total=dpeEof := by
          unfold Op.eof
          split
          · rfl
          · rfl
          · rename_i iov hiov
            exact absurd ⟨iov,hiov⟩ hmsg
        rw [hturn,heof]
        have hneg : dpeEof≤0 := by decide
        have hne : dpeEof≠dpeWait := by decide
        exact ⟨rfl,over_fail h.front hneg (.inr (.inr rfl)),fun hw => absurd hw hne⟩
    · by_cases hagain : c.errno=eagain
      · refine hend dpeWait ∅ (by decide) (fun _ => rfl) ?_
        simp only [Op.turn,if_neg hnone.not_gt,if_neg hzero,if_pos hagain]
      · refine hend (-c.errno) want ?_ (fun hw => ?_) ?_
        · have hpos := herr (by omega)
          exact Int.neg_neg_of_pos (by omega)
        · have heq : -(c.errno : ℤ)=-11 := hw
          unfold eagain at hagain
          omega
        · simp only [Op.turn,if_neg hnone.not_gt,if_neg hzero,if_neg hagain]

end Turn

/-! ### Whole operations -/

/-- The post functions that have not ended the operation. -/
def Past (o : Op) (posts : List Round) : Prop :=
  ∀ r∈posts,r.moved=(locs o.io.iov).take r.moved.length ∧ (r.moved=[] ∨ r.spent)

def Waits (b : Op × World) (o : Op) (w : World) : Prop := o=b.1 ∧ ∃ posts,Past o posts ∧ w.rounds=posts++b.2.rounds

/-- The post function is about to make its first call, or has made some. -/
def Runs (b : Op × World) (o : Op) (m : Loop) (w : World) : Prop :=
  o=b.1 ∧ ∃ posts,Past o posts ∧ ((m={iov := o.io.iov} ∧ w.rounds=posts++b.2.rounds) ∨
    ∃ r,Going o m r ∧ w.rounds=r::posts++b.2.rounds)

def Fine (d : Ended Op World) : Prop := ∃ posts,d.after.rounds=posts++d.before.rounds ∧ Told d.op d.ret posts

section Rule
variable {b : Op × World} {o : Op} {m : Loop} {w w' : World} {r : Round} {posts : List Round} {ret : Dpret} {want : Evts}
  {x : ℕ × Option Call} {a : Option Call}

theorem Past.told (h : Past o posts) (hret : ret≤0) : Told o ret posts where
  front r hr := (h r hr).1
  before r hr := (h r (List.mem_of_mem_tail hr)).2
  last hpos := absurd hret (not_le.mpr hpos)
  fail _ r hr := (h r (List.mem_of_mem_head? hr)).2.imp_right .inl

theorem Over.told (h : Over o ret r) (hp : Past o posts) : Told o ret (r::posts) where
  front r' hr := by
    rcases List.mem_cons.mp hr with rfl | hr
    · exact h.front
    · exact (hp r' hr).1
  before r' hr := (hp r' hr).2
  last hpos := ⟨r,rfl,h.last hpos⟩
  fail hle r' hr := by
    cases hr
    exact h.fail hle

theorem Over.past (h : Over o dpeWait r) (hp : Past o posts) : Past o (r::posts) := by
  intro r' hr
  rcases List.mem_cons.mp hr with rfl | hr
  · exact ⟨h.front,h.wait rfl⟩
  · exact hp r' hr

/-- The quota is set by the first call. -/
theorem Runs.begin (h : Runs b o m w) : ∃ r posts,Past o posts ∧ Going o {m with quota := some (m.quota.getD w.feed)} r ∧
    (w.begin m).rounds=r::posts++b.2.rounds := by
  obtain ⟨rfl,posts,hp,⟨rfl,hw⟩ | ⟨r,hr,hw⟩⟩ := h
  · refine ⟨⟨w.feed,[]⟩,posts,hp,⟨rfl,rfl,rfl,?_,w.feed.isLt,fun hs => hs.1 rfl⟩,?_⟩
    · simp only [Option.getD_none,List.length_nil,Nat.cast_zero,sub_zero,uint32]
      congr 1
      have hlt := w.feed.isLt
      split <;> omega
    · simp [World.begin,hw]
  · have hbegin : (w.begin m).rounds=r::posts++b.2.rounds := by simp [World.begin,hr.quota,hw]
    have hsame : {m with quota := some (m.quota.getD w.feed)}=m := by
      obtain ⟨total,quota,iov⟩ := m
      obtain rfl : quota=_ := hr.quota
      rfl
    exact ⟨r,posts,hp,hsame ▸ hr,hbegin⟩

theorem kernel_cases (h : kernel w o m a=some (w',x)) : x.1=m.quota.getD w.feed ∧
    ((x.2=none ∧ o.blocked m.total x.1 ∧ w'=w.begin m) ∨
      ∃ c,x.2=some c ∧ c.res≤(locs (o.request m x.1)).length ∧ (c.res<0 → 0<c.errno) ∧
        w'=(w.begin m).move ((locs (o.request m x.1)).take c.res.toNat)) := by
  cases a with
  | none =>
    obtain ⟨hblocked,h⟩ := Option.ite_none_right_eq_some.mp h
    cases h
    exact ⟨rfl,.inl ⟨rfl,hblocked,rfl⟩⟩
  | some c =>
    obtain ⟨⟨-,hres,herr⟩,h⟩ := Option.ite_none_right_eq_some.mp h
    cases h
    exact ⟨rfl,.inr ⟨c,rfl,hres,herr,rfl⟩⟩

/-- A post function that is blocked has moved nothing, or spent its quota. -/
theorem blocked_over {quota : ℕ} (h : Going o m r) (hq : m.quota=some quota) (hb : o.blocked m.total quota) :
    Over o dpeWait r := by
  have hquota := h.quota
  rw [hq,Option.some.injEq] at hquota
  have hzero : quota=0 := by
    unfold Op.blocked at hb
    split at hb
    · exact hb.elim
    · exact hb.1
    · exact hb.1
  have hsmall := o.small
  have hlen : r.moved.length≤(locs o.io.iov).length := by
    rw [h.front]
    exact List.length_take_le' ..
  have hspent := (spent_iff (r := r) (n := r.moved.length) (by omega) h.range).mp (hquota.symm.trans hzero)
  refine over_fail h.front (by decide) ?_
  by_cases hnil : r.moved=[]
  · exact .inl hnil
  · exact .inr (.inl ⟨hnil,hspent⟩)

/-- A call of a post function that runs. -/
theorem runs_turn (want : Evts) (h : Runs b o m w) (hk : kernel w o m a=some (w',x)) : match post.turn want o m x with
    | .call o' m' => Runs b o' m' w'
    | .ret o' p =>
        (if p.ret=dpeWait then Waits b o' w' else Fine ⟨b.1,o',p.ret,b.2,w'⟩) ∧ (p.ret=dpeWait → p.out=⟨want,∅⟩) := by
  obtain rfl := h.1
  obtain ⟨r,posts,hp,hr,hrounds⟩ := h.begin
  obtain ⟨hx,⟨hnone,hblocked,rfl⟩ | ⟨c,hsome,hres,herr,rfl⟩⟩ := kernel_cases hk
  · have hover := blocked_over hr (congrArg some hx.symm) hblocked
    have hpost : post.turn want b.1 m x=.ret b.1 ⟨dpeWait,want,∅⟩ := by simp only [post,hnone]
    rw [hpost]
    refine ⟨?_,fun _ => rfl⟩
    rw [if_pos rfl]
    exact ⟨rfl,r::posts,hover.past hp,hrounds⟩
  · have hturn := turn_spec want hr (congrArg some hx.symm) hres herr
    have hmoved : ((w.begin m).move ((locs (b.1.request m x.1)).take c.res.toNat)).rounds=
        r.grown b.1 m x.1 c::posts++b.2.rounds := by
      unfold World.move
      rw [hrounds]
      rfl
    have hpost : post.turn want b.1 m x=b.1.turn want {m with quota := some (m.quota.getD w.feed)} x.1 c := by
      simp only [post,hsome]
      rfl
    rw [hpost]
    cases hn : b.1.turn want {m with quota := some (m.quota.getD w.feed)} x.1 c with
    | call o' m' =>
      rw [hn] at hturn
      obtain ⟨rfl,hgoing⟩ := hturn
      exact ⟨rfl,posts,hp,.inr ⟨_,hgoing,hmoved⟩⟩
    | ret o' p =>
      rw [hn] at hturn
      obtain ⟨rfl,hover,hout⟩ := hturn
      refine ⟨?_,hout⟩
      split
      · rename_i hwait
        rw [hwait] at hover
        exact ⟨rfl,_,hover.past hp,hmoved⟩
      · exact ⟨_,hmoved,hover.told hp⟩

theorem kq_rule : Rule sem Waits Runs Fine where
  add d w _ := ⟨rfl,[],fun _ hr => (by cases hr),rfl⟩
  refuse d w hprep := by
    have hret : d.io.prep≤0 := by
      have hcases : d.io.prep=dpeInval ∨ d.io.prep=dpeContinue := by
        unfold Io.prep
        split <;> split <;> simp
      rw [hcases.resolve_right hprep]
      decide
    have hnone : Past d [] := fun _ hr => by cases hr
    exact ⟨[],rfl,hnone.told hret⟩
  waits b d w e h := h
  runs b d m w e h := h
  enter b d w h := by
    obtain ⟨rfl,posts,hp,hw⟩ := h
    exact ⟨rfl,posts,hp,.inl ⟨rfl,hw⟩⟩
  turn b d m w a w' c want h hk := by
    have hturn := runs_turn want h hk
    have hpost : sem.post=post := rfl
    rw [hpost]
    cases hn : post.turn want d m c with
    | call d' m' =>
      rw [hn] at hturn
      exact hturn
    | ret d' p =>
      rw [hn] at hturn
      exact hturn.1
  stop b d w ret h hret := by
    obtain ⟨rfl,posts,hp,hw⟩ := h
    exact ⟨posts,hw,hp.told hret⟩

end Rule

/-! ### Runs -/

/-- All bytes that the calls have moved are in the result. -/
def complete (ret : Dpret) (posts : List Round) : Prop := (posts.map (·.moved.length)).sum=ret.toNat

/-- A post function before the last one has spent its quota, or the operation has failed behind bytes. -/
def slips (ret : Dpret) (posts : List Round) : Prop :=
  (∃ r∈posts.tail,r.spent) ∨ ret≤0 ∧ ∃ r∈posts.head?,r.moved≠[]

section Runs
variable {o : Op} {ret : Dpret} {posts : List Round} {s s' : Sys Op Loop World} {w : World}

theorem sum_moved : (posts.map (·.moved.length)).sum=0 ↔ ∀ r∈posts,r.moved=[] := by
  rw [List.sum_eq_zero_iff]
  simp [List.length_eq_zero_iff]

theorem Told.complete (h : Told o ret posts) : complete ret posts ↔ ¬slips ret posts := by
  unfold KqIo.complete slips
  cases posts with
  | nil =>
    have hret : ret≤0 := not_lt.mp fun hpos => by
      obtain ⟨r,hr,-⟩ := h.last hpos
      cases hr
    simp [Int.toNat_of_nonpos hret]
  | cons r posts =>
    have htail : (∃ r∈posts,r.spent) ↔ (posts.map (·.moved.length)).sum≠0 := by
      rw [Ne,sum_moved]
      constructor
      · rintro ⟨r',hr',hs⟩ hall
        exact hs.1 (hall r' hr')
      · intro hall
        push Not at hall
        obtain ⟨r',hr',hne⟩ := hall
        exact ⟨r',hr',(h.before r' hr').resolve_left hne⟩
    have hhead : (∃ r'∈[r].head?,r'.moved≠[]) ↔ r.moved.length≠0 := by simp [List.length_eq_zero_iff]
    have hlast : 0<ret → (r.moved.length : ℤ)=ret := fun hpos => by
      obtain ⟨r',hr',heq⟩ := h.last hpos
      cases hr'
      exact heq.symm
    have hsum : ((r::posts).map (·.moved.length)).sum=r.moved.length+(posts.map (·.moved.length)).sum := rfl
    rw [List.tail_cons,htail,show (r::posts).head?=[r].head? from rfl,hhead,hsum]
    have hcount : ∀ (n k : ℕ) (v : ℤ),(0<v → (n : ℤ)=v) → (n+k=v.toNat ↔ ¬(k≠0 ∨ v≤0 ∧ n≠0)) := by
      intro n k v hv
      by_cases hpos : 0<v
      · have heq := hv hpos
        omega
      · omega
    exact hcount _ _ ret hlast

theorem kq_told (h : Reach (step sem) anyStep {world := w} s) : ∀ d∈s.done,∃ posts,d.after.rounds=posts++d.before.rounds ∧
    Told d.op d.ret posts ∧ (complete d.ret posts ↔ ¬slips d.ret posts) := by
  intro d hd
  obtain ⟨posts,hposts,htold⟩ := kq_rule.fine h d hd
  exact ⟨posts,hposts,htold,htold.complete⟩

/-- Where a post function runs, its event is there and wanted; an operation that waits has called none. -/
def Woken (s : Sys Op Loop World) : Prop :=
  match s.fd.pend with
  | some ⟨_,some _⟩ => (∃ b,s.begun=some b) ∧ (s.fd.efd.able∩s.fd.efd.want).Nonempty
  | some ⟨_,none⟩ => ∃ b,s.begun=some b ∧ s.world.rounds=b.2.rounds
  | none => s.begun=none

theorem eof_ne (total : ℤ) : o.eof total≠dpeWait := by
  unfold Op.eof
  split
  · decide
  · decide
  · split
    · rename_i hpos
      exact nonneg_ne hpos.le
    · decide

/-- No post function that waits gives up an event. -/
theorem turn_wait {o' : Op} {m : Loop} {want : Evts} {x : ℕ × Option Call} {p : PostRet} (h : post.turn want o m x=.ret o' p)
    (hw : p.ret=dpeWait) : p.out=⟨want,∅⟩ := by
  obtain ⟨quota,_ | c⟩ := x
  · cases h
    rfl
  · replace h : o.turn want m quota c=.ret o' p := h
    unfold Op.turn at h
    generalize (if 0<quota then uint32 (quota-c.res) else quota)=left at h
    by_cases hpos : 0<c.res
    · rw [if_pos hpos] at h
      dsimp only at h
      split at h
      · cases h
        rfl
      · split at h
        · cases h
          rfl
        · cases h
    · rw [if_neg hpos] at h
      split at h
      · cases h
        exact absurd hw (eof_ne m.total)
      · split at h
        · cases h
          rfl
        · rename_i hagain
          cases h
          have hne : (if 0< m.total then m.total else -c.errno)≠dpeWait := by
            split
            · rename_i hpos
              exact nonneg_ne hpos.le
            · exact fun heq : -(c.errno : ℤ)=-11 => hagain (by unfold eagain; omega)
          exact absurd hw hne

theorem woken_turned {b : Op × World} {d : Op} {x : Efd × Turn} (hb : s.begun=some b)
    (hpost : x.2=.post → (x.1.able∩x.1.want).Nonempty) (hwait : x.2=.ret dpeWait → s.world.rounds=b.2.rounds) :
    Woken (s.settle d (turned post d x)) := by
  rcases turned_cases post d x with ⟨hx,heq⟩ | ⟨hx,heq⟩ | ⟨r,hx,hr,heq⟩
  · rw [heq]
    exact ⟨b,hb,hwait hx⟩
  · rw [heq]
    exact ⟨⟨b,hb⟩,hpost hx⟩
  · rw [heq,settle_ended hb]
    rfl

theorem wakeTest_post {f : Efd} (h : wakeTest f=.post) : (f.able∩f.want).Nonempty := by
  unfold wakeTest at h
  split at h
  · assumption
  · cases h

theorem woken_wake {b : Op × World} {d : Op} {f : Efd} {out : AscOut} (hb : s.begun=some b)
    (hrounds : s.world.rounds=b.2.rounds) : Woken (s.settle d (turned post d (dpefdWake f out))) := by
  refine woken_turned hb (fun hx => ?_) fun _ => hrounds
  unfold dpefdWake at hx ⊢
  split at hx
  · cases hx
  · rename_i hok
    rw [if_neg hok]
    exact wakeTest_post hx

theorem posted_post {f : Efd} {p : PostRet} (h : (dpefdPosted f p).2=.post) :
    ((dpefdPosted f p).1.able∩(dpefdPosted f p).1.want).Nonempty := by
  unfold dpefdPosted at h ⊢
  split at h
  · rename_i hw
    simp only [if_pos hw]
    exact wakeTest_post h
  · cases h

/-- The wake loop calls a post function again that waits and gives up no event. -/
theorem posted_again {f : Efd} {p : PostRet} (hw : p.ret=dpeWait) (hout : p.out=⟨f.want,∅⟩) (h : (f.able∩f.want).Nonempty) :
    (dpefdPosted f p).2=.post := by
  have hwant : (if f.want.Nonempty then {f with want := f.want} else f)=f := by split <;> rfl
  unfold dpefdPosted
  simp only [if_pos hw,hout,Finset.sdiff_empty,hwant]
  exact if_pos h

theorem woken_step {a : Act Op (Option Call) (Fin (2^32))} (h : Woken s) (hs : step sem s a=some s') : Woken s' := by
  cases a with
  | env e =>
    cases hs
    exact h
  | add d =>
    simp only [step] at hs
    split at hs
    · rename_i hpend
      split at hs
      · cases hs
        exact woken_wake (s := {s with begun := some (d,s.world)}) rfl rfl
      · cases hs
        rw [settle_ended (b := (d,s.world)) rfl]
        unfold Woken
        rw [hpend]
    · cases hs
      exact h
  | call a =>
    simp only [step] at hs
    split at hs
    · rename_i d l hpend
      obtain ⟨⟨w,x⟩,hk,rfl⟩ := Option.map_eq_some_iff.mp hs
      unfold Woken at h
      rw [hpend] at h
      have hpost : sem.post=post := rfl
      rw [hpost]
      cases hn : post.turn s.fd.efd.want d l x with
      | call o' m' => exact h
      | ret o' p =>
        obtain ⟨⟨b,hb⟩,hwoken⟩ := h
        refine woken_turned (s := {s with world := w}) hb (fun hx => posted_post hx) fun hx => ?_
        have hw : p.ret=dpeWait := (dpefdPosted_ret hx).1.symm
        rw [posted_again hw (turn_wait hn hw) hwoken] at hx
        cases hx
    · cases hs
  | feed evs =>
    simp only [step] at hs
    split at hs
    · rename_i hpend
      obtain ⟨y,hy,rfl⟩ := Option.map_eq_some_iff.mp hs
      unfold Woken at h
      rw [hpend] at h
      rcases feed_cases hy with ⟨-,rfl⟩ | ⟨d,hsome,-⟩
      · exact h
      · rw [hpend] at hsome
        cases hsome
    · rename_i d run hpend
      obtain ⟨y,hy,rfl⟩ := Option.map_eq_some_iff.mp hs
      rcases feed_cases hy with ⟨hnone,-⟩ | ⟨d',hwaits,hy⟩
      · rw [hpend] at hnone
        cases hnone
      · cases hpend.symm.trans hwaits
        unfold Woken at h
        rw [hwaits] at h
        obtain ⟨b,hb,hrounds⟩ := h
        rcases hy with rfl | rfl
        · exact ⟨b,hb,hrounds⟩
        · exact woken_wake hb hrounds
  | stop r =>
    simp only [step] at hs
    split at hs
    · rename_i d hpend
      unfold Woken at h
      rw [hpend] at h
      obtain ⟨b,hb,-⟩ := h
      obtain ⟨-,hs⟩ := Option.ite_none_right_eq_some.mp hs
      obtain rfl := Option.some.inj hs
      rw [settle_ended hb]
      rfl
    · cases hs

theorem running_step {a : Act Op (Option Call) (Fin (2^32))} (h : Woken s) (hrun : ∃ o m,s.fd.pend=some ⟨o,some m⟩)
    (hs : step sem s a=some s') : (∃ o m,s'.fd.pend=some ⟨o,some m⟩) ∨ s.done.length<s'.done.length := by
  obtain ⟨o,m,hpend⟩ := hrun
  unfold Woken at h
  rw [hpend] at h
  obtain ⟨⟨b,hb⟩,hwoken⟩ := h
  cases a with
  | env e =>
    cases hs
    exact .inl ⟨o,m,hpend⟩
  | add d =>
    simp only [step,hpend] at hs
    cases hs
    exact .inl ⟨o,m,hpend⟩
  | call a =>
    simp only [step,hpend] at hs
    obtain ⟨⟨w,x⟩,hk,rfl⟩ := Option.map_eq_some_iff.mp hs
    have hpost : sem.post=post := rfl
    rw [hpost]
    cases hn : post.turn s.fd.efd.want o m x with
    | call o' m' => exact .inl ⟨o',m',rfl⟩
    | ret o' p =>
      rcases turned_cases post o' (dpefdPosted s.fd.efd p) with ⟨hx,-⟩ | ⟨-,heq⟩ | ⟨r,-,-,heq⟩
      · have hw : p.ret=dpeWait := (dpefdPosted_ret hx).1.symm
        rw [posted_again hw (turn_wait hn hw) hwoken] at hx
        cases hx
      · refine .inl ⟨o',post.enter o',?_⟩
        simp only [Fd.next,heq,Sys.settle]
      · refine .inr ?_
        simp only [Fd.next,heq]
        rw [settle_ended (s := {s with world := w}) (b := b) hb,List.length_append]
        exact Nat.lt_succ_self _
  | feed evs => simp [step,hpend,Fd.feed] at hs
  | stop r => simp [step,hpend] at hs

theorem settle_done {x : Fd Op Loop × Option Dpret} {d : Op} (h : s'.done=s.done) : s.done<+:(s'.settle d x).done := by
  rw [← h]
  unfold Sys.settle
  split
  · exact List.prefix_append ..
  · exact List.prefix_refl _

/-- What is over stays over. -/
theorem done_step {a : Act Op (Option Call) (Fin (2^32))} (hs : step sem s a=some s') : s.done<+:s'.done := by
  cases a with
  | env e =>
    cases hs
    exact List.prefix_refl _
  | add d =>
    simp only [step] at hs
    split at hs
    · split at hs <;> cases hs <;> exact settle_done rfl
    · cases hs
      exact List.prefix_refl _
  | call a =>
    simp only [step] at hs
    split at hs
    · obtain ⟨x,-,rfl⟩ := Option.map_eq_some_iff.mp hs
      exact settle_done rfl
    · cases hs
  | feed evs =>
    simp only [step] at hs
    split at hs
    · obtain ⟨x,-,rfl⟩ := Option.map_eq_some_iff.mp hs
      exact List.prefix_refl _
    · obtain ⟨x,-,rfl⟩ := Option.map_eq_some_iff.mp hs
      exact settle_done rfl
  | stop r =>
    simp only [step] at hs
    split at hs
    · obtain ⟨-,hs⟩ := Option.ite_none_right_eq_some.mp hs
      cases hs
      exact settle_done rfl
    · cases hs

theorem woken_run (h : Reach (step sem) anyStep s s') (hs : Woken s) : Woken s' :=
  h.invariant hs fun _ _ _ hi _ hu => woken_step hi hu

theorem running_run (h : Woken s) (hrun : ∃ o m,s.fd.pend=some ⟨o,some m⟩) (hs : Reach (step sem) anyStep s s') :
    (∃ o m,s'.fd.pend=some ⟨o,some m⟩) ∨ s.done.length<s'.done.length := by
  induction hs with
  | refl => exact .inl hrun
  | tail hr _ hstep ih =>
    have hgrow := (done_step hstep).length_le
    rcases ih with hrun' | hlt
    · rcases running_step (woken_run hr h) hrun' hstep with hrun'' | hlt
      · exact .inl hrun''
      · have hle : s.done.length≤_ := (hr.invariant (I := fun t => s.done<+:t.done) (List.prefix_refl _)
          fun _ _ _ hi _ hu => hi.trans (done_step hu)).length_le
        exact .inr (hle.trans_lt hlt)
    · exact .inr (hlt.trans_le hgrow)

/-- Once a post function has been called, the wake loop does not return before the operation is over: an operation that waits
has called none. -/
theorem kq_stays (h : Reach (step sem) anyStep {world := w} s) :
    (∀ o,s.fd.pend=some ⟨o,none⟩ → ∃ b,s.begun=some b ∧ s.world.rounds=b.2.rounds) ∧
      ∀ s',(∃ o m,s.fd.pend=some ⟨o,some m⟩) → Reach (step sem) anyStep s s' → s'.done=s.done →
        ∃ o m,s'.fd.pend=some ⟨o,some m⟩ := by
  have hwoken : Woken s := woken_run h rfl
  refine ⟨fun o hpend => ?_,fun s' hrun hs hdone => ?_⟩
  · unfold Woken at hwoken
    rw [hpend] at hwoken
    exact hwoken
  · refine (running_run hwoken hrun hs).resolve_right ?_
    rw [hdone]
    exact lt_irrefl _

end Runs

/-- A read of eight bytes, of which three are there. -/
def read : Op := ⟨StreamIo.dpgfdRead 100 8,by decide⟩

def begin : List (Act Op (Option Call) (Fin (2^32))) := [.env 3,.add read,.feed {.inp},.call (some ⟨3,0⟩)]

/-- The fd is empty for a while, and then there are two more. -/
def again : List (Act Op (Option Call) (Fin (2^32))) := [.call (some ⟨-1,11⟩),.call (some ⟨-1,11⟩)]
def lost : List (Act Op (Option Call) (Fin (2^32))) := begin++again++[.call (some ⟨2,0⟩),.call (some ⟨-1,11⟩)]

theorem kq_told_lost : ∃ d : Ended Op World,d.ret=2 ∧ d.after.rounds.map (·.moved)=[[100,101],[],[],[100,101,102]] ∧
    ¬complete d.ret d.after.rounds := by
  have hrun : (exec (step sem) {world := {}} lost).any (fun s => s.done.any fun d =>
      decide (d.ret=2 ∧ d.after.rounds.map (·.moved)=[[100,101],[],[],[100,101,102]] ∧ d.before.rounds.length=0 ∧
        ∃ r∈d.after.rounds.tail,r.spent))=true := by decide +kernel
  obtain ⟨s,hs,hend⟩ := (Option.any_eq_true _ _).mp hrun
  obtain ⟨d,hd,hend⟩ := List.any_eq_true.mp hend
  obtain ⟨hret,hmoved,hbefore,hspent⟩ := of_decide_eq_true hend
  obtain ⟨posts,hposts,-,hiff⟩ := kq_told (exec_reach hs) d hd
  rw [List.length_eq_zero_iff.mp hbefore,List.append_nil] at hposts
  rw [← hposts] at hiff
  exact ⟨d,hret,hmoved,fun hall => hiff.mp hall (.inl hspent)⟩

theorem kq_stays_again : ∃ s s',exec (step sem) {world := {}} begin=some s ∧ exec (step sem) s again=some s' ∧
    ∃ o m,s'.fd.pend=some ⟨o,some m⟩ := by
  have hrun : (exec (step sem) {world := {}} begin).any (fun s => (exec (step sem) s again).any fun s' =>
      decide (s.done.length=0 ∧ s'.done.length=0) && s.fd.pend.any fun p => p.run.isSome)=true := by decide +kernel
  obtain ⟨s,hs,hend⟩ := (Option.any_eq_true _ _).mp hrun
  obtain ⟨s',hs',hend⟩ := (Option.any_eq_true _ _).mp hend
  obtain ⟨hdone,hpend⟩ := Bool.and_eq_true_iff.mp hend
  obtain ⟨hnil,hnil'⟩ := of_decide_eq_true hdone
  obtain ⟨⟨o,run⟩,hp,hsome⟩ := (Option.any_eq_true _ _).mp hpend
  obtain ⟨m,rfl⟩ := Option.isSome_iff_exists.mp hsome
  obtain ⟨-,hstays⟩ := kq_stays (exec_reach hs)
  refine ⟨s,s',hs,hs',hstays s' ⟨o,m,hp⟩ (exec_reach hs') ?_⟩
  rw [List.length_eq_zero_iff.mp hnil,List.length_eq_zero_iff.mp hnil']

end Dpapp.KqIo
