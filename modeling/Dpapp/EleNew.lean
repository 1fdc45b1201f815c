import Dpapp.SocketOpen

/-! # Creating an element (os/linux/dpevp_epoll.c, dpssl.c, dpqic.c and the types of os/)

dpele_newv with the init and fini functions of all element types. What the calls on the way answer is given; errno is left
out. -/

namespace Dpapp.EleNew
open Dpapp.Ret
open Dpapp.SocketOpen (Errno Opener)

def dpeNomem : Dpret := -12
def dpeInternalError : Dpret := -500
def eexist : ℕ := 17

/-- What calls of dpele_newv have acquired and not released. -/
structure Held where
  element : ℤ := 0
  fd : ℤ := 0
  path : ℤ := 0
  fifo : ℤ := 0
  ssl : ℤ := 0

/-- An element or a descriptor that the caller passes; `closes` counts what has been closed of it. -/
structure Given where
  refs : ℤ := 1
  closes : ℕ := 0
  watched : Bool := true
  isClose : Bool := true

/-- `count` is that of a QUIC engine; `strays` counts the descriptors closed that are neither the element's nor the caller's,
`crashes` the null pointers followed. -/
structure World where
  held : Held := {}
  given : Given := {}
  count : ℤ := 0
  strays : ℕ := 0
  crashes : ℕ := 0

/-- Whose descriptor an element has. -/
inductive Whose
  | own
  | given
  | other

/-- The pointers of aux_data that a fini function looks at. -/
structure Aux where
  path : Bool := false
  unlinkOnDel : Bool := false
  ssn : Bool := false
  efd : Bool := false
  udpEfd : Option Whose := none
  engine : Bool := false

/-- What an init function returns and leaves in aux_data. -/
structure Begun where
  ret : Dpret
  aux : Aux := {}
  whose : Whose := .other

/-- dpele_type_t; `known` is whether `_dpele_new` has a case for its kind. All types of DPELE_TYPE_EFD have events. -/
structure EleType where
  efd : Bool := false
  known : Bool := true
  init : Option (World → World × Begun) := none
  fini : World → Aux → World := fun w _ => w

def World.element (w : World) (n : ℤ) : World := {w with held := {w.held with element := w.held.element+n}}
def World.fd (w : World) (n : ℤ) : World := {w with held := {w.held with fd := w.held.fd+n}}
def World.path (w : World) (n : ℤ) : World := {w with held := {w.held with path := w.held.path+n}}
def World.fifo (w : World) (n : ℤ) : World := {w with held := {w.held with fifo := w.held.fifo+n}}
def World.ssl (w : World) (n : ℤ) : World := {w with held := {w.held with ssl := w.held.ssl+n}}

/-- What the calls of dpele_newv and `_dpele_del` answer. -/
structure Answers where
  alloc : Bool := true
  watch : Option Errno := none
  unwatch : Option Errno := none

/-- `_dpevp_unwch_efd` -/
def World.unwatch (w : World) (x : Whose) (r : Option Errno) : World :=
  match x with
  | .given => if r=none then {w with given := {w.given with watched := false}} else w
  | .own | .other => w

def World.close (w : World) (x : Whose) : World :=
  match x with
  | .own => w.fd (-1)
  | .given => {w with given := {w.given with closes := w.given.closes+1}}
  | .other => {w with strays := w.strays+1}

/-- `_dpele_del` of an element that is_close -/
def dpeleDel (t : EleType) (w : World) (b : Begun) (fd : ℤ) (a : Answers) : World :=
  let w := if t.efd=true ∧ 0≤fd then (w.unwatch b.whose a.unwatch).close b.whose else w
  (t.fini w b.aux).element (-1)

/-- dpele_newv -/
def dpeleNewv (t : EleType) (a : Answers) (w : World) : World × Option Begun :=
  -- _dpele_new
  if a.alloc=false then (w,none)
  else if t.known=false then ((w.element 1).element (-1),none)
  else
    match t.init with
    | none => (w.element 1,some {ret := dpeOk})
    | some init =>
        match init (w.element 1) with
        | (w,b) =>
            if b.ret<0 then (dpeleDel t w b (-1) a,none)
            else if t.efd=true then
              match a.watch with
              | none => (w,some b)
              | some _ => (dpeleDel t w b b.ret a,none)
            else (w,some b)

/-! ### The types -/

/-- The six openers of sockets. -/
def openerInit (o : Opener) (w : World) : World × Begun :=
  ({w with
      held := {w.held with fd := w.held.fd+o.run.1.mine.length}
      strays := w.strays+o.run.1.stray.countP fun f => decide (0≤f)},
    {ret := o.run.2.2, whose := if o.run.1.mine=[o.run.2.2] then .own else .other})

def openerType (o : Opener) : EleType := {efd := true, init := some (openerInit o)}

/-- dpsig_vopen and dpfsm_vopen: one call opens the descriptor. -/
def oneInit (r : Except Errno ℕ) (w : World) : World × Begun :=
  match r with
  | .ok fd => (w.fd 1,{ret := fd, whose := .own})
  | .error _ => (w,{ret := -1})

/-- What stat and mkfifo answer. -/
inductive Stat
  | fifo
  | other
  | missing (mkfifo : Option Errno)
  | fails (e : Errno)

structure Pip where
  hasPath : Bool
  stat : Stat
  evOk : Bool
  opened : Except Errno ℕ
  strdup : Bool
  unlinkOnDel : Bool
  -- lstat when the element is deleted
  isFifo : Bool

/-- `_dppip_vopen` up to its open; a negative code ends it. -/
def Pip.check (p : Pip) (w : World) : World × Dpret :=
  if p.hasPath=false then (w,dpeInval)
  else
    match p.stat with
    | .fifo => (w,if p.evOk=true then dpeOk else dpeInval)
    | .other => (w,dpeInval)
    | .missing none => (w.fifo 1,if p.evOk=true then dpeOk else dpeInval)
    | .missing (some e) => (w,if e.1≠eexist then -e.1 else if p.evOk=true then dpeOk else dpeInval)
    | .fails e => (w,-e.1)

/-- `_dppip_vopen` -/
def dppipVopen (p : Pip) (w : World) : World × Begun :=
  match p.check w with
  | (w,r) =>
      if r<0 then (w,{ret := r})
      else
        match p.opened with
        | .error e => (w,{ret := -e.1})
        | .ok fd =>
            if p.strdup=false then ((w.fd 1).fd (-1),{ret := dpeNomem})
            else ((w.fd 1).path 1,{ret := fd, aux := {path := true, unlinkOnDel := p.unlinkOnDel}, whose := .own})

/-- `_dppip_fini` -/
def dppipFini (p : Pip) (w : World) (u : Aux) : World :=
  if u.path=true then (if u.unlinkOnDel=true ∧ p.isFifo=true then w.fifo (-1) else w).path (-1) else w

/-- `_dpspd_vopen`; `config` is the error of `_dpspd_configure_fd`. -/
def dpspdVopen (file : Bool) (r : Except Errno ℕ) (config : Option Errno) (w : World) : World × Begun :=
  if file=false then (w,{ret := dpeInval})
  else
    match r with
    | .error e => (w,{ret := -e.1})
    | .ok fd =>
        match config with
        | some e => ((w.fd 1).fd (-1),{ret := -e.1})
        | none => (w.fd 1,{ret := fd, whose := .own})

/-- `_dpefd_init_uinit` -/
def dpefdInitUinit (fd : ℤ) (w : World) : World × Begun :=
  (w,if fd<0 then {ret := dpeInval} else {ret := fd, whose := .given})

/-- `_dptcp_server_vopen`, and `_dpuds_server_vopen` with an address -/
def serverVopen (fd : ℤ) (addr : Bool) (w : World) : World × Begun :=
  (w,if addr=false then {ret := dpeInval} else {ret := fd, whose := .given})

/-- `doing` and `fd` are those of the element below, and `lower` is what deregistering it answers. -/
structure Ssl where
  argsOk : Bool
  doing : Bool
  group : Option Errno
  roleOk : Bool
  sslNew : Bool
  bioNew : Bool
  fd : ℤ
  lower : Option Errno := none

/-- `_dpssl_client_uinit` and `_dpssl_server_uinit` -/
def dpsslUinit (s : Ssl) (w : World) : World × Begun :=
  if s.argsOk=false then (w,{ret := dpeInval})
  else if s.doing=true then (w,{ret := dpePerm})
  else
    match s.group with
    | some e => (w,{ret := -e.1})
    | none =>
        if s.roleOk=false then (w,{ret := dpeInval})
        else if s.sslNew=false then (w,{ret := dpeInternalError})
        else if s.bioNew=false then ((w.ssl 1).ssl (-1),{ret := dpeInternalError})
        else
          let w := w.ssl 1
          ({w with given := {w.given with isClose := false}},
            {ret := s.fd, aux := {ssn := true, efd := true}, whose := .given})

/-- dpele_del of the element that the caller has passed, which has a descriptor. -/
def World.delGiven (w : World) (r : Option Errno) : World :=
  let w' : World := {w with given := {w.given with refs := w.given.refs-1}}
  if w.given.refs=1 then
    let w' := w'.unwatch .given r
    if w.given.isClose=true then w'.close .given else w'
  else w'

/-- `_dpssl_ssn_ufini` -/
def dpsslSsnUfini (s : Ssl) (w : World) (u : Aux) : World :=
  let w := if u.ssn=true then w.ssl (-1) else w
  if u.efd=true then w.delGiven s.lower else w

/-- What `_dpqic_get_engine`, dpele_newv for udp_efd, setopt, dpefd_set_block and dpevp_add answer. -/
structure Qic where
  engine : Option Errno
  host : Option String
  port : ℤ
  result : SocketOpen.Resolved
  udp : Answers := {}
  setopt : Option Errno := none
  setBlock : Option Errno := none
  add : Option Errno := none

/-- dpele_del of udp_efd -/
def World.delUdp (w : World) (x : Whose) : World := (w.close x).element (-1)

/-- `_dpqic_listen_vopen` and `_dpqic_client_vopen`, each with its opener and its code for the lack of an engine. -/
def dpqicVopen (o : Opener) (noEngine : Errno → Dpret) (q : Qic) (w : World) : World × Begun :=
  match q.engine with
  | some e => (w,{ret := noEngine e})
  | none =>
      match dpeleNewv (openerType o) q.udp w with
      | (w,none) => (w,{ret := dpeInval})
      | (w,some b) =>
          match q.setopt.or (q.setBlock.or q.add) with
          -- udp_efd stays set when it is deleted
          | some e => (w.delUdp b.whose,{ret := -e.1, aux := {udpEfd := some b.whose}})
          | none => ({w with count := w.count+1},{ret := dpeOk, aux := {udpEfd := some b.whose, engine := true}})

def World.clean (w : World) (u : Aux) : World :=
  match u.udpEfd with
  | some x => w.delUdp x
  | none => w

/-- `_dpqic_listen_clean` -/
def dpqicListenClean (w : World) (u : Aux) : World :=
  (if u.engine=true then {w with count := w.count-1} else w).clean u

/-- `_dpqic_client_clean` -/
def dpqicClientClean (w : World) (u : Aux) : World :=
  (if u.engine=true then {w with count := w.count-1} else {w with crashes := w.crashes+1}).clean u

/-- `_dpctc_type_init` -/
def dpctcTypeInit (toid : Option Errno) (w : World) : World × Begun :=
  match toid with
  | some e => (w,{ret := -e.1})
  | none => (w,{ret := dpeOk})

/-- The types, each with what its init and fini functions meet. -/
inductive Kind
  | opener (o : Opener)
  | sig (r : Except Errno ℕ)
  | fsm (r : Except Errno ℕ)
  | pip (p : Pip)
  | spd (file : Bool) (r : Except Errno ℕ) (config : Option Errno)
  | efd (fd : ℤ)
  | tcpServer (fd : ℤ) (addr : Bool)
  | udsServer (fd : ℤ)
  | ssl (s : Ssl)
  | qicListen (q : Qic)
  | qicClient (q : Qic)
  | qicConect
  | qicStream
  | ctc (toid : Option Errno)
  | tmr
  | bad

def Qic.listen (q : Qic) : Opener := .udpServer q.host q.port q.result
def Qic.client (q : Qic) : Opener := .udpClient q.host q.port q.result

def Kind.type : Kind → EleType
  | .opener o => openerType o
  | .sig r | .fsm r => {efd := true, init := some (oneInit r)}
  | .pip p => {efd := true, init := some (dppipVopen p), fini := dppipFini p}
  | .spd file r config => {efd := true, init := some (dpspdVopen file r config)}
  | .efd fd => {efd := true, init := some (dpefdInitUinit fd)}
  | .tcpServer fd addr => {efd := true, init := some (serverVopen fd addr)}
  | .udsServer fd => {efd := true, init := some (serverVopen fd true)}
  | .ssl s => {efd := true, init := some (dpsslUinit s), fini := dpsslSsnUfini s}
  | .qicListen q => {init := some (dpqicVopen q.listen (fun e => -e.1) q), fini := dpqicListenClean}
  | .qicClient q => {init := some (dpqicVopen q.client (fun _ => dpeInval) q), fini := dpqicClientClean}
  | .qicConect | .qicStream => {init := some fun w => (w,{ret := dpeOk})}
  | .ctc toid => {init := some (dpctcTypeInit toid)}
  | .tmr => {}
  | .bad => {known := false}

/-! ### Failure -/

/-- All that has been acquired is released, once, and what the caller has passed is as it was. -/
structure Atomic (w w' : World) : Prop where
  held : w'.held=w.held
  given : w'.given=w.given
  count : w'.count=w.count
  strays : w'.strays=w.strays
  crashes : w'.crashes=w.crashes

/-- The opener has failed with a negative code, or its result is its own descriptor. -/
def owns (o : Opener) : Prop := o.run.2.2<0 ∨ o.run.1.mine=[o.run.2.2]

/-- `_dppip_vopen` creates the FIFO. -/
def Pip.creates (p : Pip) : Prop := p.hasPath=true ∧ p.stat=.missing none

/-- `_dppip_vopen` fails. -/
def Pip.fails (p : Pip) : Prop :=
  p.hasPath=false ∨ p.evOk=false ∨ p.strdup=false ∨ p.stat=.other ∨ (∃ e,p.stat=.fails e) ∨
    (∃ e : Errno,p.stat=.missing (some e) ∧ e.1≠eexist) ∨ ∃ e,p.opened=.error e

/-- The session gets hold of the element below. -/
def Ssl.attaches (s : Ssl) : Prop :=
  s.argsOk=true ∧ s.doing=false ∧ s.group=none ∧ s.roleOk=true ∧ s.sslNew=true ∧ s.bioNew=true

/-- dpele_newv gives no element of this opener. -/
def refuses (o : Opener) (a : Answers) : Prop := a.alloc=false ∨ o.run.2.2<0 ∨ a.watch.isSome

/-- When what has failed has been undone. -/
def Kind.undone : Kind → Prop
  | .opener o => owns o
  | .pip p => p.fails ∧ ¬p.creates ∨ ¬p.fails ∧ (p.creates ↔ p.unlinkOnDel=true ∧ p.isFifo=true)
  | .efd fd | .udsServer fd => fd<0
  | .tcpServer fd addr => addr=false ∨ fd<0
  | .ssl s => ¬s.attaches
  | .qicListen q => q.engine.isSome ∨ refuses q.listen q.udp ∧ (q.udp.alloc=false ∨ owns q.listen)
  | .qicClient _ => False
  | .sig _ | .fsm _ | .spd .. | .qicConect | .qicStream | .ctc _ | .tmr | .bad => True

section
variable {w w' : World} {t : EleType} {a : Answers} {o : Opener} {x : Whose}

theorem atomic_refl (w : World) : Atomic w w := ⟨rfl,rfl,rfl,rfl,rfl⟩

@[simp] theorem element_cancel (w : World) : (w.element 1).element (-1)=w := by
  unfold World.element
  simp only [Int.add_neg_cancel_right]

@[simp] theorem fd_cancel (w : World) : (w.fd 1).fd (-1)=w := by
  unfold World.fd
  simp only [Int.add_neg_cancel_right]

@[simp] theorem path_cancel (w : World) : (w.path 1).path (-1)=w := by
  unfold World.path
  simp only [Int.add_neg_cancel_right]

@[simp] theorem fifo_cancel (w : World) : (w.fifo 1).fifo (-1)=w := by
  unfold World.fifo
  simp only [Int.add_neg_cancel_right]

@[simp] theorem ssl_cancel (w : World) : (w.ssl 1).ssl (-1)=w := by
  unfold World.ssl
  simp only [Int.add_neg_cancel_right]

/-- A descriptor of its own is closed and leaves no trace. -/
@[simp] theorem unwatch_own (w : World) (r : Option Errno) : (w.unwatch .own r).close .own=w.fd (-1) := rfl

/-- The exits of dpele_newv without an element. -/
theorem newv_none (h : dpeleNewv t a w=(w',none)) : w'=w ∧ (a.alloc=false ∨ t.known=false) ∨
    a.alloc=true ∧ t.known=true ∧ ∃ init,t.init=some init ∧
      ((init (w.element 1)).2.ret<0 ∧ w'=dpeleDel t (init (w.element 1)).1 (init (w.element 1)).2 (-1) a ∨
        0≤(init (w.element 1)).2.ret ∧ t.efd=true ∧ a.watch.isSome ∧
          w'=dpeleDel t (init (w.element 1)).1 (init (w.element 1)).2 (init (w.element 1)).2.ret a) := by
  unfold dpeleNewv at h
  by_cases halloc : a.alloc=false
  · rw [if_pos halloc] at h
    cases h
    exact .inl ⟨rfl,.inl halloc⟩
  rw [if_neg halloc] at h
  by_cases hknown : t.known=false
  · rw [if_pos hknown] at h
    cases h
    exact .inl ⟨element_cancel w,.inr hknown⟩
  rw [if_neg hknown] at h
  refine .inr ⟨Bool.not_eq_false _ ▸ halloc,Bool.not_eq_false _ ▸ hknown,?_⟩
  cases hinit : t.init with
  | none =>
    rw [hinit] at h
    cases h
  | some init =>
    rw [hinit] at h
    refine ⟨init,rfl,?_⟩
    simp only at h
    by_cases hneg : (init (w.element 1)).2.ret<0
    · rw [if_pos hneg] at h
      cases h
      exact .inl ⟨hneg,rfl⟩
    rw [if_neg hneg] at h
    by_cases hefd : t.efd=true
    · rw [if_pos hefd] at h
      cases hwatch : a.watch with
      | none =>
        rw [hwatch] at h
        cases h
      | some e =>
        rw [hwatch] at h
        cases h
        exact .inr ⟨not_lt.mp hneg,hefd,rfl,rfl⟩
    · rw [if_neg hefd] at h
      cases h

/-- An init function that fails has left no descriptor to the element. -/
theorem del_failed (t : EleType) (w : World) (b : Begun) (a : Answers) : dpeleDel t w b (-1) a=(t.fini w b.aux).element (-1) := by
  unfold dpeleDel
  simp only [if_neg (show ¬(t.efd=true ∧ (0 : ℤ)≤ -1) by omega)]

theorem del_watched {b : Begun} (hefd : t.efd=true) (hfd : 0≤b.ret) (a : Answers) :
    dpeleDel t w b b.ret a=(t.fini ((w.unwatch b.whose a.unwatch).close b.whose) b.aux).element (-1) := by
  unfold dpeleDel
  simp only [if_pos (And.intro hefd hfd)]

/-- The exits behind the allocation, of a type with an init function. -/
theorem newv_failed {init : World → World × Begun} (hinit : t.init=some init) (hknown : t.known=true) (halloc : a.alloc=true)
    (h : dpeleNewv t a w=(w',none)) :
    (init (w.element 1)).2.ret<0 ∧ w'=(t.fini (init (w.element 1)).1 (init (w.element 1)).2.aux).element (-1) ∨
      0≤(init (w.element 1)).2.ret ∧ t.efd=true ∧ w'=(t.fini (((init (w.element 1)).1.unwatch (init (w.element 1)).2.whose
        a.unwatch).close (init (w.element 1)).2.whose) (init (w.element 1)).2.aux).element (-1) := by
  rcases newv_none h with ⟨-,hno⟩ | ⟨-,-,init',hinit',hcase⟩
  · rw [halloc,hknown] at hno
    rcases hno with hno | hno <;> cases hno
  · rw [hinit] at hinit'
    cases hinit'
    rcases hcase with ⟨hneg,hw⟩ | ⟨hpos,hefd,-,hw⟩
    · exact .inl ⟨hneg,hw.trans (del_failed ..)⟩
    · exact .inr ⟨hpos,hefd,hw.trans (del_watched hefd hpos a)⟩

/-- The caller's descriptor has been closed. -/
theorem given_closed (hw : w.given.closes<w'.given.closes) : ¬Atomic w w' := fun h => by
  have := congrArg Given.closes h.given
  omega

theorem opener_world (o : Opener) (w : World) : (openerInit o w).1=w.fd o.run.1.mine.length := by
  have hnone : o.run.1.stray.countP (fun f => decide (0≤f))=0 := by
    rw [List.countP_eq_zero]
    intro f hf hpos
    have := (SocketOpen.kept o).closes f hf
    have hpos := of_decide_eq_true hpos
    omega
  unfold openerInit World.fd
  rw [hnone,Nat.add_zero]

theorem opener_atomic (halloc : a.alloc=true) (h : dpeleNewv (openerType o) a w=(w',none)) : Atomic w w' ↔ owns o := by
  rcases newv_failed rfl rfl halloc h with ⟨hneg,hw⟩ | ⟨hpos,-,hw⟩
  · have hneg : o.run.2.2<0 := hneg
    have hw : w'=(openerInit o (w.element 1)).1.element (-1) := hw
    rw [hw,opener_world,(SocketOpen.kept o).failed hneg]
    have hsame : ((w.element 1).fd (([] : List ℤ).length : ℕ)).element (-1)=w := by
      unfold World.fd World.element
      simp
    rw [hsame]
    exact iff_of_true (atomic_refl w) (.inl hneg)
  · have hpos : 0≤o.run.2.2 := hpos
    have hw : w'=(((openerInit o (w.element 1)).1.unwatch (openerInit o (w.element 1)).2.whose a.unwatch).close
      (openerInit o (w.element 1)).2.whose).element (-1) := hw
    rw [hw,opener_world]
    by_cases hmine : o.run.1.mine=[o.run.2.2]
    · have hwhose : (openerInit o (w.element 1)).2.whose=.own := if_pos hmine
      have hlen : (o.run.1.mine.length : ℤ)=1 := by
        rw [hmine]
        rfl
      rw [hwhose,unwatch_own,hlen,fd_cancel,element_cancel]
      exact iff_of_true (atomic_refl w) (.inr hmine)
    · have hwhose : (openerInit o (w.element 1)).2.whose=.other := if_neg hmine
      rw [hwhose]
      refine iff_of_false (fun h => ?_) ?_
      · have : w.strays+1=w.strays := h.strays
        omega
      · rintro (hneg | hown)
        · omega
        · exact hmine hown

theorem one_atomic {r : Except Errno ℕ} (halloc : a.alloc=true)
    (h : dpeleNewv {efd := true, init := some (oneInit r)} a w=(w',none)) : Atomic w w' := by
  rcases newv_failed rfl rfl halloc h with ⟨hneg,hw⟩ | ⟨hpos,-,hw⟩
  · cases r with
    | error e =>
      have hw : w'=(w.element 1).element (-1) := hw
      rw [hw,element_cancel]
      exact atomic_refl w
    | ok fd => exact absurd hneg (show ¬(fd : ℤ)<0 by omega)
  · cases r with
    | error e => exact absurd hpos (show ¬(0 : ℤ)≤ -1 by decide)
    | ok fd =>
      have hw : w'=((((w.element 1).fd 1).unwatch .own a.unwatch).close .own).element (-1) := hw
      rw [hw,unwatch_own,fd_cancel,element_cancel]
      exact atomic_refl w

theorem spd_atomic {file : Bool} {r : Except Errno ℕ} {config : Option Errno} (halloc : a.alloc=true)
    (h : dpeleNewv {efd := true, init := some (dpspdVopen file r config)} a w=(w',none)) : Atomic w w' := by
  have hrun := newv_failed rfl rfl halloc h
  unfold dpspdVopen at hrun
  by_cases hfile : file=false
  · simp only [if_pos hfile,element_cancel] at hrun
    rcases hrun with ⟨-,hw⟩ | ⟨hpos,-⟩
    · exact hw ▸ atomic_refl w
    · exact absurd hpos (by decide)
  simp only [if_neg hfile] at hrun
  cases r with
  | error e =>
    have he := e.2
    simp only [element_cancel] at hrun
    rcases hrun with ⟨-,hw⟩ | ⟨hpos,-⟩
    · exact hw ▸ atomic_refl w
    · exact absurd hpos (show ¬(0 : ℤ)≤ -e.1 by omega)
  | ok fd =>
    cases config with
    | none =>
      simp only [unwatch_own,fd_cancel,element_cancel] at hrun
      rcases hrun with ⟨hneg,-⟩ | ⟨-,-,hw⟩
      · exact absurd hneg (show ¬(fd : ℤ)<0 by omega)
      · exact hw ▸ atomic_refl w
    | some e =>
      have he := e.2
      simp only [fd_cancel,element_cancel] at hrun
      rcases hrun with ⟨-,hw⟩ | ⟨hpos,-⟩
      · exact hw ▸ atomic_refl w
      · exact absurd hpos (show ¬(0 : ℤ)≤ -e.1 by omega)

/-- An init function that returns the caller's descriptor. -/
theorem given_atomic {b : Begun} (haux : b.whose=.given ∨ b.ret<0) (halloc : a.alloc=true)
    (h : dpeleNewv {efd := true, init := some fun w => (w,b)} a w=(w',none)) : Atomic w w' ↔ b.ret<0 := by
  rcases newv_failed rfl rfl halloc h with ⟨hneg,hw⟩ | ⟨hpos,-,hw⟩
  · have hw : w'=(w.element 1).element (-1) := hw
    rw [hw,element_cancel]
    exact iff_of_true (atomic_refl w) hneg
  · have hpos : 0≤b.ret := hpos
    have hw : w'=(((w.element 1).unwatch b.whose a.unwatch).close b.whose).element (-1) := hw
    have hgiven : b.whose=.given := haux.resolve_right (not_lt.mpr hpos)
    refine iff_of_false (given_closed ?_) (not_lt.mpr hpos)
    rw [hw,hgiven]
    unfold World.unwatch
    by_cases hr : a.unwatch=none
    · simp only [if_pos hr]
      exact Nat.lt_succ_self w.given.closes
    · simp only [if_neg hr]
      exact Nat.lt_succ_self w.given.closes

theorem efd_atomic {fd : ℤ} (halloc : a.alloc=true)
    (h : dpeleNewv {efd := true, init := some (dpefdInitUinit fd)} a w=(w',none)) : Atomic w w' ↔ fd<0 := by
  unfold dpefdInitUinit at h
  by_cases hfd : fd<0
  · simp only [if_pos hfd] at h
    exact iff_of_true ((given_atomic (.inr (by decide)) halloc h).mpr (by decide)) hfd
  · simp only [if_neg hfd] at h
    exact given_atomic (.inl rfl) halloc h

theorem server_atomic {fd : ℤ} {addr : Bool} (halloc : a.alloc=true)
    (h : dpeleNewv {efd := true, init := some (serverVopen fd addr)} a w=(w',none)) : Atomic w w' ↔ addr=false ∨ fd<0 := by
  unfold serverVopen at h
  by_cases haddr : addr=false
  · simp only [if_pos haddr] at h
    exact iff_of_true ((given_atomic (.inr (by decide)) halloc h).mpr (by decide)) (.inl haddr)
  · simp only [if_neg haddr] at h
    exact (given_atomic (.inl rfl) halloc h).trans (or_iff_right haddr).symm

@[simp] theorem element_refs (w : World) (n : ℤ) : (w.element n).given.refs=w.given.refs := rfl

@[simp] theorem ssl_refs (w : World) (n : ℤ) : (w.ssl n).given.refs=w.given.refs := rfl

@[simp] theorem unwatch_refs (w : World) (x : Whose) (r : Option Errno) : (w.unwatch x r).given.refs=w.given.refs := by
  cases x <;> cases r <;> rfl

@[simp] theorem close_refs (w : World) (x : Whose) : (w.close x).given.refs=w.given.refs := by
  cases x <;> rfl

theorem delGiven_refs (w : World) (r : Option Errno) : (w.delGiven r).given.refs=w.given.refs-1 := by
  unfold World.delGiven
  by_cases hrefs : w.given.refs=1
  · simp only [if_pos hrefs]
    by_cases hclose : w.given.isClose=true
    · simp only [if_pos hclose,close_refs,unwatch_refs]
    · simp only [if_neg hclose,unwatch_refs]
  · simp only [if_neg hrefs]

/-- The ladder of `_dpssl_client_uinit` and `_dpssl_server_uinit`. -/
theorem uinit_cases (s : Ssl) (w : World) :
    s.attaches ∧ dpsslUinit s w=({w.ssl 1 with given := {w.given with isClose := false}},
        {ret := s.fd, aux := {ssn := true, efd := true}, whose := .given}) ∨
      ¬s.attaches ∧ ∃ ret : Dpret,ret<0 ∧ dpsslUinit s w=(w,{ret := ret}) := by
  unfold dpsslUinit Ssl.attaches
  by_cases hargs : s.argsOk=false
  · refine .inr ⟨fun h => ?_,dpeInval,by decide,if_pos hargs⟩
    rw [hargs] at h
    cases h.1
  rw [if_neg hargs]
  by_cases hdoing : s.doing=true
  · refine .inr ⟨fun h => ?_,dpePerm,by decide,if_pos hdoing⟩
    rw [hdoing] at h
    cases h.2.1
  rw [if_neg hdoing]
  cases hgroup : s.group with
  | some e =>
    have he := e.2
    exact .inr ⟨fun h => (by cases h.2.2.1),-(e.1 : ℤ),show -(e.1 : ℤ)<0 by omega,rfl⟩
  | none =>
    simp only
    by_cases hrole : s.roleOk=false
    · refine .inr ⟨fun h => ?_,dpeInval,by decide,if_pos hrole⟩
      rw [hrole] at h
      cases h.2.2.2.1
    rw [if_neg hrole]
    by_cases hssl : s.sslNew=false
    · refine .inr ⟨fun h => ?_,dpeInternalError,by decide,if_pos hssl⟩
      rw [hssl] at h
      cases h.2.2.2.2.1
    rw [if_neg hssl]
    by_cases hbio : s.bioNew=false
    · refine .inr ⟨fun h => ?_,dpeInternalError,by decide,?_⟩
      · rw [hbio] at h
        cases h.2.2.2.2.2
      · rw [if_pos hbio,ssl_cancel]
    rw [if_neg hbio]
    exact .inl ⟨⟨Bool.not_eq_false _ ▸ hargs,Bool.not_eq_true _ ▸ hdoing,trivial,Bool.not_eq_false _ ▸ hrole,
      Bool.not_eq_false _ ▸ hssl,Bool.not_eq_false _ ▸ hbio⟩,rfl⟩

/-- Once the session has hold of the element below, deleting it takes a reference of that. -/
theorem ssl_attached {s : Ssl} (hs : s.attaches) (halloc : a.alloc=true) (h : dpeleNewv (Kind.ssl s).type a w=(w',none)) :
    w'.given.refs=w.given.refs-1 := by
  have hrun := newv_failed rfl rfl halloc h
  rcases uinit_cases s (w.element 1) with ⟨-,hinit⟩ | ⟨hno,-⟩
  · rw [hinit] at hrun
    simp only [Kind.type,dpsslSsnUfini,if_true] at hrun
    rcases hrun with ⟨-,hw⟩ | ⟨-,-,hw⟩
    · rw [hw]
      simp only [element_refs,delGiven_refs,ssl_refs]
    · rw [hw]
      simp only [element_refs,delGiven_refs,ssl_refs,close_refs,unwatch_refs]
  · exact absurd hs hno

theorem ssl_atomic {s : Ssl} (halloc : a.alloc=true) (h : dpeleNewv (Kind.ssl s).type a w=(w',none)) :
    Atomic w w' ↔ ¬s.attaches := by
  rcases uinit_cases s (w.element 1) with ⟨hs,-⟩ | ⟨hno,ret,hneg,hinit⟩
  · refine iff_of_false (fun hat => ?_) (not_not_intro hs)
    have hrefs := congrArg Given.refs hat.given
    rw [ssl_attached hs halloc h] at hrefs
    omega
  · have hrun := newv_failed rfl rfl halloc h
    rw [hinit] at hrun
    rcases hrun with ⟨-,hw⟩ | ⟨hpos,-⟩
    · have hw : w'=(w.element 1).element (-1) := hw
      rw [hw,element_cancel]
      exact iff_of_true (atomic_refl w) hno
    · exact absurd hneg (not_lt.mpr hpos)

/-- What comes before open creates the FIFO or changes nothing. -/
theorem check_world (p : Pip) (w : World) :
    p.creates ∧ (p.check w).1=w.fifo 1 ∨ ¬p.creates ∧ (p.check w).1=w := by
  unfold Pip.creates Pip.check
  by_cases hpath : p.hasPath=false
  · rw [if_pos hpath]
    refine .inr ⟨fun h => ?_,rfl⟩
    rw [hpath] at h
    cases h.1
  rw [if_neg hpath]
  have hpath : p.hasPath=true := Bool.not_eq_false _ ▸ hpath
  cases hstat : p.stat with
  | fifo | other | fails e => exact .inr ⟨fun h => (by cases h.2),rfl⟩
  | missing mkfifo =>
    cases mkfifo with
    | none => exact .inl ⟨⟨hpath,rfl⟩,rfl⟩
    | some e => exact .inr ⟨fun h => (by cases h.2),rfl⟩

/-- It fails for another reason than open and strdup. -/
theorem check_ret (p : Pip) (w : World) : (p.check w).2<0 ↔ p.hasPath=false ∨ p.evOk=false ∨ p.stat=.other ∨ (∃ e,p.stat=.fails e) ∨
    ∃ e : Errno,p.stat=.missing (some e) ∧ e.1≠eexist := by
  have hinval : dpeInval<0 := by decide
  have hok : ¬dpeOk<0 := by decide
  have hev : (if p.evOk=true then dpeOk else dpeInval)<0 ↔ p.evOk=false := by
    cases p.evOk
    · exact iff_of_true hinval rfl
    · exact iff_of_false hok Bool.noConfusion
  unfold Pip.check
  by_cases hpath : p.hasPath=false
  · rw [if_pos hpath]
    exact iff_of_true hinval (.inl hpath)
  rw [if_neg hpath,or_iff_right hpath]
  cases hstat : p.stat with
  | fifo => simpa using hev
  | other => exact iff_of_true hinval (.inr (.inl rfl))
  | fails e =>
    have he := e.2
    exact iff_of_true (show -(e.1 : ℤ)<0 by omega) (.inr (.inr (.inl ⟨e,rfl⟩)))
  | missing mkfifo =>
    cases mkfifo with
    | none => simpa using hev
    | some e =>
      have he := e.2
      by_cases hexist : e.1≠eexist
      · simp only [if_pos hexist]
        exact iff_of_true (show -(e.1 : ℤ)<0 by omega) (.inr (.inr (.inr ⟨e,rfl,hexist⟩)))
      · simp only [if_neg hexist,hev]
        refine ⟨.inl,?_⟩
        rintro (h | h | ⟨e',h⟩ | ⟨e',h,hne⟩)
        · exact h
        · cases h
        · cases h
        · cases h
          exact absurd hne hexist

theorem pip_fails {p : Pip} (hp : p.fails) (w : World) :
    (dppipVopen p w).1=(p.check w).1 ∧ (dppipVopen p w).2.ret<0 ∧ (dppipVopen p w).2.aux={} := by
  unfold dppipVopen
  by_cases hcheck : (p.check w).2<0
  · simp only [if_pos hcheck]
    exact ⟨trivial,hcheck,trivial⟩
  · simp only [if_neg hcheck]
    rw [check_ret] at hcheck
    cases hopen : p.opened with
    | error e =>
      have he := e.2
      exact ⟨rfl,show -(e.1 : ℤ)<0 by omega,rfl⟩
    | ok fd =>
      have hdup : p.strdup=false := by
        rcases hp with h | h | h | h | h | h | ⟨e,h⟩
        · exact absurd (.inl h) hcheck
        · exact absurd (.inr (.inl h)) hcheck
        · exact h
        · exact absurd (.inr (.inr (.inl h))) hcheck
        · exact absurd (.inr (.inr (.inr (.inl h)))) hcheck
        · exact absurd (.inr (.inr (.inr (.inr h)))) hcheck
        · rw [hopen] at h
          cases h
      simp only [if_pos hdup,fd_cancel]
      exact ⟨trivial,by decide,trivial⟩

theorem pip_opens {p : Pip} (hp : ¬p.fails) (w : World) : ∃ fd : ℕ,dppipVopen p w=
    (((p.check w).1.fd 1).path 1,{ret := fd, aux := {path := true, unlinkOnDel := p.unlinkOnDel}, whose := .own}) := by
  have hcheck : ¬(p.check w).2<0 := by
    rw [check_ret]
    rintro (h | h | h | h | h)
    · exact hp (.inl h)
    · exact hp (.inr (.inl h))
    · exact hp (.inr (.inr (.inr (.inl h))))
    · exact hp (.inr (.inr (.inr (.inr (.inl h)))))
    · exact hp (.inr (.inr (.inr (.inr (.inr (.inl h))))))
  have hdup : ¬p.strdup=false := fun h => hp (.inr (.inr (.inl h)))
  unfold dppipVopen
  simp only [if_neg hcheck]
  cases hopen : p.opened with
  | error e => exact absurd (.inr (.inr (.inr (.inr (.inr (.inr ⟨e,hopen⟩)))))) hp
  | ok fd =>
    simp only [if_neg hdup]
    exact ⟨fd,rfl⟩

/-- A FIFO that is created and not unlinked stays, and one that was there and is unlinked is gone. -/
theorem pip_atomic {p : Pip} (halloc : a.alloc=true)
    (h : dpeleNewv {efd := true, init := some (dppipVopen p), fini := dppipFini p} a w=(w',none)) :
    Atomic w w' ↔ p.fails ∧ ¬p.creates ∨ ¬p.fails ∧ (p.creates ↔ p.unlinkOnDel=true ∧ p.isFifo=true) := by
  have hfifo {v : World} (n : ℤ) (hn : n≠0) (hv : v.held.fifo=w.held.fifo+n) : ¬Atomic w v := fun h => by
    have := congrArg Held.fifo h.held
    omega
  have hrun := newv_failed rfl rfl halloc h
  by_cases hp : p.fails
  · obtain ⟨hworld,hneg,haux⟩ := pip_fails hp (w.element 1)
    rw [hworld,haux] at hrun
    rcases hrun with ⟨-,hw⟩ | ⟨hpos,-⟩
    · have hw : w'=(p.check (w.element 1)).1.element (-1) := hw
      rw [hw,or_iff_left fun h => h.1 hp,and_iff_right hp]
      rcases check_world p (w.element 1) with ⟨hc,hv⟩ | ⟨hc,hv⟩
      · rw [hv]
        exact iff_of_false (hfifo 1 (by decide) rfl) (not_not_intro hc)
      · rw [hv,element_cancel]
        exact iff_of_true (atomic_refl w) hc
    · exact absurd hneg (not_lt.mpr hpos)
  · obtain ⟨fd,hopen⟩ := pip_opens hp (w.element 1)
    rw [hopen] at hrun
    rw [or_iff_right fun h => hp h.1,and_iff_right hp]
    rcases hrun with ⟨hneg,-⟩ | ⟨-,-,hw⟩
    · exact absurd hneg (show ¬(fd : ℤ)<0 by omega)
    have hdel (v : World) : ((v.fd 1).path 1).fd (-1)=v.path 1 := by
      have hcomm : ((v.fd 1).path 1).fd (-1)=((v.fd 1).fd (-1)).path 1 := rfl
      rw [hcomm,fd_cancel]
    simp only [unwatch_own,hdel,dppipFini,if_true] at hw
    by_cases hunlink : p.unlinkOnDel=true ∧ p.isFifo=true
    · have hcomm (v : World) : ((v.path 1).fifo (-1)).path (-1)=v.fifo (-1) := by
        have hcomm : ((v.path 1).fifo (-1)).path (-1)=((v.path 1).path (-1)).fifo (-1) := rfl
        rw [hcomm,path_cancel]
      rw [if_pos hunlink,hcomm] at hw
      rw [hw]
      rcases check_world p (w.element 1) with ⟨hc,hv⟩ | ⟨hc,hv⟩
      · rw [hv,fifo_cancel,element_cancel]
        exact iff_of_true (atomic_refl w) (iff_of_true hc hunlink)
      · rw [hv]
        exact iff_of_false (hfifo (-1) (by decide) rfl) fun h => hc (h.mpr hunlink)
    · rw [if_neg hunlink,path_cancel] at hw
      rw [hw]
      rcases check_world p (w.element 1) with ⟨hc,hv⟩ | ⟨hc,hv⟩
      · rw [hv]
        exact iff_of_false (hfifo 1 (by decide) rfl) fun h => hunlink (h.mp hc)
      · rw [hv,element_cancel]
        exact iff_of_true (atomic_refl w) (iff_of_false hc hunlink)

theorem opener_refuses (o : Opener) (a : Answers) (w : World) :
    refuses o a ∧ (dpeleNewv (openerType o) a w).2=none ∨
      ¬refuses o a ∧ ∃ b,dpeleNewv (openerType o) a w=((openerInit o (w.element 1)).1,some b) := by
  unfold refuses dpeleNewv
  by_cases halloc : a.alloc=false
  · rw [if_pos halloc]
    exact .inl ⟨.inl halloc,rfl⟩
  rw [if_neg halloc,if_neg (show ¬(openerType o).known=false from Bool.noConfusion)]
  simp only [openerType]
  by_cases hneg : (openerInit o (w.element 1)).2.ret<0
  · simp only [if_pos hneg]
    exact .inl ⟨.inr (.inl hneg),trivial⟩
  simp only [if_neg hneg,if_true]
  cases hwatch : a.watch with
  | some e => exact .inl ⟨.inr (.inr rfl),rfl⟩
  | none =>
    refine .inr ⟨?_,_,rfl⟩
    rintro (h | h | h)
    · exact halloc h
    · exact hneg h
    · cases h

/-- The failures of the QUIC init functions: before the engine has been counted. -/
theorem qic_failed {noEngine : Errno → Dpret} (q : Qic) (hneg : (dpqicVopen o noEngine q w).2.ret<0) :
    (dpqicVopen o noEngine q w).2.aux={} ∧ (q.engine.isSome ∧ (dpqicVopen o noEngine q w).1=w ∨
        q.engine=none ∧ refuses o q.udp ∧ dpeleNewv (openerType o) q.udp w=((dpqicVopen o noEngine q w).1,none)) ∨
      q.engine=none ∧ ¬refuses o q.udp ∧ ∃ x,(dpqicVopen o noEngine q w).2.aux={udpEfd := some x} ∧
        (dpqicVopen o noEngine q w).1=(openerInit o (w.element 1)).1.delUdp x := by
  unfold dpqicVopen at hneg ⊢
  cases hengine : q.engine with
  | some e => exact .inl ⟨rfl,.inl ⟨rfl,rfl⟩⟩
  | none =>
    simp only [hengine] at hneg ⊢
    rcases opener_refuses o q.udp w with ⟨href,hnone⟩ | ⟨href,b,hsome⟩
    · refine .inl ?_
      generalize dpeleNewv (openerType o) q.udp w=x at hnone ⊢
      obtain ⟨v,r⟩ := x
      cases hnone
      exact ⟨rfl,.inr ⟨trivial,href,rfl⟩⟩
    · rw [hsome] at hneg ⊢
      refine .inr ⟨trivial,href,b.whose,?_⟩
      cases hset : q.setopt.or (q.setBlock.or q.add) with
      | none =>
        simp only [hset] at hneg
        exact absurd hneg (show ¬dpeOk<0 by decide)
      | some e => exact ⟨rfl,rfl⟩

@[simp] theorem delUdp_element (w : World) (x : Whose) : (w.delUdp x).held.element=w.held.element-1 := by
  cases x <;> rfl

@[simp] theorem close_crashes (w : World) (x : Whose) : (w.close x).crashes=w.crashes := by
  cases x <;> rfl

@[simp] theorem unwatch_crashes (w : World) (x : Whose) (r : Option Errno) : (w.unwatch x r).crashes=w.crashes := by
  cases x <;> cases r <;> rfl

theorem opener_crashes (h : dpeleNewv (openerType o) a w=(w',none)) : w'.crashes=w.crashes := by
  rcases newv_none h with ⟨hw,-⟩ | ⟨-,-,init,hinit,hcase⟩
  · rw [hw]
  · cases hinit
    have hkeep : (openerInit o (w.element 1)).1.crashes=w.crashes := rfl
    rcases hcase with ⟨-,hw⟩ | ⟨hpos,hefd,-,hw⟩
    · rw [hw,del_failed]
      exact hkeep
    · rw [hw,del_watched hefd hpos]
      exact (close_crashes _ _).trans ((unwatch_crashes _ _ _).trans hkeep)

/-- What a nested failure leaves is what the whole call leaves. -/
theorem atomic_element : Atomic w (w'.element (-1)) ↔ Atomic (w.element 1) w' := by
  constructor
  · intro h
    have hheld : w'=(w'.element (-1)).element 1 := by
      unfold World.element
      simp only [Int.neg_add_cancel_right]
    rw [hheld]
    refine ⟨?_,h.given,h.count,h.strays,h.crashes⟩
    exact congrArg (fun x : Held => {x with element := x.element+1}) h.held
  · intro h
    have hheld : w=(w.element 1).element (-1) := (element_cancel w).symm
    rw [hheld]
    refine ⟨?_,h.given,h.count,h.strays,h.crashes⟩
    exact congrArg (fun x : Held => {x with element := x.element+ -1}) h.held

/-- A QUIC element whose udp_efd has been made and cannot be used deletes it twice. -/
theorem listen_atomic {q : Qic} (halloc : a.alloc=true)
    (h : dpeleNewv {init := some (dpqicVopen o (fun e => -e.1) q), fini := dpqicListenClean} a w=(w',none)) :
    Atomic w w' ↔ q.engine.isSome ∨ refuses o q.udp ∧ (q.udp.alloc=false ∨ owns o) := by
  rcases newv_failed rfl rfl halloc h with ⟨hneg,hw⟩ | ⟨-,hefd,-⟩
  · rcases qic_failed q hneg with ⟨haux,hearly⟩ | ⟨hengine,href,x,haux,hworld⟩
    · have hw : w'=(dpqicVopen o (fun e => -(e.1 : ℤ)) q (w.element 1)).1.element (-1) := by
        rw [hw,haux]
        rfl
      rcases hearly with ⟨hsome,hworld⟩ | ⟨hengine,href,hnested⟩
      · rw [hw,hworld,element_cancel]
        exact iff_of_true (atomic_refl w) (.inl hsome)
      · rw [hengine,or_iff_right (show ¬(none : Option Errno).isSome=true from Bool.noConfusion),and_iff_right href,hw,
          atomic_element]
        by_cases hudp : q.udp.alloc=false
        · rcases newv_none hnested with ⟨hsame,-⟩ | ⟨hyes,-⟩
          · rw [hsame]
            exact iff_of_true (atomic_refl _) (.inl hudp)
          · rw [hudp] at hyes
            cases hyes
        · rw [or_iff_right hudp]
          exact opener_atomic (Bool.not_eq_false _ ▸ hudp) hnested
    · rw [hengine,or_iff_right (show ¬(none : Option Errno).isSome=true from Bool.noConfusion)]
      refine iff_of_false (fun hat => ?_) fun h => href h.1
      have hcount := congrArg Held.element hat.held
      rw [hw,haux,hworld] at hcount
      have hclean (v : World) : (dpqicListenClean v {udpEfd := some x}).element (-1)=(v.delUdp x).element (-1) := rfl
      have hdel (v : World) : (v.element (-1)).held.element=v.held.element+ -1 := rfl
      have hnew : (openerInit o ((w.element 1).element 1)).1.held.element=w.held.element+1+1 := rfl
      rw [hclean,hdel,delUdp_element,delUdp_element,hnew] at hcount
      omega
  · cases hefd

/-- Without its engine a QUIC client cannot be cleaned. -/
theorem client_atomic {q : Qic} (halloc : a.alloc=true)
    (h : dpeleNewv {init := some (dpqicVopen o (fun _ => dpeInval) q), fini := dpqicClientClean} a w=(w',none)) :
    ¬Atomic w w' := by
  intro hat
  have hcrash := hat.crashes
  have hclean (v : World) (x : Option Whose) : ((dpqicClientClean v {udpEfd := x}).element (-1)).crashes=v.crashes+1 := by
    cases x with
    | none => rfl
    | some x => exact close_crashes _ x
  rcases newv_failed rfl rfl halloc h with ⟨hneg,hw⟩ | ⟨-,hefd,-⟩
  · rcases qic_failed q hneg with ⟨haux,hearly⟩ | ⟨-,-,x,haux,hworld⟩
    · have hsame : (dpqicVopen o (fun _ => dpeInval) q (w.element 1)).1.crashes=w.crashes := by
        rcases hearly with ⟨-,hworld⟩ | ⟨-,-,hnested⟩
        · rw [hworld]
          rfl
        · have hkeep : _=(w.element 1).crashes := opener_crashes hnested
          exact hkeep
      rw [hw,haux] at hcrash
      have := (hclean _ none).symm.trans hcrash
      omega
    · rw [hw,haux,hworld] at hcrash
      have hsame : ((openerInit o ((w.element 1).element 1)).1.delUdp x).crashes=w.crashes := close_crashes _ x
      have := (hclean _ (some x)).symm.trans hcrash
      omega
  · cases hefd

theorem newv_atomic (k : Kind) (a : Answers) (w w' : World) (h : dpeleNewv k.type a w=(w',none)) :
    Atomic w w' ↔ a.alloc=false ∨ k.undone := by
  by_cases halloc : a.alloc=false
  · rcases newv_none h with ⟨hw,-⟩ | ⟨hyes,-⟩
    · rw [hw]
      exact iff_of_true (atomic_refl w) (.inl halloc)
    · rw [halloc] at hyes
      cases hyes
  rw [or_iff_right halloc]
  have halloc : a.alloc=true := Bool.not_eq_false _ ▸ halloc
  cases k with
  | opener o => exact opener_atomic halloc h
  | sig r | fsm r => exact iff_of_true (one_atomic halloc h) trivial
  | pip p => exact pip_atomic halloc h
  | spd file r config => exact iff_of_true (spd_atomic halloc h) trivial
  | efd fd => exact efd_atomic halloc h
  | tcpServer fd addr => exact server_atomic halloc h
  | udsServer fd => exact (server_atomic halloc h).trans (or_iff_right (by decide))
  | ssl s => exact ssl_atomic halloc h
  | qicListen q => exact listen_atomic halloc h
  | qicClient q => exact iff_of_false (client_atomic halloc h) id
  | qicConect | qicStream =>
    rcases newv_failed rfl rfl halloc h with ⟨hneg,-⟩ | ⟨-,hefd,-⟩
    · exact absurd hneg (show ¬dpeOk<0 by decide)
    · cases hefd
  | ctc toid =>
    rcases newv_failed rfl rfl halloc h with ⟨hneg,hw⟩ | ⟨-,hefd,-⟩
    · cases toid with
      | none => exact absurd hneg (show ¬dpeOk<0 by decide)
      | some e =>
        have hw : w'=(w.element 1).element (-1) := hw
        rw [hw,element_cancel]
        exact iff_of_true (atomic_refl w) trivial
    · cases hefd
  | tmr | bad =>
    rcases newv_none h with ⟨hw,-⟩ | ⟨-,-,init,hinit,-⟩
    · rw [hw]
      exact iff_of_true (atomic_refl w) trivial
    · cases hinit

end

/-- The FIFO is made and cannot be opened: it stays. -/
theorem newv_atomic_fifo : ¬Atomic {} {held := {fifo := 1}} := by
  intro h
  have hno := (newv_atomic (.pip ⟨true,.missing none,true,.error ⟨6,by decide⟩,true,true,true⟩) {} {} {held := {fifo := 1}} rfl).mp h
  rcases hno with hno | ⟨-,hno⟩ | ⟨hno,-⟩
  · cases hno
  · exact hno ⟨rfl,rfl⟩
  · exact hno (.inr (.inr (.inr (.inr (.inr (.inr ⟨_,rfl⟩))))))

/-- A QUIC client of a group without an engine: its clean function follows a null pointer. -/
theorem newv_crash : ¬∀ (k : Kind) (a : Answers) (w w' : World),dpeleNewv k.type a w=(w',none) → Atomic w w' := by
  intro h
  have hat := h (.qicClient {engine := some ⟨22,by decide⟩, host := none, port := 0, result := .ok []}) {} {} {crashes := 1} rfl
  cases hat.crashes

end Dpapp.EleNew
