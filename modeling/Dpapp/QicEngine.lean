import Dpapp.Machine
import Dpapp.Ret
import Mathlib.Data.Set.Card

/-! # The life of a QUIC engine (dpqic.c)

The engines of a thread, the listeners and clients that use them, the UDP elements of these, and the connections that
lsquic has. -/

set_option linter.unusedSectionVars false

namespace Dpapp.QicEngine
open Dpapp.Machine Dpapp.Ret

inductive Role | server | client
  deriving DecidableEq

/-- Memory is given out once, so that what still points to freed memory can be told. -/
inductive Life | unborn | live | freed
  deriving DecidableEq

/-- `dpqic_engine_t`; `armed` tells whether its timer waits in the loop. -/
structure Engine where
  life : Life := .unborn
  group : List UInt8 := []
  count : ℤ := 0
  armed : Bool := false

/-- The `_DPQIC_EFD_HEAD_FIELDS` of a listener or a client. -/
structure User (ε υ : Type*) where
  life : Life := .unborn
  role : Role := .server
  engine : Option ε := none
  udp : Option υ := none

/-- A UDP element; `op` is its pending `dpskt_qic_ioevent()`, or rather the listener or client that this is about. -/
structure Udp (κ : Type*) where
  life : Life := .unborn
  refc : ℤ := 0
  op : Option κ := none

/-- A connection of lsquic, which gets its peer context from lsquic_engine_connect or lsquic_engine_packet_in. -/
structure Conn (ε κ : Type*) where
  life : Life := .unborn
  engine : Option ε := none
  peer : Option κ := none

/- `head` is the list at engine_head. `fault` tells whether NULL or freed memory has been used: nothing can be said of
the states after that. -/
structure Sys (ε κ υ χ : Type*) where
  engine : ε → Engine := fun _ => {}
  head : List ε := []
  user : κ → User ε υ := fun _ => {}
  udp : υ → Udp κ := fun _ => {}
  conn : χ → Conn ε κ := fun _ => {}
  fault : Bool := false

variable {ε κ υ χ : Type*} [DecidableEq ε] [DecidableEq κ] [DecidableEq υ] [DecidableEq χ]

def Sys.setEngine (s : Sys ε κ υ χ) (e : ε) (x : Engine) : Sys ε κ υ χ := {s with engine := Function.update s.engine e x}
def Sys.setUser (s : Sys ε κ υ χ) (k : κ) (x : User ε υ) : Sys ε κ υ χ := {s with user := Function.update s.user k x}
def Sys.setUdp (s : Sys ε κ υ χ) (u : υ) (x : Udp κ) : Sys ε κ υ χ := {s with udp := Function.update s.udp u x}
def Sys.setConn (s : Sys ε κ υ χ) (c : χ) (x : Conn ε κ) : Sys ε κ υ χ := {s with conn := Function.update s.conn c x}
def Sys.crash (s : Sys ε κ υ χ) : Sys ε κ υ χ := {s with fault := true}

/-! ### Engines -/

def findEngine (s : Sys ε κ υ χ) (group : List UInt8) : Option ε :=
  s.head.find? fun e => decide ((s.engine e).group=group)

/-- `_dpqic_get_engine` of a group that is fit for QUIC; `e` is the place of a new engine. -/
def getEngine (s : Sys ε κ υ χ) (group : List UInt8) (e : ε) : Sys ε κ υ χ × ε :=
  match findEngine s group with
  | some i => (s,i)
  | none => ({s.setEngine e {life := .live, group := group.take 31} with head := s.head++[e]},e)

/-- lsquic_engine_destroy closes the connections of the engine. -/
def destroy (s : Sys ε κ υ χ) (e : ε) : Sys ε κ υ χ :=
  {s.setEngine e {s.engine e with life := .freed} with
    head := s.head.filter fun i => decide (i≠e)
    conn := fun c => if (s.conn c).life=.live ∧ (s.conn c).engine=some e then {s.conn c with life := .freed} else s.conn c}

/-- What dpqic_del_engine takes: an engine that nobody uses, of the group or of any. -/
def unused (s : Sys ε κ υ χ) (group : Option (List UInt8)) (e : ε) : Prop :=
  (s.engine e).count=0 ∧ ∀ g∈group,(s.engine e).group=g

instance (s : Sys ε κ υ χ) (group : Option (List UInt8)) (e : ε) : Decidable (unused s group e) :=
  inferInstanceAs (Decidable (_ ∧ ∀ g∈group,_))

def delLoop (s : Sys ε κ υ χ) (group : Option (List UInt8)) : List ε → Sys ε κ υ χ
  | [] => s
  | e::es => delLoop (if unused s group e then destroy s e else s) group es

/-- `dpqic_del_engine` -/
def dpqicDelEngine (s : Sys ε κ υ χ) (group : Option (List UInt8)) : Sys ε κ υ χ := delLoop s group s.head

/-! ### Connections -/

/-- `_dpqic_start_process`: the timer is added, or added anew. -/
def startProcess (s : Sys ε κ υ χ) (e : ε) : Sys ε κ υ χ :=
  if (s.engine e).life=.live then s.setEngine e {s.engine e with armed := true} else s.crash

/-- What lsquic does to a connection: it calls back or sends, for which the peer context is used, or it closes it. -/
inductive Effect (χ : Type*)
  | touch (c : χ)
  | close (c : χ)

def lsquic (s : Sys ε κ υ χ) (e : ε) : List (Effect χ) → Sys ε κ υ χ
  | [] => s
  | .touch c::evs =>
      let dangling := (s.conn c).life=.live ∧ (s.conn c).engine=some e ∧ ∀ k∈(s.conn c).peer,(s.user k).life≠.live
      lsquic (if dangling then s.crash else s) e evs
  | .close c::evs =>
      lsquic (if (s.conn c).life=.live ∧ (s.conn c).engine=some e then s.setConn c {s.conn c with life := .freed} else s)
        e evs

/-- `_dpqic_process_conns`; `tick` is what lsquic_engine_earliest_adv_tick says. -/
def processConns (s : Sys ε κ υ χ) (e : ε) (evs : List (Effect χ)) (tick : Bool) : Sys ε κ υ χ :=
  if (s.engine e).life=.live then
    let s := lsquic s e evs
    if tick=true then startProcess s e else s
  else s.crash

/-- lsquic_engine_packet_in: a packet of a connection, or of a new one if the engine is a server's. -/
def packetIn (s : Sys ε κ υ χ) (k : κ) (e : ε) (c : χ) : Sys ε κ υ χ :=
  match (s.conn c).life with
  | .unborn => if (s.user k).role=.server then s.setConn c ⟨.live,some e,some k⟩ else s
  | .live => if (s.conn c).engine=some e then s.setConn c {s.conn c with peer := some k} else s
  | .freed => s

/-- `_dpqic_ioevent_post`: packets of the connections `cs` come in, and then unsent packets are sent. -/
def ioeventPost (s : Sys ε κ υ χ) (k : κ) (cs : List χ) (evs : List (Effect χ)) (tick : Bool) (sent : List (Effect χ)) :
    Sys ε κ υ χ :=
  match (s.user k).engine with
  | none => s.crash
  | some e =>
      if (s.user k).life=.live ∧ (s.engine e).life=.live then
        let s := cs.foldl (fun s c => packetIn s k e c) s
        let s := if cs.isEmpty then s else processConns s e evs tick
        lsquic s e sent
      else s.crash

/-! ### UDP elements -/

/-- dpele_del: an element with a pending operation is left to the loop. -/
def udpDel (s : Sys ε κ υ χ) (u : υ) : Sys ε κ υ χ :=
  if (s.udp u).life=.live then
    let x := {s.udp u with refc := (s.udp u).refc-1}
    s.setUdp u (if (s.udp u).refc=1 ∧ (s.udp u).op=none then {x with life := .freed} else x)
  else s.crash

/-- `_dpele_asc_over` -/
def udpOver (s : Sys ε κ υ χ) (u : υ) : Sys ε κ υ χ :=
  let x := {s.udp u with op := none}
  s.setUdp u (if (s.udp u).refc≤0 then {x with life := .freed} else x)

/-! ### Listeners and clients -/

def udpDelOpt (s : Sys ε κ υ χ) : Option υ → Sys ε κ υ χ
  | none => s
  | some u => udpDel s u

def decr (s : Sys ε κ υ χ) (e : ε) : Sys ε κ υ χ :=
  if (s.engine e).life=.live then s.setEngine e {s.engine e with count := (s.engine e).count-1} else s.crash

/-- `_dpqic_listen_clean` -/
def listenClean (s : Sys ε κ υ χ) (x : User ε υ) : Sys ε κ υ χ :=
  let s := match x.engine with
    | some e => decr s e
    | none => s
  udpDelOpt s x.udp

/-- `_dpqic_client_clean` does not look whether there is an engine. -/
def clientClean (s : Sys ε κ υ χ) (x : User ε υ) : Sys ε κ υ χ :=
  let s := match x.engine with
    | some e => decr s e
    | none => s.crash
  udpDelOpt s x.udp

def clean (s : Sys ε κ υ χ) (x : User ε υ) : Sys ε κ υ χ :=
  match x.role with
  | .server => listenClean s x
  | .client => clientClean s x

/-- Where `_dpqic_listen_vopen` or `_dpqic_client_vopen` fails. -/
inductive Stage | engine | udp | setopt | block | add | done
  deriving DecidableEq

/-- `_dpqic_listen_vopen`, `_dpqic_client_vopen` -/
def vopen (s : Sys ε κ υ χ) (role : Role) (group : List UInt8) (e : ε) (k : κ) (u : υ) (stage : Stage) :
    Sys ε κ υ χ × User ε υ :=
  match stage with
  | .engine => (s,{life := .live, role := role})
  | .udp => ((getEngine s group e).1,{life := .live, role := role})
  | .setopt | .block | .add =>
      (udpDel ((getEngine s group e).1.setUdp u ⟨.live,1,none⟩) u,{life := .live, role := role, udp := some u})
  | .done =>
      let (s,e) := getEngine s group e
      ((s.setUdp u ⟨.live,1,some k⟩).setEngine e {s.engine e with count := (s.engine e).count+1},
        ⟨.live,role,some e,some u⟩)

/-- dpele_new: an init that fails is followed by the fini. -/
def newUser (s : Sys ε κ υ χ) (role : Role) (group : List UInt8) (e : ε) (k : κ) (u : υ) (stage : Stage) : Sys ε κ υ χ :=
  let (s,x) := vopen s role group e k u stage
  if stage=.done then s.setUser k x else (clean s x).setUser k {x with life := .freed}

def dpeNomem : Dpret := -12

/-- `_dpqic_gen_token` -/
def genToken (token : List UInt8) (nomem : Bool) : Dpret := if nomem=true then dpeNomem else (token.length/2 : ℕ)

/-- `_dpqic_connect_prep`; `refuse` if lsquic_engine_connect makes no connection. -/
def connectPrep (s : Sys ε κ υ χ) (k : κ) (c : χ) (token : Option (List UInt8)) (nomem refuse : Bool) : Sys ε κ υ χ :=
  match (s.user k).engine,(s.user k).udp with
  | some e,some u =>
      if (token.map fun t => genToken t nomem).any (fun r => decide (r≤0)) then udpDel s u
      else if (s.udp u).life=.live ∧ (s.engine e).life=.live then
        if refuse=true then s else startProcess (s.setConn c ⟨.live,some e,some k⟩) e
      else s.crash
  | _,_ => s.crash

/-! ### Runs -/

/- `add` and `new` have a place for what they make. `ioevent` is an event of a UDP element without EPOLLERR, EPOLLHUP and
EPOLLRDHUP, with which the operation is over if `ended`; `hup` is one with these, with which it is over without its post.
`process` is the prep of an operation of a connection or a stream of it. -/
inductive Act (ε κ υ χ : Type*)
  | add (group : List UInt8) (e : ε)
  | delete (group : Option (List UInt8))
  | new (role : Role) (group : List UInt8) (e : ε) (k : κ) (u : υ) (stage : Stage)
  | close (k : κ)
  | connect (k : κ) (c : χ) (token : Option (List UInt8)) (nomem refuse : Bool)
  | ioevent (u : υ) (cs : List χ) (evs : List (Effect χ)) (tick : Bool) (sent : List (Effect χ)) (ended : Bool)
  | hup (u : υ)
  | timeout (e : ε) (evs : List (Effect χ)) (tick : Bool)
  | process (c : χ)

def step (s : Sys ε κ υ χ) : Act ε κ υ χ → Option (Sys ε κ υ χ)
  | .add group e => if (s.engine e).life=.unborn then some (getEngine s group e).1 else none
  | .delete group => some (dpqicDelEngine s group)
  | .new role group e k u stage =>
      if (s.engine e).life=.unborn ∧ (s.user k).life=.unborn ∧ (s.udp u).life=.unborn then
        some (newUser s role group e k u stage)
      else none
  | .close k =>
      if (s.user k).life=.live then some ((clean s (s.user k)).setUser k {s.user k with life := .freed}) else none
  | .connect k c token nomem refuse =>
      if (s.user k).life=.live ∧ (s.user k).role=.client ∧ (s.conn c).life=.unborn then
        some (connectPrep s k c token nomem refuse)
      else none
  | .ioevent u cs evs tick sent ended =>
      match (s.udp u).op with
      | some k =>
          if (s.udp u).life=.live then
            let s := ioeventPost s k cs evs tick sent
            some (if ended=true then udpOver s u else s)
          else none
      | none => none
  | .hup u => if (s.udp u).life=.live ∧ (s.udp u).op≠none then some (udpOver s u) else none
  | .timeout e evs tick =>
      if (s.engine e).armed=true then some (processConns (s.setEngine e {s.engine e with armed := false}) e evs tick)
      else none
  | .process c =>
      match (s.conn c).peer with
      | some k =>
          if (s.conn c).life=.live then
            match (s.user k).engine with
            | some e => some (if (s.user k).life=.live then startProcess s e else s.crash)
            | none => some s.crash
          else none
      | none => none

/-! ### Nothing outlives its engine -/

/-- The listeners and clients that use the engine. -/
def users (s : Sys ε κ υ χ) (e : ε) : Set κ := {k | (s.user k).life=.live ∧ (s.user k).engine=some e}

/-- Nothing that is armed, pending or alive refers to the engine. -/
structure Gone (s : Sys ε κ υ χ) (e : ε) : Prop where
  timer : (s.engine e).armed=false
  udp : ∀ u k,(s.udp u).life=.live → (s.udp u).op=some k → (s.user k).engine≠some e
  user : ∀ k,(s.user k).life=.live → (s.user k).engine≠some e
  conn : ∀ c,(s.conn c).life=.live → (s.conn c).engine≠some e ∧ ∀ k∈(s.conn c).peer,(s.user k).engine≠some e

/-- A listener fails to open before it has its UDP element only, and a client not at all. A token has two digits at least,
and there is memory for it. What is the peer of a connection is not closed. dpqic_del_engine finds no engine to delete
whose timer is armed, or whose listener or client a pending UDP operation is about; and no such operation sees an event
once its listener or client has been closed. -/
def calm (s : Sys ε κ υ χ) : Act ε κ υ χ → Prop
  | .new role _ _ _ _ stage => stage=.done ∨ role=.server ∧ (stage=.engine ∨ stage=.udp)
  | .connect _ _ token nomem _ => ∀ t∈token,0<genToken t nomem
  | .close k => ∀ c,(s.conn c).life=.live → (s.conn c).peer≠some k
  | .delete group => ∀ e∈s.head,unused s group e →
      (s.engine e).armed=false ∧ ∀ u k,(s.udp u).life=.live → (s.udp u).op=some k → (s.user k).engine≠some e
  | .ioevent u .. => ∀ k∈(s.udp u).op,(s.user k).life=.live
  | _ => True

structure Sound (s : Sys ε κ υ χ) : Prop where
  fault : s.fault=false
  count : ∀ e,(s.engine e).life=.live → (users s e).Finite ∧ (s.engine e).count=(users s e).ncard
  deleted : ∀ group s' e,step s (.delete group)=some s' → (s.engine e).life=.live → (s'.engine e).life=.freed →
    (s.engine e).count=0
  gone : ∀ e,(s.engine e).life=.freed → Gone s e
  udp : ∀ k,(s.user k).life=.live → ∃ u,(s.user k).udp=some u ∧ (s.udp u).life=.live ∧ (s.udp u).refc=1 ∧
    ∀ k',(s.user k').life=.live → (s.user k').udp=some u → k'=k
  peer : ∀ c,(s.conn c).life=.live → ∃ k,(s.conn c).peer=some k ∧ (s.user k).life=.live

structure Inv (s : Sys ε κ υ χ) : Prop where
  fault : s.fault=false
  head : ∀ e∈s.head,(s.engine e).life=.live
  armed : ∀ e,(s.engine e).armed=true → (s.engine e).life=.live
  user : ∀ k,(s.user k).life=.live → ∃ e u,(s.user k).engine=some e ∧ (s.user k).udp=some u ∧
    (s.engine e).life=.live ∧ (s.udp u).life=.live ∧ (s.udp u).refc=1
  own : ∀ k k' u,(s.user k).life=.live → (s.user k').life=.live → (s.user k).udp=some u → (s.user k').udp=some u → k'=k
  op : ∀ u k,(s.udp u).life=.live → (s.udp u).op=some k →
    (s.user k).life≠.unborn ∧ ∀ e,(s.user k).engine=some e → (s.engine e).life=.live
  conn : ∀ c,(s.conn c).life=.live → ∃ k e,(s.conn c).peer=some k ∧ (s.conn c).engine=some e ∧
    (s.user k).life=.live ∧ (s.user k).engine=some e
  count : ∀ e,(s.engine e).life=.live → (users s e).Finite ∧ (s.engine e).count=(users s e).ncard

section Steps
variable {s s' : Sys ε κ υ χ} {e : ε} {k : κ} {u : υ} {c : χ}

theorem inv_start : Inv ({} : Sys ε κ υ χ) :=
  ⟨rfl,fun _ h => (by cases h),fun _ h => (by cases h),fun _ h => (by cases h),fun _ _ _ h => (by cases h),
    fun _ _ h => (by cases h),fun _ h => (by cases h),fun _ h => (by cases h)⟩

@[simp] theorem setEngine_self (x : Engine) : (s.setEngine e x).engine e=x := Function.update_self ..
@[simp] theorem setUser_self (x : User ε υ) : (s.setUser k x).user k=x := Function.update_self ..
@[simp] theorem setUdp_self (x : Udp κ) : (s.setUdp u x).udp u=x := Function.update_self ..
@[simp] theorem setConn_self (x : Conn ε κ) : (s.setConn c x).conn c=x := Function.update_self ..

theorem setEngine_ne {i : ε} (x : Engine) (h : i≠e) : (s.setEngine e x).engine i=s.engine i := Function.update_of_ne h ..
theorem setUser_ne {j : κ} (x : User ε υ) (h : j≠k) : (s.setUser k x).user j=s.user j := Function.update_of_ne h ..
theorem setUdp_ne {v : υ} (x : Udp κ) (h : v≠u) : (s.setUdp u x).udp v=s.udp v := Function.update_of_ne h ..
theorem setConn_ne {d : χ} (x : Conn ε κ) (h : d≠c) : (s.setConn c x).conn d=s.conn d := Function.update_of_ne h ..

/-! ### Timers, connections, UDP elements -/

/-- Another record of a live engine, with the same count. -/
theorem inv_setEngine {x : Engine} (h : Inv s) (he : (s.engine e).life=.live) (hx : x.life=.live)
    (hcount : x.count=(s.engine e).count) : Inv (s.setEngine e x) := by
  have hlife : ∀ i,(s.engine i).life=.live → ((s.setEngine e x).engine i).life=.live := by
    intro i hi
    by_cases hie : i=e
    · subst hie
      rwa [setEngine_self]
    · rwa [setEngine_ne _ hie]
  refine ⟨h.fault,fun i hi => hlife i (h.head i hi),fun i hi => ?_,fun k hk => ?_,h.own,fun u k hu hop => ?_,h.conn,
    fun i hi => ?_⟩
  · by_cases hie : i=e
    · subst hie
      rwa [setEngine_self]
    · rw [setEngine_ne _ hie] at hi ⊢
      exact h.armed i hi
  · obtain ⟨i,u,hi,hu,hlive,hrest⟩ := h.user k hk
    exact ⟨i,u,hi,hu,hlife i hlive,hrest⟩
  · obtain ⟨hborn,heng⟩ := h.op u k hu hop
    exact ⟨hborn,fun i hi => hlife i (heng i hi)⟩
  · by_cases hie : i=e
    · subst hie
      rw [setEngine_self,hcount]
      exact h.count i he
    · rw [setEngine_ne _ hie] at hi ⊢
      exact h.count i hi

theorem inv_startProcess (h : Inv s) (he : (s.engine e).life=.live) : Inv (startProcess s e) := by
  unfold startProcess
  rw [if_pos he]
  exact inv_setEngine h he he rfl

theorem inv_setConn {x : Conn ε κ} (h : Inv s) (hx : x.life=.live → ∃ k e,x.peer=some k ∧ x.engine=some e ∧
    (s.user k).life=.live ∧ (s.user k).engine=some e) : Inv (s.setConn c x) := by
  refine ⟨h.fault,h.head,h.armed,h.user,h.own,h.op,fun d hd => ?_,h.count⟩
  by_cases hdc : d=c
  · subst hdc
    rw [setConn_self] at hd ⊢
    exact hx hd
  · rw [setConn_ne _ hdc] at hd ⊢
    exact h.conn d hd

theorem lsquic_engine (s : Sys ε κ υ χ) (e : ε) (evs : List (Effect χ)) : (lsquic s e evs).engine=s.engine := by
  induction evs generalizing s with
  | nil => rfl
  | cons ev evs ih =>
    cases ev with
    | touch c =>
      simp only [lsquic]
      split
      · exact ih _
      · exact ih s
    | close c =>
      simp only [lsquic]
      split
      · exact ih _
      · exact ih s

theorem inv_lsquic (h : Inv s) (evs : List (Effect χ)) : Inv (lsquic s e evs) := by
  induction evs generalizing s with
  | nil => exact h
  | cons ev evs ih =>
    cases ev with
    | touch c =>
      simp only [lsquic]
      split
      · rename_i hd
        obtain ⟨hc,-,hdead⟩ := hd
        obtain ⟨k,-,hk,-,hlive,-⟩ := h.conn c hc
        exact absurd hlive (hdead k hk)
      · exact ih h
    | close c =>
      simp only [lsquic]
      split
      · exact ih (inv_setConn h fun hx => by cases hx)
      · exact ih h

theorem inv_processConns {evs : List (Effect χ)} {tick : Bool} (h : Inv s) (he : (s.engine e).life=.live) :
    Inv (processConns s e evs tick) := by
  unfold processConns
  rw [if_pos he]
  simp only
  split
  · exact inv_startProcess (inv_lsquic h evs) (by rw [lsquic_engine]; exact he)
  · exact inv_lsquic h evs

theorem inv_packetIn (h : Inv s) (hk : (s.user k).life=.live) (heng : (s.user k).engine=some e) :
    Inv (packetIn s k e c) := by
  unfold packetIn
  split
  · split
    · exact inv_setConn h fun _ => ⟨k,e,rfl,rfl,hk,heng⟩
    · exact h
  · split
    · rename_i hc
      exact inv_setConn h fun _ => ⟨k,e,rfl,hc,hk,heng⟩
    · exact h
  · exact h

theorem packetIn_frame : (packetIn s k e c).engine=s.engine ∧ (packetIn s k e c).user=s.user := by
  unfold packetIn
  split
  · split <;> exact ⟨rfl,rfl⟩
  · split <;> exact ⟨rfl,rfl⟩
  · exact ⟨rfl,rfl⟩

theorem inv_packets (h : Inv s) (hk : (s.user k).life=.live) (heng : (s.user k).engine=some e) (cs : List χ) :
    Inv (cs.foldl (fun s c => packetIn s k e c) s) ∧
      (cs.foldl (fun s c => packetIn s k e c) s).engine=s.engine := by
  induction cs generalizing s with
  | nil => exact ⟨h,rfl⟩
  | cons c cs ih =>
    obtain ⟨hengine,huser⟩ := packetIn_frame (s := s) (k := k) (e := e) (c := c)
    obtain ⟨hinv,he⟩ := ih (inv_packetIn h hk heng) (by rw [huser]; exact hk) (by rw [huser]; exact heng)
    exact ⟨hinv,he.trans hengine⟩

theorem inv_ioeventPost {cs : List χ} {evs sent : List (Effect χ)} {tick : Bool} (h : Inv s)
    (hk : (s.user k).life=.live) : Inv (ioeventPost s k cs evs tick sent) := by
  obtain ⟨e,-,heng,-,he,-⟩ := h.user k hk
  obtain ⟨hinv,hengine⟩ := inv_packets h hk heng cs
  unfold ioeventPost
  simp only [heng]
  rw [if_pos ⟨hk,he⟩]
  refine inv_lsquic ?_ sent
  split
  · exact hinv
  · exact inv_processConns hinv (by rw [hengine]; exact he)

/-- What a live listener or client has stays, and no operation is added. -/
theorem inv_setUdp {x : Udp κ} (h : Inv s) (hlive : ∀ k,(s.user k).life=.live → (s.user k).udp=some u →
      x.life=.live ∧ x.refc=1)
    (hop : x.life=.live → ∀ k,x.op=some k → (s.user k).life≠.unborn ∧
      ∀ e,(s.user k).engine=some e → (s.engine e).life=.live) : Inv (s.setUdp u x) := by
  refine ⟨h.fault,h.head,h.armed,fun k hk => ?_,h.own,fun v k hv hvop => ?_,h.conn,h.count⟩
  · obtain ⟨e,v,he,hv,hlife,hvlive,hrefc⟩ := h.user k hk
    refine ⟨e,v,he,hv,hlife,?_⟩
    by_cases hvu : v=u
    · subst hvu
      rw [setUdp_self]
      exact hlive k hk hv
    · rw [setUdp_ne _ hvu]
      exact ⟨hvlive,hrefc⟩
  · by_cases hvu : v=u
    · subst hvu
      rw [setUdp_self] at hv hvop
      exact hop hv k hvop
    · rw [setUdp_ne _ hvu] at hv hvop
      exact h.op v k hv hvop

theorem udp_of_user (h : Inv s) (hk : (s.user k).life=.live) (hu : (s.user k).udp=some u) :
    (s.udp u).life=.live ∧ (s.udp u).refc=1 := by
  obtain ⟨e,v,-,hv,-,hlive⟩ := h.user k hk
  rw [hu] at hv
  cases hv
  exact hlive

theorem inv_udpOver (h : Inv s) : Inv (udpOver s u) := by
  unfold udpOver
  simp only
  refine inv_setUdp h (fun k hk hu => ?_) fun _ k hop => ?_
  · obtain ⟨hlive,hrefc⟩ := udp_of_user h hk hu
    rw [if_neg (by omega)]
    exact ⟨hlive,hrefc⟩
  · split at hop <;> cases hop

/-! ### Opening -/

theorem find_head {group : List UInt8} {i : ε} (hf : findEngine s group=some i) : i∈s.head := List.mem_of_find?_eq_some hf

theorem users_unborn (h : Inv s) (he : (s.engine e).life=.unborn) : users s e=∅ := by
  refine Set.eq_empty_of_forall_notMem fun k ⟨hk,heng⟩ => ?_
  obtain ⟨i,-,hi,-,hlive,-⟩ := h.user k hk
  rw [heng] at hi
  cases hi
  rw [he] at hlive
  cases hlive

theorem inv_newEngine {group : List UInt8} (h : Inv s) (he : (s.engine e).life=.unborn) :
    Inv {s.setEngine e {life := .live, group := group} with head := s.head++[e]} := by
  have hne : ∀ i,(s.engine i).life=.live → i≠e := by
    rintro i hi rfl
    rw [he] at hi
    cases hi
  have hkeep : ∀ i,(s.engine i).life=.live → (s.setEngine e {life := .live, group := group}).engine i=s.engine i :=
    fun i hi => setEngine_ne _ (hne i hi)
  refine ⟨h.fault,fun i hi => ?_,fun i hi => ?_,fun k hk => ?_,h.own,fun u k hu hop => ?_,h.conn,fun i hi => ?_⟩
  · change ((s.setEngine e {life := .live, group := group}).engine i).life=.live
    rcases List.mem_append.mp hi with hi | hi
    · rw [hkeep i (h.head i hi)]
      exact h.head i hi
    · rw [List.mem_singleton.mp hi,setEngine_self]
  · change ((s.setEngine e {life := .live, group := group}).engine i).armed=true at hi
    change ((s.setEngine e {life := .live, group := group}).engine i).life=.live
    by_cases hie : i=e
    · subst hie
      rw [setEngine_self]
    · rw [setEngine_ne _ hie] at hi ⊢
      exact h.armed i hi
  · obtain ⟨i,u,hi,hu,hlive,hrest⟩ := h.user k hk
    exact ⟨i,u,hi,hu,(congrArg Engine.life (hkeep i hlive)).trans hlive,hrest⟩
  · obtain ⟨hborn,heng⟩ := h.op u k hu hop
    exact ⟨hborn,fun i hi => (congrArg Engine.life (hkeep i (heng i hi))).trans (heng i hi)⟩
  · change (users s i).Finite ∧ ((s.setEngine e {life := .live, group := group}).engine i).count=(users s i).ncard
    change ((s.setEngine e {life := .live, group := group}).engine i).life=.live at hi
    by_cases hie : i=e
    · subst hie
      rw [setEngine_self,users_unborn h he,Set.ncard_empty]
      exact ⟨Set.finite_empty,rfl⟩
    · rw [setEngine_ne _ hie] at hi ⊢
      exact h.count i hi

/-- The engine of the group, old or new, is live; and nothing else has changed. -/
theorem inv_getEngine (group : List UInt8) (h : Inv s) (he : (s.engine e).life=.unborn) :
    Inv (getEngine s group e).1 ∧
      ((getEngine s group e).1.engine (getEngine s group e).2).life=.live ∧
      (getEngine s group e).1.user=s.user ∧ (getEngine s group e).1.udp=s.udp := by
  unfold getEngine
  split
  · rename_i i hf
    exact ⟨h,h.head i (find_head hf),rfl,rfl⟩
  · exact ⟨inv_newEngine h he,congrArg Engine.life (setEngine_self _),rfl,rfl⟩

/-- Only the count of one engine changes, by `d`. -/
theorem counted_engine (d : ℤ) (i : ε) :
    let s' := s.setEngine e {s.engine e with count := (s.engine e).count+d}
    (s'.engine i).life=(s.engine i).life ∧ (s'.engine i).armed=(s.engine i).armed ∧
      (s'.engine i).count=(s.engine i).count+if i=e then d else 0 := by
  intro s'
  by_cases hie : i=e
  · subst hie
    rw [setEngine_self,if_pos rfl]
    exact ⟨rfl,rfl,rfl⟩
  · rw [setEngine_ne _ hie,if_neg hie,Int.add_zero]
    exact ⟨rfl,rfl,rfl⟩

/-- A listener or client is made, with its UDP element. -/
def opened (s : Sys ε κ υ χ) (role : Role) (e : ε) (k : κ) (u : υ) : Sys ε κ υ χ :=
  ((s.setUdp u ⟨.live,1,some k⟩).setEngine e {s.engine e with count := (s.engine e).count+1}).setUser k
    ⟨.live,role,some e,some u⟩

section Opened
variable {role : Role}

theorem opened_user : (opened s role e k u).user k=⟨.live,role,some e,some u⟩ := setUser_self _
theorem opened_user_ne {j : κ} (h : j≠k) : (opened s role e k u).user j=s.user j := setUser_ne _ h
theorem opened_udp : (opened s role e k u).udp u=⟨.live,1,some k⟩ := setUdp_self (s := s) _
theorem opened_udp_ne {v : υ} (h : v≠u) : (opened s role e k u).udp v=s.udp v := setUdp_ne (s := s) _ h

theorem opened_engine (i : ε) : ((opened s role e k u).engine i).life=(s.engine i).life ∧
    ((opened s role e k u).engine i).armed=(s.engine i).armed ∧
    ((opened s role e k u).engine i).count=(s.engine i).count+if i=e then 1 else 0 :=
  counted_engine 1 i

theorem opened_users (hk : (s.user k).life=.unborn) (i : ε) :
    users (opened s role e k u) i=if i=e then insert k (users s i) else users s i := by
  ext j
  by_cases hjk : j=k
  · subst hjk
    have hnot : j∉users s i := fun hj => by
      rw [hj.1] at hk
      cases hk
    have hmem : j∈users (opened s role e j u) i ↔ i=e := by
      change _ ∧ _ ↔ _
      rw [opened_user]
      exact ⟨fun h => (Option.some.inj h.2).symm,fun h => ⟨rfl,congrArg some h.symm⟩⟩
    rw [hmem]
    split
    · simp [*]
    · simp [*]
  · have hmem : j∈users (opened s role e k u) i ↔ j∈users s i := by
      change _ ∧ _ ↔ _ ∧ _
      rw [opened_user_ne hjk]
    rw [hmem]
    split
    · rw [Set.mem_insert_iff,or_iff_right hjk]
    · exact Iff.rfl

theorem inv_opened (h : Inv s) (he : (s.engine e).life=.live) (hk : (s.user k).life=.unborn)
    (hu : (s.udp u).life=.unborn) : Inv (opened s role e k u) := by
  have hlive : ∀ j,(s.user j).life=.live → j≠k := by
    rintro j hj rfl
    rw [hj] at hk
    cases hk
  have hudp : ∀ j v,(s.user j).life=.live → (s.user j).udp=some v → v≠u := by
    rintro j v hj hv rfl
    rw [(udp_of_user h hj hv).1] at hu
    cases hu
  have hself : (opened s role e k u).user k=⟨.live,role,some e,some u⟩ := opened_user
  have hold : ∀ j,((opened s role e k u).user j).life=.live → j≠k → (s.user j).life=.live := fun j hj hjk => by
    rwa [opened_user_ne hjk] at hj
  refine ⟨h.fault,fun i hi => (opened_engine i).1.trans (h.head i hi),fun i hi => ?_,fun j hj => ?_,
    fun j j' v hj hj' hv hv' => ?_,fun v j hv hop => ?_,fun c hc => ?_,fun i hi => ?_⟩
  · rw [(opened_engine i).1]
    exact h.armed i ((opened_engine i).2.1.symm.trans hi)
  · by_cases hjk : j=k
    · subst hjk
      refine ⟨e,u,by rw [hself],by rw [hself],(opened_engine e).1.trans he,?_⟩
      rw [opened_udp]
      exact ⟨rfl,rfl⟩
    · obtain ⟨i,v,hi,hv,hlife,hrest⟩ := h.user j (hold j hj hjk)
      refine ⟨i,v,?_,?_,(opened_engine i).1.trans hlife,?_⟩
      · rwa [opened_user_ne hjk]
      · rwa [opened_user_ne hjk]
      · rwa [opened_udp_ne (hudp j v (hold j hj hjk) hv)]
  · by_cases hjk : j=k
    · by_cases hjk' : j'=k
      · rw [hjk,hjk']
      · rw [hjk,hself] at hv
        cases hv
        rw [opened_user_ne hjk'] at hv'
        exact absurd rfl (hudp j' u (hold j' hj' hjk') hv')
    · rw [opened_user_ne hjk] at hv
      by_cases hjk' : j'=k
      · rw [hjk',hself] at hv'
        cases hv'
        exact absurd rfl (hudp j u (hold j hj hjk) hv)
      · rw [opened_user_ne hjk'] at hv'
        exact h.own j j' v (hold j hj hjk) (hold j' hj' hjk') hv hv'
  · by_cases hvu : v=u
    · subst hvu
      rw [opened_udp] at hop
      cases hop
      rw [hself]
      refine ⟨by simp,fun i hi => ?_⟩
      cases hi
      exact (opened_engine e).1.trans he
    · rw [opened_udp_ne hvu] at hv hop
      obtain ⟨hborn,heng⟩ := h.op v j hv hop
      have hjk : j≠k := by
        rintro rfl
        exact hborn hk
      rw [opened_user_ne hjk]
      exact ⟨hborn,fun i hi => (opened_engine i).1.trans (heng i hi)⟩
  · obtain ⟨j,i,hpeer,heng,hj,hi⟩ := h.conn c hc
    refine ⟨j,i,hpeer,heng,?_⟩
    rw [opened_user_ne (hlive j hj)]
    exact ⟨hj,hi⟩
  · obtain ⟨hfin,hcount⟩ := h.count i ((opened_engine i).1.symm.trans hi)
    rw [(opened_engine i).2.2,opened_users hk]
    split
    · have hnot : k∉users s i := fun hm => hlive k hm.1 rfl
      rw [Set.ncard_insert_of_notMem hnot hfin,hcount]
      exact ⟨hfin.insert k,rfl⟩
    · rw [hcount,Int.add_zero]
      exact ⟨hfin,rfl⟩

end Opened

/-- An init that fails without a UDP element and an engine. -/
theorem inv_failed {x : User ε υ} (h : Inv s) (hk : (s.user k).life=.unborn) (hx : x.life=.freed) :
    Inv (s.setUser k x) := by
  have hborn : ∀ j,(s.user j).life≠.unborn → j≠k := by
    rintro j hj rfl
    exact hj hk
  have hlive : ∀ j,(s.user j).life=.live → j≠k := fun j hj => hborn j (by rw [hj]; simp)
  have hold : ∀ j,((s.setUser k x).user j).life=.live → (s.setUser k x).user j=s.user j := by
    intro j hj
    refine setUser_ne _ ?_
    rintro rfl
    rw [setUser_self,hx] at hj
    cases hj
  have husers : ∀ i,users (s.setUser k x) i=users s i := by
    intro i
    ext j
    constructor
    · rintro ⟨hj,heng⟩
      have heq := hold j hj
      rw [heq] at hj heng
      exact ⟨hj,heng⟩
    · rintro ⟨hj,heng⟩
      have hjk := hlive j hj
      exact ⟨by rwa [setUser_ne _ hjk],by rwa [setUser_ne _ hjk]⟩
  refine ⟨h.fault,h.head,h.armed,fun j hj => ?_,fun j j' v hj hj' hv hv' => ?_,fun u j hu hop => ?_,fun c hc => ?_,
    fun i hi => ?_⟩
  · have heq := hold j hj
    rw [heq] at hj ⊢
    exact h.user j hj
  · have heq := hold j hj
    have heq' := hold j' hj'
    rw [heq] at hj hv
    rw [heq'] at hj' hv'
    exact h.own j j' v hj hj' hv hv'
  · obtain ⟨hb,heng⟩ := h.op u j hu hop
    rw [setUser_ne _ (hborn j hb)]
    exact ⟨hb,heng⟩
  · obtain ⟨j,i,hpeer,heng,hj,hi⟩ := h.conn c hc
    refine ⟨j,i,hpeer,heng,?_⟩
    rw [setUser_ne _ (hlive j hj)]
    exact ⟨hj,hi⟩
  · rw [husers]
    exact h.count i hi

theorem inv_open {role : Role} {group : List UInt8} {stage : Stage} (h : Inv s)
    (hok : calm s (.new role group e k u stage)) (hu : step s (.new role group e k u stage)=some s') : Inv s' := by
  simp only [step] at hu
  split at hu
  · rename_i hfree
    obtain ⟨he,hk,hudp⟩ := hfree
    cases hu
    obtain ⟨hget,hlive,huser,hudps⟩ := inv_getEngine group h he
    have hk' : ((getEngine s group e).1.user k).life=.unborn := by rw [huser]; exact hk
    have hudp' : ((getEngine s group e).1.udp u).life=.unborn := by rw [hudps]; exact hudp
    rcases hok with rfl | ⟨rfl,rfl | rfl⟩
    · exact inv_opened hget hlive hk' hudp'
    · exact inv_failed h hk rfl
    · exact inv_failed hget hk' rfl
  · cases hu

theorem inv_add {group : List UInt8} (h : Inv s) (hu : step s (.add group e)=some s') : Inv s' := by
  simp only [step] at hu
  split at hu
  · rename_i he
    cases hu
    exact (inv_getEngine group h he).1
  · cases hu

/-! ### Closing and connecting -/

/-- dpele_del of what no live listener or client has. -/
theorem inv_udpDel (h : Inv s) (hu : (s.udp u).life=.live) (hnone : ∀ k,(s.user k).life=.live → (s.user k).udp≠some u) :
    Inv (udpDel s u) := by
  unfold udpDel
  rw [if_pos hu]
  simp only
  refine inv_setUdp h (fun k hk hv => absurd hv (hnone k hk)) fun _ k hop => h.op u k hu ?_
  split at hop <;> exact hop

/-- A listener or client leaves its engine. -/
def left (s : Sys ε κ υ χ) (e : ε) (k : κ) : Sys ε κ υ χ :=
  (s.setEngine e {s.engine e with count := (s.engine e).count-1}).setUser k {s.user k with life := .freed}

theorem left_engine (i : ε) : ((left s e k).engine i).life=(s.engine i).life ∧
    ((left s e k).engine i).armed=(s.engine i).armed ∧
    ((left s e k).engine i).count=(s.engine i).count+if i=e then -1 else 0 :=
  counted_engine (-1) i

theorem left_user_ne {j : κ} (h : j≠k) : (left s e k).user j=s.user j := setUser_ne (s := s.setEngine e _) _ h

theorem left_live {j : κ} (hj : ((left s e k).user j).life=.live) : j≠k ∧ (s.user j).life=.live := by
  have hjk : j≠k := by
    rintro rfl
    rw [left,setUser_self] at hj
    cases hj
  exact ⟨hjk,by rwa [left_user_ne hjk] at hj⟩

theorem left_users (heng : (s.user k).engine=some e) (i : ε) :
    users (left s e k) i=if i=e then users s i \ {k} else users s i := by
  ext j
  by_cases hjk : j=k
  · subst hjk
    have hnot : j∉users (left s e j) i := fun hj => (left_live hj.1).1 rfl
    by_cases hie : i=e
    · simp [hie,hie ▸ hnot]
    · rw [if_neg hie]
      exact ⟨fun hj => absurd hj hnot,fun hj => absurd (Option.some.inj (hj.2.symm.trans heng)) hie⟩
  · have hmem : j∈users (left s e k) i ↔ j∈users s i := by
      change _ ∧ _ ↔ _ ∧ _
      rw [left_user_ne hjk]
    rw [hmem]
    split
    · exact ⟨fun hj => ⟨hj,hjk⟩,fun hj => hj.1⟩
    · exact Iff.rfl

theorem inv_left (h : Inv s) (hk : (s.user k).life=.live) (heng : (s.user k).engine=some e)
    (hpeer : ∀ c,(s.conn c).life=.live → (s.conn c).peer≠some k) : Inv (left s e k) := by
  refine ⟨h.fault,fun i hi => (left_engine i).1.trans (h.head i hi),fun i hi => ?_,fun j hj => ?_,
    fun j j' v hj hj' hv hv' => ?_,fun v j hv hop => ?_,fun c hc => ?_,fun i hi => ?_⟩
  · rw [(left_engine i).1]
    exact h.armed i ((left_engine i).2.1.symm.trans hi)
  · obtain ⟨hjk,hlive⟩ := left_live hj
    obtain ⟨i,v,hi,hv,hlife,hrest⟩ := h.user j hlive
    rw [left_user_ne hjk]
    exact ⟨i,v,hi,hv,(left_engine i).1.trans hlife,hrest⟩
  · obtain ⟨hjk,hlive⟩ := left_live hj
    obtain ⟨hjk',hlive'⟩ := left_live hj'
    rw [left_user_ne hjk] at hv
    rw [left_user_ne hjk'] at hv'
    exact h.own j j' v hlive hlive' hv hv'
  · obtain ⟨hb,hengs⟩ := h.op v j hv hop
    by_cases hjk : j=k
    · subst hjk
      rw [left,setUser_self]
      exact ⟨by simp,fun i hi => (left_engine i).1.trans (hengs i hi)⟩
    · rw [left_user_ne hjk]
      exact ⟨hb,fun i hi => (left_engine i).1.trans (hengs i hi)⟩
  · obtain ⟨j,i,hp,hi,hj,hji⟩ := h.conn c hc
    refine ⟨j,i,hp,hi,?_⟩
    rw [left_user_ne fun hjk => hpeer c hc (hp.trans (congrArg some hjk))]
    exact ⟨hj,hji⟩
  · obtain ⟨hfin,hcount⟩ := h.count i ((left_engine i).1.symm.trans hi)
    rw [(left_engine i).2.2,left_users heng]
    split
    · rename_i hie
      have hmem : k∈users s i := ⟨hk,hie ▸ heng⟩
      have hcard := Set.ncard_sdiff_singleton_add_one hmem hfin
      exact ⟨hfin.sdiff,by omega⟩
    · rw [hcount,Int.add_zero]
      exact ⟨hfin,rfl⟩

theorem inv_close (h : Inv s) (hok : calm s (.close k)) (hu : step s (.close k)=some s') : Inv s' := by
  simp only [step] at hu
  split at hu
  · rename_i hk
    cases hu
    obtain ⟨e,u,heng,hudp,he,hlive,-⟩ := h.user k hk
    have hclean : clean s (s.user k)=udpDel (decr s e) u := by
      unfold clean
      cases (s.user k).role <;> simp [listenClean,clientClean,heng,hudp,udpDelOpt]
    have hdecr : decr s e=s.setEngine e {s.engine e with count := (s.engine e).count-1} := by
      rw [decr,if_pos he]
    have hswap : (udpDel (s.setEngine e {s.engine e with count := (s.engine e).count-1}) u).setUser k
        {s.user k with life := .freed}=udpDel (left s e k) u := by
      unfold udpDel
      rw [if_pos (show ((s.setEngine e _).udp u).life=.live from hlive),
        if_pos (show ((left s e k).udp u).life=.live from hlive)]
      rfl
    rw [hclean,hdecr,hswap]
    refine inv_udpDel (inv_left h hk heng hok) hlive fun j hj hv => ?_
    obtain ⟨hjk,hj⟩ := left_live hj
    rw [left_user_ne hjk] at hv
    exact hjk (h.own k j u hk hj hudp hv)
  · cases hu

theorem inv_connect {token : Option (List UInt8)} {nomem refuse : Bool} (h : Inv s)
    (hok : calm s (.connect k c token nomem refuse)) (hu : step s (.connect k c token nomem refuse)=some s') : Inv s' := by
  simp only [step] at hu
  split at hu
  · rename_i hc
    obtain ⟨hk,-,-⟩ := hc
    cases hu
    obtain ⟨e,u,heng,hudp,he,hlive,-⟩ := h.user k hk
    have htoken : (token.map fun t => genToken t nomem).any (fun r => decide (r≤0))=false := by
      cases token with
      | none => rfl
      | some t => simpa using hok t rfl
    unfold connectPrep
    simp only [heng,hudp,htoken]
    rw [if_neg (by simp),if_pos ⟨hlive,he⟩]
    split
    · exact h
    · exact inv_startProcess (inv_setConn h fun _ => ⟨k,e,rfl,rfl,hk,heng⟩) he
  · cases hu

/-! ### Deleting engines -/

theorem destroy_engine (i : ε) : ((destroy s e).engine i).count=(s.engine i).count ∧
    ((destroy s e).engine i).armed=(s.engine i).armed ∧ ((destroy s e).engine i).group=(s.engine i).group ∧
    ((destroy s e).engine i).life=if i=e then .freed else (s.engine i).life := by
  change ((s.setEngine e _).engine i).count=_ ∧ ((s.setEngine e _).engine i).armed=_ ∧
    ((s.setEngine e _).engine i).group=_ ∧ ((s.setEngine e _).engine i).life=_
  by_cases hie : i=e
  · subst hie
    rw [setEngine_self,if_pos rfl]
    exact ⟨rfl,rfl,rfl,rfl⟩
  · rw [setEngine_ne _ hie,if_neg hie]
    exact ⟨rfl,rfl,rfl,rfl⟩

theorem destroy_live {i : ε} (hi : (s.engine i).life=.live) (hie : i≠e) : ((destroy s e).engine i).life=.live := by
  rw [(destroy_engine i).2.2.2,if_neg hie]
  exact hi

/-- Nobody uses it, its timer is not armed, and no pending UDP operation is about a listener or client of it. -/
theorem inv_destroy (h : Inv s) (hcount : (s.engine e).count=0) (harmed : (s.engine e).armed=false)
    (hop : ∀ u k,(s.udp u).life=.live → (s.udp u).op=some k → (s.user k).engine≠some e) : Inv (destroy s e) := by
  have hnone : ∀ k,(s.user k).life=.live → (s.user k).engine≠some e := by
    intro k hk heng
    obtain ⟨i,-,hi,-,hlive,-⟩ := h.user k hk
    rw [heng] at hi
    cases hi
    obtain ⟨hfin,hcard⟩ := h.count e hlive
    have hempty : (users s e).ncard=0 := by omega
    rw [Set.ncard_eq_zero hfin] at hempty
    exact (hempty ▸ (⟨hk,heng⟩ : k∈users s e) : k∈(∅ : Set κ))
  refine ⟨h.fault,fun i hi => ?_,fun i hi => ?_,fun k hk => ?_,h.own,fun u k hu hu' => ?_,fun c hc => ?_,fun i hi => ?_⟩
  · obtain ⟨hi,hie⟩ := List.mem_filter.mp hi
    exact destroy_live (h.head i hi) (of_decide_eq_true hie)
  · rw [(destroy_engine i).2.1] at hi
    refine destroy_live (h.armed i hi) ?_
    rintro rfl
    rw [harmed] at hi
    cases hi
  · obtain ⟨i,u,hi,hu,hlive,hrest⟩ := h.user k hk
    exact ⟨i,u,hi,hu,destroy_live hlive fun hie => hnone k hk (hie ▸ hi),hrest⟩
  · obtain ⟨hborn,heng⟩ := h.op u k hu hu'
    exact ⟨hborn,fun i hi => destroy_live (heng i hi) fun hie => hop u k hu hu' (hie ▸ hi)⟩
  · have hconn : (s.conn c).life=.live ∧ (destroy s e).conn c=s.conn c := by
      simp only [destroy] at hc ⊢
      split at hc
      · cases hc
      · rename_i hne
        exact ⟨hc,if_neg hne⟩
    rw [hconn.2]
    exact h.conn c hconn.1
  · have hie : i≠e := by
      rintro rfl
      rw [(destroy_engine i).2.2.2,if_pos rfl] at hi
      cases hi
    rw [(destroy_engine i).2.2.2,if_neg hie] at hi
    rw [(destroy_engine i).1]
    exact h.count i hi

theorem unused_destroy {group : Option (List UInt8)} {i : ε} : unused (destroy s e) group i ↔ unused s group i := by
  unfold unused
  rw [(destroy_engine i).1,(destroy_engine i).2.2.1]

/-- The loop of dpqic_del_engine, by induction on what is left of the list. -/
theorem inv_delLoop {group : Option (List UInt8)} (es : List ε) (h : Inv s) (hok : ∀ e∈es,unused s group e →
    (s.engine e).armed=false ∧ ∀ u k,(s.udp u).life=.live → (s.udp u).op=some k → (s.user k).engine≠some e) :
    Inv (delLoop s group es) := by
  induction es generalizing s with
  | nil => exact h
  | cons e es ih =>
    unfold delLoop
    split
    · rename_i hun
      obtain ⟨harmed,hop⟩ := hok e (List.mem_cons_self ..) hun
      refine ih (inv_destroy h hun.1 harmed hop) fun i hi hun' => ?_
      rw [(destroy_engine i).2.1]
      exact hok i (List.mem_cons_of_mem _ hi) (unused_destroy.mp hun')
    · exact ih h fun i hi => hok i (List.mem_cons_of_mem _ hi)

theorem inv_delete {group : Option (List UInt8)} (h : Inv s) (hok : calm s (.delete group))
    (hu : step s (.delete group)=some s') : Inv s' := by
  cases hu
  exact inv_delLoop s.head h hok

theorem delLoop_freed {group : Option (List UInt8)} (es : List ε) (hlive : (s.engine e).life=.live)
    (hfreed : ((delLoop s group es).engine e).life=.freed) : (s.engine e).count=0 := by
  induction es generalizing s with
  | nil =>
    rw [show (delLoop s group []).engine e=s.engine e from rfl,hlive] at hfreed
    cases hfreed
  | cons i es ih =>
    unfold delLoop at hfreed
    split at hfreed
    · rename_i hun
      by_cases hei : e=i
      · rw [hei]
        exact hun.1
      · rw [← (destroy_engine e).1]
        exact ih (destroy_live hlive hei) hfreed
    · exact ih hlive hfreed

/-! ### Runs -/

theorem inv_ioevent {cs : List χ} {evs sent : List (Effect χ)} {tick ended : Bool} (h : Inv s)
    (hok : calm s (.ioevent u cs evs tick sent ended)) (hu : step s (.ioevent u cs evs tick sent ended)=some s') : Inv s' := by
  simp only [step] at hu
  split at hu
  · rename_i k hop
    split at hu
    · cases hu
      have hk := hok k hop
      split
      · exact inv_udpOver (inv_ioeventPost h hk)
      · exact inv_ioeventPost h hk
    · cases hu
  · cases hu

theorem inv_hup (h : Inv s) (hu : step s (.hup u)=some s') : Inv s' := by
  simp only [step] at hu
  split at hu
  · cases hu
    exact inv_udpOver h
  · cases hu

theorem inv_timeout {evs : List (Effect χ)} {tick : Bool} (h : Inv s) (hu : step s (.timeout e evs tick)=some s') :
    Inv s' := by
  simp only [step] at hu
  split at hu
  · rename_i harmed
    cases hu
    have he := h.armed e harmed
    exact inv_processConns (inv_setEngine h he he rfl) (by rw [setEngine_self]; exact he)
  · cases hu

theorem inv_process (h : Inv s) (hu : step s (.process c)=some s') : Inv s' := by
  simp only [step] at hu
  split at hu
  · rename_i k hk
    split at hu
    · rename_i hc
      obtain ⟨j,e,hj,-,hlive,heng⟩ := h.conn c hc
      rw [hk] at hj
      cases hj
      obtain ⟨i,-,hi,-,he,-⟩ := h.user k hlive
      rw [heng] at hi
      cases hi
      rw [heng] at hu
      cases hu
      rw [if_pos hlive]
      exact inv_startProcess h he
    · cases hu
  · cases hu

theorem step_inv {a : Act ε κ υ χ} (h : Inv s) (hok : calm s a) (hu : step s a=some s') : Inv s' := by
  cases a with
  | add group e => exact inv_add h hu
  | delete group => exact inv_delete h hok hu
  | new role group e k u stage => exact inv_open h hok hu
  | close k => exact inv_close h hok hu
  | connect k c token nomem refuse => exact inv_connect h hok hu
  | ioevent u cs evs tick sent ended => exact inv_ioevent h hok hu
  | hup u => exact inv_hup h hu
  | timeout e evs tick => exact inv_timeout h hu
  | process c => exact inv_process h hu

theorem Inv.gone (h : Inv s) (he : (s.engine e).life=.freed) : Gone s e := by
  have hdead : (s.engine e).life≠.live := by rw [he]; simp
  refine ⟨?_,fun u k hu hop heng => hdead ((h.op u k hu hop).2 e heng),fun k hk heng => ?_,fun c hc => ?_⟩
  · cases harmed : (s.engine e).armed with
    | false => rfl
    | true => exact absurd (h.armed e harmed) hdead
  · obtain ⟨i,-,hi,-,hlive,-⟩ := h.user k hk
    rw [heng] at hi
    cases hi
    exact hdead hlive
  · obtain ⟨k,i,hpeer,hi,hk,hki⟩ := h.conn c hc
    obtain ⟨i',-,hi',-,hlive,-⟩ := h.user k hk
    rw [hki] at hi'
    cases hi'
    have hie : i≠e := by
      rintro rfl
      exact hdead hlive
    refine ⟨fun heq => hie (Option.some.inj (hi.symm.trans heq)),fun j hj heq => ?_⟩
    rw [hpeer] at hj
    cases hj
    exact hie (Option.some.inj (hki.symm.trans heq))

theorem Inv.sound (h : Inv s) : Sound s := by
  refine ⟨h.fault,h.count,fun group s' e hu hlive hfreed => ?_,fun _ he => h.gone he,fun k hk => ?_,fun c hc => ?_⟩
  · cases hu
    exact delLoop_freed s.head hlive hfreed
  · obtain ⟨e,u,-,hu,-,hlive,hrefc⟩ := h.user k hk
    exact ⟨u,hu,hlive,hrefc,fun k' hk' hu' => h.own k k' u hk hk' hu hu'⟩
  · obtain ⟨k,-,hpeer,-,hk,-⟩ := h.conn c hc
    exact ⟨k,hpeer,hk⟩

theorem qic_engine (h : Reach step calm ({} : Sys ε κ υ χ) s) : Sound s :=
  (h.invariant inv_start fun _ _ _ => step_inv).sound

end Steps

instance (s : Sys ε (Fin 1) (Fin 1) (Fin 1)) : (a : Act ε (Fin 1) (Fin 1) (Fin 1)) → Decidable (calm s a)
  | .new _ _ _ _ _ _ => inferInstanceAs (Decidable (_ ∨ _ ∧ (_ ∨ _)))
  | .connect _ _ token _ _ => inferInstanceAs (Decidable (∀ t∈token,0<_))
  | .close _ => inferInstanceAs (Decidable (∀ _,_ → _))
  | .delete group => inferInstanceAs (Decidable (∀ e∈s.head,unused s group e → _ ∧ ∀ _ _,_ → _ → _))
  | .ioevent u .. => inferInstanceAs (Decidable (∀ k∈(s.udp u).op,_))
  | .add .. | .hup _ | .timeout .. | .process _ => .isTrue trivial

/-- A client connects, the connection closes, the UDP operation ends, and then client and engine go. -/
def torn : List (Act ℕ (Fin 1) (Fin 1) (Fin 1)) :=
  [.new .client [113] 0 0 0 .done,.connect 0 0 (some [48,49]) false false,.timeout 0 [.touch 0] true,
    .ioevent 0 [0] [.close 0] false [] false,.timeout 0 [] false,.hup 0,.close 0,.delete none]

theorem qic_engine_torn : ∃ s : Sys ℕ (Fin 1) (Fin 1) (Fin 1),(s.engine 0).life=.freed ∧ Sound s := by
  have hrun : ((execOk step calm {} torn).any fun s => decide ((s.engine 0).life=.freed))=true := by decide +kernel
  obtain ⟨s,hs,hend⟩ := (Option.any_eq_true _ _).mp hrun
  exact ⟨s,of_decide_eq_true hend,qic_engine (execOk_reach hs)⟩

/-- A listener is opened and closed, and then its engine is deleted. -/
def dangling : List (Act ℕ ℕ ℕ ℕ) := [.new .server [113] 0 0 0 .done,.close 0,.delete none]

theorem qic_engine_dangling : ¬∀ s : Sys ℕ ℕ ℕ ℕ,Reach step anyStep {} s → Sound s := by
  intro hall
  have hrun : ((Machine.exec step {} dangling).any fun s => decide ((s.engine 0).life=.freed ∧ (s.udp 0).life=.live ∧
      (s.udp 0).op=some 0 ∧ (s.user 0).engine=some 0))=true := by decide +kernel
  obtain ⟨s,hs,hend⟩ := (Option.any_eq_true _ _).mp hrun
  obtain ⟨hfreed,hlive,hop,heng⟩ := of_decide_eq_true hend
  exact ((hall s (exec_reach hs)).gone 0 hfreed).udp 0 0 hlive hop heng

end Dpapp.QicEngine
