import Dpapp.DpcwcAux
import Dpapp.Machine

/-! # The servers' accept loops (dpcwc/dpcwc_aux.c, dpcpp/dpcpp_aux.cc, dplua/dpsvr.lua)

One round of a loop accepts a connection, wraps it in an element, on a TLS listener upgrades that, and starts the handler.
What accept returns and what the creations meet is given; dpele_new itself is that of EleNew. -/

namespace Dpapp.ServerLoop
open Dpapp.Machine Dpapp.Ret Dpapp.EleNew Dpapp.DpcwcAux

inductive Framework
  | c
  | cpp
  | lua
  deriving DecidableEq

/-- What a listener is configured for: a TCP listener with a TLS group is `ssl`. -/
inductive Listener
  | tcp
  | uds
  | ssl
  | qic
  deriving DecidableEq

/-- The pointer that a handler gets. -/
inductive Peer
  | null
  | ele (kind : Listener) (live : Bool)
  deriving DecidableEq

/-- What one round meets: the result of accept, the creation of the accepted element and of the session above it. -/
structure Round where
  ret : Dpret
  n : Creation
  s : Ssl
  n' : Creation

section Calls
variable (r : Round)

/-- dpele_new of the accepted descriptor's element. -/
def Round.below (server : ℤ → Kind) : World × Option Begun := dpeleNewv (server r.ret).type r.n.a {}

/-- dpele_new of the TLS session over an element. -/
def Round.above (g : Given) : World × Option Begun := dpeleNewv (Kind.ssl r.s).type r.n'.a {given := g}

/-- dpqic_accept: a connection is stored just where the result is not negative. -/
def Round.conn : Peer := if r.ret<0 then .null else .ele .qic true

def peer (kind : Listener) (g : Given) : Peer := .ele kind (decide (0<g.refs))

/-! ### dpcwc_aux.c -/

/-- The pointer that the helper has been given for its result. -/
def out (kind : Listener) (t : Outcome) : Peer := if t.out=true then peer kind t.ele else .null

def checked (kind : Listener) (t : Outcome) : Option Peer := if t.ret<0 then none else some (out kind t)

/-- A round of `_tcp_accept_loop_run`, `_uds_accept_loop_run` or `_qic_accept_loop_run`: none ends the loop. -/
def cRound : Listener → Option Peer
  | .tcp => checked .tcp (dpcwcTcpAccept r.ret r.n)
  | .uds => checked .uds (dpcwcUdsAccept r.ret r.n)
  | .ssl => checked .ssl (dpcwcSslAccept r.ret r.n r.s r.n')
  | .qic => if r.ret<0 then none else some r.conn

/-! ### dpcpp_aux.cc -/

/-- tcp_accept and uds_accept; with the element below as it is then. -/
def cppAccept (kind : Listener) (server : ℤ → Kind) : Peer × Given :=
  if r.ret<0 then (.null,{refs := 0})
  else
    match r.below server with
    | (w,none) => (.null,w.given)
    | (w,some _) => (peer kind w.given,w.given)

/-- ssl_accept -/
def cppSslAccept : Peer :=
  match cppAccept r .tcp (.tcpServer · true) with
  | (.null,_) => .null
  | (.ele _ _,g) =>
      match r.above g with
      | (_,none) => .null
      | (w,some _) => peer .ssl w.given

/-- A round of `_tcp_accept`, `_uds_accept` or `_qic_accept` -/
def cppRound (l : Listener) : Option Peer :=
  let server := match l with
    | .tcp => (cppAccept r .tcp (.tcpServer · true)).1
    | .uds => (cppAccept r .uds .udsServer).1
    | .ssl => cppSslAccept r
    | .qic => if r.ret<0 then .null else r.conn
  if server=.null then none else some server

/-! ### dptcp.lua, dpssl.lua, dpsvr.lua -/

/-- accept of dptcp and of dpuds, with none for nil. -/
def luaAccept (server : ℤ → Kind) : Option Given :=
  if r.ret<0 then none
  else
    match r.below server with
    | (_,none) => none
    | (w,some _) => some w.given

/-- A round of `_tcp_accept_loop`, `_uds_accept_loop` or `_qic_accept_loop` -/
def luaRound : Listener → Option Peer
  | .tcp => (luaAccept r (.tcpServer · true)).map (peer .tcp)
  | .uds => (luaAccept r .udsServer).map (peer .uds)
  | .ssl => (luaAccept r (.tcpServer · true)).map fun g =>
      match r.above g with
      -- no session: the peer stays what it was
      | (w,none) => peer .tcp w.given
      | (w,some _) => peer .ssl w.given
  | .qic => if r.ret<0 then none else some r.conn

end Calls

def round : Framework → Listener → Round → Option Peer
  | .c,l,r => cRound r l
  | .cpp,l,r => cppRound r l
  | .lua,l,r => luaRound r l

/- `rounds` are those that the loop has gone through and `started` the handlers, each with its round, the last first. -/
structure Server where
  ended : Bool := false
  rounds : List Round := []
  started : List (Round × Peer) := []

def step (fw : Framework) (l : Listener) (s : Server) (r : Round) : Option Server :=
  if s.ended=true then none
  else
    match round fw l r with
    | none => some {s with ended := true, rounds := r::s.rounds}
    | some p => some {s with rounds := r::s.rounds, started := (r,p)::s.started}

/-! ### Which handlers are started -/

/-- The accepted descriptor has got its element. -/
def Round.made (r : Round) : Bool := (r.below (.tcpServer · true)).2.isSome

/-- The session above it has been made. -/
def Round.upgraded (r : Round) : Bool := (r.above (r.below (.tcpServer · true)).1.given).2.isSome

/-- The connection is accepted and fully set up. -/
def setUp : Listener → Round → Bool
  | .tcp,r | .uds,r => decide (0≤r.ret) && r.made
  | .ssl,r => decide (0≤r.ret) && (r.made && r.upgraded)
  | .qic,r => decide (0≤r.ret)

/-- There is one handler for each connection that is set up, with a live element of the configured kind, and no other. -/
def Safe (l : Listener) (s : Server) : Prop := s.started=(s.rounds.filter (setUp l)).map fun r => (r,.ele l true)

/-- In C a creation fails with a negative errno; in Lua the session is made. -/
def holds : Framework → Listener → Round → Prop
  | .c,.tcp,r | .c,.uds,r => 0≤r.ret → r.made=true ∨ r.n.errno<0
  | .c,.ssl,r => 0≤r.ret → if r.made=true then r.upgraded=true ∨ r.n'.errno<0 else r.n.errno<0 ∨ r.n'.errno<0
  | .lua,.ssl,r => 0≤r.ret → r.made=true → r.upgraded=true
  | .c,.qic,_ | .cpp,_,_ | .lua,.tcp,_ | .lua,.uds,_ | .lua,.qic,_ => True

section Rounds
variable {fw : Framework} {l : Listener} {r : Round} {s s' : Server} {server : ℤ → Kind}

/-- The element of an accepted descriptor is made as the caller's, or is not. -/
theorem below_cases (hpos : 0≤r.ret) : (∃ w b,r.below (.tcpServer · true)=(w,some b) ∧ w.given={}) ∨
    ∃ w,r.below (.tcpServer · true)=(w,none) := by
  have hneg : ¬r.ret<0 := not_lt.mpr hpos
  unfold Round.below dpeleNewv
  by_cases halloc : r.n.a.alloc=false
  · rw [if_pos halloc]
    exact .inr ⟨_,rfl⟩
  · rw [if_neg halloc]
    simp only [Kind.type,serverVopen,Bool.true_eq_false,if_false,if_neg hneg,if_true]
    cases r.n.a.watch with
    | none => exact .inl ⟨_,_,rfl,rfl⟩
    | some e => exact .inr ⟨_,rfl⟩

theorem above_cases (g : Given) : (∃ w b,r.above g=(w,some b) ∧ w.given={g with isClose := false}) ∨ ∃ w,r.above g=(w,none) := by
  unfold Round.above
  rcases ssl_cases r.s r.n'.a g with ⟨-,-,-,-,w,b,hrun,hgiven⟩ | ⟨-,w,hrun,-⟩
  · exact .inl ⟨w,b,hrun,hgiven⟩
  · exact .inr ⟨w,hrun⟩

/-- What the calls of one round come to. -/
inductive Fate (r : Round) : Prop
  | refused (h : r.ret<0)
  | bare (h : 0≤r.ret) (w : World) (hbelow : r.below (.tcpServer · true)=(w,none))
  | plain (h : 0≤r.ret) (w w' : World) (b : Begun) (hbelow : r.below (.tcpServer · true)=(w,some b)) (hgiven : w.given={})
      (habove : r.above {}=(w',none))
  | secure (h : 0≤r.ret) (w w' : World) (b b' : Begun) (hbelow : r.below (.tcpServer · true)=(w,some b)) (hgiven : w.given={})
      (habove : r.above {}=(w',some b')) (hgiven' : w'.given={isClose := false})

theorem fate (r : Round) : Fate r := by
  by_cases hneg : r.ret<0
  · exact .refused hneg
  · have hpos := not_lt.mp hneg
    rcases below_cases hpos with ⟨w,b,hbelow,hgiven⟩ | ⟨w,hbelow⟩
    · rcases @above_cases r {} with ⟨w',b',habove,hgiven'⟩ | ⟨w',habove⟩
      · exact .secure hpos w w' b b' hbelow hgiven habove hgiven'
      · exact .plain hpos w w' b hbelow hgiven habove
    · exact .bare hpos w hbelow

/-! ### The C helpers -/

theorem uds_accept (r : Round) : dpcwcUdsAccept r.ret r.n=dpcwcTcpAccept r.ret r.n := rfl

theorem accept_refused (h : r.ret<0) : dpcwcTcpAccept r.ret r.n={ret := r.ret} := if_pos h

theorem accept_bare {w : World} (h : 0≤r.ret) (hbelow : r.below (.tcpServer · true)=(w,none)) :
    dpcwcTcpAccept r.ret r.n={ret := r.n.errno, ele := {w.given with refs := 0}} := by
  have hcall : dpeleNewv (Kind.tcpServer r.ret true).type r.n.a {}=(w,none) := hbelow
  rw [dpcwcTcpAccept,accept,if_neg (not_lt.mpr h)]
  simp only [hcall]

theorem accept_made {w : World} {b : Begun} (h : 0≤r.ret) (hbelow : r.below (.tcpServer · true)=(w,some b))
    (hgiven : w.given={}) : dpcwcTcpAccept r.ret r.n={ret := dpeOk, out := true, ele := {}} := by
  have hcall : dpeleNewv (Kind.tcpServer r.ret true).type r.n.a {}=(w,some b) := hbelow
  rw [dpcwcTcpAccept,accept,if_neg (not_lt.mpr h)]
  simp only [hcall,hgiven]

/-- A session over a null pointer is not made. -/
theorem secure_null {t : Outcome} (hret : 0≤t.ret) (hout : t.out=false) :
    (secure t r.s r.n').ret=r.n'.errno ∧ (secure t r.s r.n').out=false := by
  unfold secure
  rw [if_neg (not_lt.mpr hret)]
  simp only [hout,Bool.false_eq_true,if_false]
  rcases ssl_cases {r.s with argsOk := false} r.n'.a t.ele with ⟨-,hs,-⟩ | ⟨-,w,hrun,-⟩
  · cases hs.1
  · rw [hrun]
    exact ⟨rfl,rfl⟩

theorem secure_plain {w' : World} (habove : r.above {}=(w',none)) :
    (secure {ret := dpeOk, out := true, ele := {}} r.s r.n').ret=r.n'.errno ∧
      (secure {ret := dpeOk, out := true, ele := {}} r.s r.n').out=false := by
  have hcall : dpeleNewv (Kind.ssl r.s).type r.n'.a {given := {}}=(w',none) := habove
  unfold secure
  rw [if_neg (show ¬dpeOk<0 by decide)]
  simp only [if_true,hcall]
  exact ⟨trivial,trivial⟩

theorem secure_made {w' : World} {b' : Begun} (habove : r.above {}=(w',some b')) (hgiven' : w'.given={isClose := false}) :
    secure {ret := dpeOk, out := true, ele := {}} r.s r.n'={ret := dpeOk, out := true, ele := {isClose := false}} := by
  have hcall : dpeleNewv (Kind.ssl r.s).type r.n'.a {given := {}}=(w',some b') := habove
  unfold secure
  rw [if_neg (show ¬dpeOk<0 by decide)]
  simp only [if_true,hcall,hgiven']

theorem checked_null {kind : Listener} {t : Outcome} {e : ℤ} (h : t.ret=e ∧ t.out=false) :
    checked kind t=if e<0 then none else some .null := by
  rw [checked,out,h.1,h.2,if_neg Bool.false_ne_true]

/-! ### One round -/

theorem made_bare {w : World} (hbelow : r.below (.tcpServer · true)=(w,none)) : r.made=false := by
  rw [Round.made,hbelow]
  rfl

theorem made_some {w : World} {b : Begun} (hbelow : r.below (.tcpServer · true)=(w,some b)) : r.made=true := by
  rw [Round.made,hbelow]
  rfl

theorem upgraded_eq {w : World} {b : Begun} (hbelow : r.below (.tcpServer · true)=(w,some b)) (hgiven : w.given={}) :
    r.upgraded=(r.above {}).2.isSome := by
  rw [Round.upgraded,hbelow,hgiven]

/-- The C loop on a listener without TLS. -/
theorem c_bare_iff (kind : Listener) :
    checked kind (dpcwcTcpAccept r.ret r.n)=(if (decide (0≤r.ret) && r.made)=true then some (.ele kind true) else none) ↔
      (0≤r.ret → r.made=true ∨ r.n.errno<0) := by
  cases fate r with
  | refused h =>
    have hno : ¬0≤r.ret := not_le.mpr h
    rw [accept_refused h]
    simp [checked,h,hno]
  | bare h w hbelow =>
    rw [accept_bare h hbelow,@checked_null kind _ r.n.errno ⟨rfl,rfl⟩,made_bare hbelow]
    simp [h]
  | plain h w w' b hbelow hgiven habove =>
    rw [accept_made h hbelow hgiven,made_some hbelow]
    simp [h,checked,out,peer,dpeOk]
  | secure h w w' b b' hbelow hgiven habove hgiven' =>
    rw [accept_made h hbelow hgiven,made_some hbelow]
    simp [h,checked,out,peer,dpeOk]

/-- The C loop on a listener with TLS. -/
theorem c_ssl_iff : checked .ssl (dpcwcSslAccept r.ret r.n r.s r.n')=
      (if (decide (0≤r.ret) && (r.made && r.upgraded))=true then some (.ele .ssl true) else none) ↔
    (0≤r.ret → if r.made=true then r.upgraded=true ∨ r.n'.errno<0 else r.n.errno<0 ∨ r.n'.errno<0) := by
  unfold dpcwcSslAccept
  cases fate r with
  | refused h =>
    have hno : ¬0≤r.ret := not_le.mpr h
    rw [accept_refused h,secure,if_pos h]
    simp [checked,h,hno]
  | bare h w hbelow =>
    rw [accept_bare h hbelow,made_bare hbelow]
    by_cases herrno : r.n.errno<0
    · rw [secure,if_pos herrno]
      simp [checked,herrno]
    · rw [checked_null (secure_null (not_lt.mp herrno) rfl)]
      simp [h,herrno]
  | plain h w w' b hbelow hgiven habove =>
    rw [accept_made h hbelow hgiven,made_some hbelow,upgraded_eq hbelow hgiven,checked_null (secure_plain habove),habove]
    simp [h]
  | secure h w w' b b' hbelow hgiven habove hgiven' =>
    rw [accept_made h hbelow hgiven,made_some hbelow,upgraded_eq hbelow hgiven,secure_made habove hgiven',habove]
    simp [h,checked,out,peer,dpeOk]

theorem cpp_right (l : Listener) : cppRound r l=if setUp l r=true then some (.ele l true) else none := by
  have huds : r.below .udsServer=r.below (.tcpServer · true) := rfl
  cases fate r with
  | refused h =>
    have hno : ¬0≤r.ret := not_le.mpr h
    cases l <;> simp [cppRound,cppSslAccept,cppAccept,setUp,h,hno]
  | bare h w hbelow =>
    have hno : ¬r.ret<0 := not_lt.mpr h
    cases l <;> simp [cppRound,cppSslAccept,cppAccept,Round.conn,setUp,h,hno,huds,hbelow,made_bare hbelow]
  | plain h w w' b hbelow hgiven habove =>
    have hno : ¬r.ret<0 := not_lt.mpr h
    cases l <;> simp [cppRound,cppSslAccept,cppAccept,Round.conn,setUp,peer,h,hno,huds,hbelow,hgiven,habove,made_some hbelow,
      upgraded_eq hbelow hgiven]
  | secure h w w' b b' hbelow hgiven habove hgiven' =>
    have hno : ¬r.ret<0 := not_lt.mpr h
    cases l <;> simp [cppRound,cppSslAccept,cppAccept,Round.conn,setUp,peer,h,hno,huds,hbelow,hgiven,habove,hgiven',
      made_some hbelow,upgraded_eq hbelow hgiven]

/-- A failed upgrade leaves a peer that is not of the configured kind. -/
theorem lua_iff (l : Listener) : luaRound r l=(if setUp l r=true then some (.ele l true) else none) ↔ holds .lua l r := by
  have huds : r.below .udsServer=r.below (.tcpServer · true) := rfl
  cases fate r with
  | refused h =>
    have hno : ¬0≤r.ret := not_le.mpr h
    cases l <;> simp [luaRound,luaAccept,setUp,holds,h,hno]
  | bare h w hbelow =>
    have hno : ¬r.ret<0 := not_lt.mpr h
    cases l <;> simp [luaRound,luaAccept,Round.conn,setUp,holds,h,hno,huds,hbelow,made_bare hbelow]
  | plain h w w' b hbelow hgiven habove =>
    have hno : ¬r.ret<0 := not_lt.mpr h
    cases l <;> simp [luaRound,luaAccept,Round.conn,setUp,holds,peer,h,hno,huds,hbelow,hgiven,habove,made_some hbelow,
      upgraded_eq hbelow hgiven]
  | secure h w w' b b' hbelow hgiven habove hgiven' =>
    have hno : ¬r.ret<0 := not_lt.mpr h
    cases l <;> simp [luaRound,luaAccept,Round.conn,setUp,holds,peer,h,hno,huds,hbelow,hgiven,habove,hgiven',made_some hbelow,
      upgraded_eq hbelow hgiven]

theorem round_iff (fw : Framework) (l : Listener) :
    round fw l r=(if setUp l r=true then some (.ele l true) else none) ↔ holds fw l r := by
  cases fw with
  | c =>
    cases l with
    | tcp => exact c_bare_iff .tcp
    | uds => exact c_bare_iff .uds
    | ssl => exact c_ssl_iff
    | qic =>
      refine iff_of_true ?_ trivial
      by_cases h : r.ret<0
      · simp [round,cRound,setUp,h]
      · simp [round,cRound,setUp,Round.conn,h,not_lt.mp h]
  | cpp =>
    refine iff_of_true (cpp_right l) ?_
    cases l <;> exact trivial
  | lua => exact lua_iff l

/-- A round keeps what is right just where it is itself right. -/
theorem step_safe (h : Safe l s) (hu : step fw l s r=some s') :
    Safe l s' ↔ round fw l r=if setUp l r=true then some (.ele l true) else none := by
  obtain ⟨-,hu⟩ := Option.ite_none_left_eq_some.mp hu
  unfold Safe at h ⊢
  have hlen (rest : List (Round × Peer)) (x : Round × Peer) : ¬rest=x::rest := fun hx => by
    have := congrArg List.length hx
    simp at this
  cases hr : round fw l r with
  | none =>
    rw [hr] at hu
    cases hu
    simp only [List.filter_cons]
    by_cases hs : setUp l r=true
    · rw [if_pos hs,if_pos hs,List.map_cons,h]
      exact iff_of_false (hlen _ _) (by simp)
    · rw [if_neg hs,if_neg hs]
      exact iff_of_true h rfl
  | some p =>
    rw [hr] at hu
    cases hu
    simp only [List.filter_cons]
    by_cases hs : setUp l r=true
    · rw [if_pos hs,if_pos hs,List.map_cons,h]
      simp
    · rw [if_neg hs,if_neg hs,h]
      exact iff_of_false (fun hx => hlen _ _ hx.symm) (by simp)

theorem server_right (fw : Framework) (l : Listener) :
    (∀ s,Reach (step fw l) (fun _ r => holds fw l r) {} s → Safe l s) ∧
    ∀ r,(∀ s s',Safe l s → step fw l s r=some s' → Safe l s') ↔ holds fw l r := by
  constructor
  · intro s h
    refine h.invariant (I := Safe l) rfl ?_
    intro s t r hs hr hu
    exact (step_safe hs hu).mpr ((round_iff fw l).mpr hr)
  · intro r
    constructor
    · intro hall
      have hstart : Safe l {} := rfl
      obtain ⟨s',hu⟩ : ∃ s',step fw l {} r=some s' := by
        cases hr : round fw l r with
        | none => exact ⟨_,by simp only [step,hr]; rfl⟩
        | some p => exact ⟨_,by simp only [step,hr]; rfl⟩
      exact (round_iff fw l).mp ((step_safe hstart hu).mp (hall _ _ hstart hu))
    · exact fun hr s s' hs hu => (step_safe hs hu).mpr ((round_iff fw l).mpr hr)

end Rounds

/-- The session of an accepted connection is refused: the group does not exist. -/
def noGroup : Ssl :=
  {argsOk := true, doing := false, group := some ⟨2,by decide⟩, roleOk := true, sslNew := true, bioNew := true, fd := 5}

/-- The handler of the TLS listener gets the TCP element. -/
theorem server_downgrade : ¬∀ fw l s,Reach (step fw l) anyStep {} s → Safe l s := by
  intro hall
  have hrun : ((exec (step .lua .ssl) {} [⟨5,{errno := 0},noGroup,{errno := 11}⟩]).any fun s => decide (s.started.map Prod.snd=[.ele .tcp true]))=true := by
    decide +kernel
  obtain ⟨s,hs,hr⟩ := (Option.any_eq_true _ _).mp hrun
  have hsafe := congrArg (List.map Prod.snd) (hall .lua .ssl s (exec_reach hs))
  rw [of_decide_eq_true hr,List.map_map] at hsafe
  have hmem : Peer.ele .tcp true∈(s.rounds.filter (setUp .ssl)).map (Prod.snd∘fun r => (r,Peer.ele .ssl true)) := by
    rw [← hsafe]
    exact List.mem_singleton_self _
  obtain ⟨r,-,hr⟩ := List.mem_map.mp hmem
  cases hr

end Dpapp.ServerLoop
