import Dpapp.EleNew

/-! # Connection helpers (dpcwc/dpcwc_aux.c)

What dpcwc_aexec returns, and errno where dpele_new gives no element, is given; dpele_new itself is that of EleNew. -/

namespace Dpapp.DpcwcAux
open Dpapp.Ret Dpapp.EleNew
open Dpapp.SocketOpen (Opener Resolved Byte Step)

/-- What a dpele_new meets; `errno` is its value when the helper returns it. -/
structure Creation where
  a : Answers := {}
  errno : ℤ

/-- What a helper returns, whether it has set its out parameter to an element, and what has become of the element that it has
created first, with its descriptor. -/
structure Outcome where
  ret : Dpret
  out : Bool := false
  ele : Given := {refs := 0}

/-- dpcwc_tcp_client and dpcwc_uds_client -/
def client (o : Opener) (n : Creation) (connect : Dpret) : Outcome :=
  match (dpeleNewv (openerType o) n.a {}).2 with
  | none => {ret := n.errno}
  | some _ =>
      if 0≤connect then {ret := dpeOk, out := true, ele := {}}
      else {ret := connect, ele := (({} : World).delGiven none).given}

/-- dpcwc_tcp_listen and dpcwc_uds_listen -/
def listen (o : Opener) (n : Creation) : Outcome :=
  match (dpeleNewv (openerType o) n.a {}).2 with
  | none => {ret := n.errno}
  | some _ => {ret := dpeOk, out := true, ele := {}}

/-- dpcwc_tcp_accept and dpcwc_uds_accept; `ele` has the accepted descriptor also where there is no element. -/
def accept (server : ℤ → Kind) (ret : Dpret) (n : Creation) : Outcome :=
  if ret<0 then {ret := ret}
  else
    match dpeleNewv (server ret).type n.a {} with
    | (w,none) => {ret := n.errno, ele := {w.given with refs := 0}}
    | (w,some _) => {ret := dpeOk, out := true, ele := w.given}

/-- dpcwc_ssl_client and dpcwc_ssl_accept after their first call, with a null pointer where that has set none. -/
def secure (t : Outcome) (s : Ssl) (n : Creation) : Outcome :=
  if t.ret<0 then t
  else
    match dpeleNewv (Kind.ssl (if t.out=true then s else {s with argsOk := false})).type n.a {given := t.ele} with
    | (w,none) => {ret := n.errno, ele := if t.out=true then (w.delGiven none).given else w.given}
    | (w,some _) => {ret := dpeOk, out := true, ele := w.given}

def dpcwcTcpClient (host : Option String) (port : ℤ) (result : Resolved) := client (.tcpClient host port result)

def dpcwcTcpListen (host : Option String) (port backlog : ℤ) (result : Resolved) := listen (.tcpListen host port backlog result)

def dpcwcTcpAccept := accept fun fd => .tcpServer fd true

def dpcwcUdsClient (path : Option (List Byte)) (x : SocketOpen.Answers) := client (.udsClient path x)

def dpcwcUdsListen (path : Option (List Byte)) (x : SocketOpen.Answers) := listen (.udsListen path x)

def dpcwcUdsAccept := accept .udsServer

def dpcwcSslClient (host : Option String) (port : ℤ) (result : Resolved) (n : Creation) (connect : Dpret) (s : Ssl)
    (n' : Creation) : Outcome :=
  secure (dpcwcTcpClient host port result n connect) s n'

def dpcwcSslAccept (ret : Dpret) (n : Creation) (s : Ssl) (n' : Creation) : Outcome := secure (dpcwcTcpAccept ret n) s n'

/-- A call of a helper, with the results of the calls it makes. -/
inductive Helper
  | tcpClient (host : Option String) (port : ℤ) (result : Resolved) (n : Creation) (connect : Dpret)
  | tcpListen (host : Option String) (port backlog : ℤ) (result : Resolved) (n : Creation)
  | tcpAccept (ret : Dpret) (n : Creation)
  | udsClient (path : Option (List Byte)) (x : SocketOpen.Answers) (n : Creation) (connect : Dpret)
  | udsListen (path : Option (List Byte)) (x : SocketOpen.Answers) (n : Creation)
  | udsAccept (ret : Dpret) (n : Creation)
  | sslClient (host : Option String) (port : ℤ) (result : Resolved) (n : Creation) (connect : Dpret) (s : Ssl) (n' : Creation)
  | sslAccept (ret : Dpret) (n : Creation) (s : Ssl) (n' : Creation)

def Helper.run : Helper → Outcome
  | .tcpClient host port result n connect => dpcwcTcpClient host port result n connect
  | .tcpListen host port backlog result n => dpcwcTcpListen host port backlog result n
  | .tcpAccept ret n => dpcwcTcpAccept ret n
  | .udsClient path x n connect => dpcwcUdsClient path x n connect
  | .udsListen path x n => dpcwcUdsListen path x n
  | .udsAccept ret n => dpcwcUdsAccept ret n
  | .sslClient host port result n connect s n' => dpcwcSslClient host port result n connect s n'
  | .sslAccept ret n s n' => dpcwcSslAccept ret n s n'

/-! ### What a helper should do -/

/-- The opener's result is its own descriptor, and listen has succeeded on it. -/
def listens (o : Opener) : Prop :=
  o.run.1.mine=[o.run.2.2] ∧ ∃ backlog,(o.run.2.2,Step.listen backlog)∈ o.run.1.conf

/-- The element below is connected, accepted or listening. -/
def Helper.serves : Helper → Prop
  | .tcpClient _ _ _ _ connect | .udsClient _ _ _ connect | .sslClient _ _ _ _ connect _ _ => 0≤connect
  | .tcpAccept ret _ | .udsAccept ret _ | .sslAccept ret _ _ _ => 0≤ret
  | .tcpListen host port backlog result _ => listens (.tcpListen host port backlog result)
  | .udsListen path x _ => listens (.udsListen path x)

/-- The helper has got a descriptor from accept. -/
def Helper.accepts : Helper → Prop
  | .tcpAccept ret _ | .udsAccept ret _ | .sslAccept ret _ _ _ => 0≤ret
  | _ => False

/-- The result is not negative just where a live element has been stored; else the element that has been created is deleted
once, and an accepted descriptor is closed. -/
structure Right (t : Outcome) (serves accepts : Prop) : Prop where
  sign : 0≤t.ret ↔ t.out=true
  stored : t.out=true → t.ele.refs=1 ∧ t.ele.closes=0 ∧ serves
  undone : t.out=false → t.ele.refs=0 ∧ (accepts → t.ele.closes=1)

def Helper.right (h : Helper) : Prop := Right h.run h.serves h.accepts

/-- The element of an opener is made, or errno is negative. -/
def tells (o : Opener) (n : Creation) : Prop := refuses o n.a → n.errno<0

/-- The accepted descriptor gets its element, or is closed because it cannot be registered. -/
def settles (n : Creation) : Prop := n.a.alloc=true ∧ (n.a.watch=none ∨ n.errno<0)

/-- The session is made, or fails with a negative errno before it has taken hold of the element below. -/
def secures (s : Ssl) (n : Creation) : Prop :=
  n.a.alloc=true ∧ s.attaches ∧ 0≤ s.fd ∧ n.a.watch=none ∨ n.errno<0 ∧ (n.a.alloc=false ∨ ¬s.attaches)

def Helper.holds : Helper → Prop
  | .tcpClient host port result n _ => tells (.tcpClient host port result) n
  | .udsClient path x n _ => tells (.udsClient path x) n
  | .tcpListen host port backlog result n => tells (.tcpListen host port backlog result) n ∧
      (refuses (.tcpListen host port backlog result) n.a ∨ owns (.tcpListen host port backlog result))
  | .udsListen path x n => tells (.udsListen path x) n
  | .tcpAccept ret n | .udsAccept ret n => 0≤ret → settles n
  | .sslClient host port result n connect s n' => (refuses (.tcpClient host port result) n.a → n.errno<0 ∨ n'.errno<0) ∧
      (¬refuses (.tcpClient host port result) n.a → 0≤connect → secures s n')
  | .sslAccept ret n s n' => 0≤ret → n.a.alloc=true ∧ if n.a.watch=none then secures s n' else n.errno<0 ∨ n'.errno<0

section
variable {o : Opener} {n n' : Creation} {connect ret : Dpret} {server : ℤ → Kind} {s : Ssl} {t : Outcome}

/-- dpcwc_tcp_client and dpcwc_uds_client by the results of their calls. -/
theorem client_cases (o : Opener) (n : Creation) (connect : Dpret) :
    refuses o n.a ∧ client o n connect={ret := n.errno} ∨
      ¬refuses o n.a ∧ 0≤connect ∧ client o n connect={ret := dpeOk, out := true, ele := {}} ∨
      ¬refuses o n.a ∧ connect<0 ∧ (client o n connect).ret=connect ∧ (client o n connect).out=false ∧
        (client o n connect).ele.refs=0 := by
  unfold client
  rcases opener_refuses o n.a {} with ⟨href,hnone⟩ | ⟨href,b,hsome⟩
  · rw [hnone]
    exact .inl ⟨href,rfl⟩
  · rw [hsome]
    by_cases hconnect : 0≤connect
    · simp only [if_pos hconnect]
      exact .inr (.inl ⟨href,hconnect,trivial⟩)
    · simp only [if_neg hconnect]
      exact .inr (.inr ⟨href,not_le.mp hconnect,trivial,trivial,rfl⟩)

theorem listen_cases (o : Opener) (n : Creation) : refuses o n.a ∧ listen o n={ret := n.errno} ∨
    ¬refuses o n.a ∧ listen o n={ret := dpeOk, out := true, ele := {}} := by
  unfold listen
  rcases opener_refuses o n.a {} with ⟨href,hnone⟩ | ⟨href,b,hsome⟩
  · rw [hnone]
    exact .inl ⟨href,rfl⟩
  · rw [hsome]
    exact .inr ⟨href,rfl⟩

/-- The elements of accepted descriptors: only a failed registration closes the descriptor. -/
theorem accept_cases (hserver : ∀ fd,(server fd).type={efd := true, init := some (serverVopen fd true)}) (n : Creation) :
    ret<0 ∧ accept server ret n={ret := ret} ∨
      0≤ret ∧ n.a.alloc=true ∧ n.a.watch=none ∧ accept server ret n={ret := dpeOk, out := true, ele := {}} ∨
      0≤ret ∧ (n.a.alloc=true → n.a.watch≠none) ∧ (accept server ret n).ret=n.errno ∧ (accept server ret n).out=false ∧
        (accept server ret n).ele.refs=0 ∧ ((accept server ret n).ele.closes=1 ↔ n.a.alloc=true) := by
  unfold accept
  by_cases hneg : ret<0
  · rw [if_pos hneg]
    exact .inl ⟨hneg,rfl⟩
  rw [if_neg hneg,hserver]
  have hpos : 0≤ret := not_lt.mp hneg
  unfold dpeleNewv
  by_cases halloc : n.a.alloc=false
  · rw [if_pos halloc]
    have hno : ¬n.a.alloc=true := by
      rw [halloc]
      decide
    exact .inr (.inr ⟨hpos,fun h => absurd h hno,rfl,rfl,rfl,iff_of_false (show ¬(0 : ℕ)=1 by decide) hno⟩)
  have halloc' : n.a.alloc=true := Bool.not_eq_false _ ▸ halloc
  rw [if_neg halloc]
  simp only [serverVopen,Bool.true_eq_false,if_false,if_neg hneg,if_true]
  cases hwatch : n.a.watch with
  | none => exact .inr (.inl ⟨hpos,halloc',rfl,rfl⟩)
  | some e =>
    refine .inr (.inr ⟨hpos,fun _ h => (by cases h),rfl,rfl,rfl,iff_of_true ?_ halloc'⟩)
    simp only [dpeleDel,if_pos (And.intro trivial hpos)]
    cases n.a.unwatch <;> rfl

/-- dpele_new of an SSL session over this element. -/
theorem ssl_cases (s : Ssl) (a : Answers) (g : Given) :
    (a.alloc=true ∧ s.attaches ∧ 0≤ s.fd ∧ a.watch=none ∧ ∃ w b,dpeleNewv (Kind.ssl s).type a {given := g}=(w,some b) ∧
        w.given={g with isClose := false}) ∨
      ¬(a.alloc=true ∧ s.attaches ∧ 0≤ s.fd ∧ a.watch=none) ∧ ∃ w,dpeleNewv (Kind.ssl s).type a {given := g}=(w,none) ∧
        ((a.alloc=false ∨ ¬s.attaches) ∧ w.given=g ∨ a.alloc=true ∧ s.attaches ∧ w.given.refs=g.refs-1) := by
  generalize hrun : dpeleNewv (Kind.ssl s).type a {given := g}=x
  obtain ⟨w,r⟩ := x
  by_cases halloc : a.alloc=false
  · have hno : ¬(a.alloc=true ∧ s.attaches ∧ 0≤ s.fd ∧ a.watch=none) := fun h => by
      rw [halloc] at h
      cases h.1
    have hnone := hrun
    rw [dpeleNewv,if_pos halloc] at hnone
    cases hnone
    exact .inr ⟨hno,_,rfl,.inl ⟨.inl halloc,rfl⟩⟩
  have halloc' : a.alloc=true := Bool.not_eq_false _ ▸ halloc
  have hsteps := hrun
  rw [dpeleNewv,if_neg halloc,if_neg (show ¬(Kind.ssl s).type.known=false from Bool.noConfusion)] at hsteps
  simp only [Kind.type] at hsteps
  rcases uinit_cases s (World.element {given := g} 1) with ⟨hs,hinit⟩ | ⟨hno,ret,hneg,hinit⟩
  · rw [hinit] at hsteps
    by_cases hfd : s.fd<0
    · simp only [if_pos hfd] at hsteps
      cases hsteps
      exact .inr ⟨fun h => absurd h.2.2.1 (not_le.mpr hfd),_,rfl,.inr ⟨halloc',hs,ssl_attached hs halloc' hrun⟩⟩
    simp only [if_neg hfd,if_true] at hsteps
    cases hwatch : a.watch with
    | none =>
      rw [hwatch] at hsteps
      cases hsteps
      exact .inl ⟨halloc',hs,not_lt.mp hfd,rfl,_,_,rfl,rfl⟩
    | some e =>
      rw [hwatch] at hsteps
      cases hsteps
      exact .inr ⟨fun h => (by cases h.2.2.2),_,rfl,.inr ⟨halloc',hs,ssl_attached hs halloc' hrun⟩⟩
  · rw [hinit] at hsteps
    simp only [if_pos hneg] at hsteps
    cases hsteps
    have hat := (ssl_atomic halloc' hrun).mpr hno
    exact .inr ⟨fun h => hno h.2.1,_,rfl,.inl ⟨.inr hno,hat.given⟩⟩

/-- An outcome with an element, and one without. -/
theorem right_stored {serves accepts : Prop} (hret : 0≤t.ret) (hout : t.out=true) (hele : t.ele.refs=1 ∧ t.ele.closes=0) :
    Right t serves accepts ↔ serves := by
  constructor
  · intro h
    exact (h.stored hout).2.2
  · intro h
    refine ⟨iff_of_true hret hout,fun _ => ⟨hele.1,hele.2,h⟩,fun hno => ?_⟩
    rw [hout] at hno
    cases hno

theorem right_undone {serves accepts : Prop} (hout : t.out=false) (hrefs : t.ele.refs=0) :
    Right t serves accepts ↔ t.ret<0 ∧ (accepts → t.ele.closes=1) := by
  have hno : ¬t.out=true := by
    rw [hout]
    decide
  constructor
  · intro h
    exact ⟨not_le.mp fun hpos => hno (h.sign.mp hpos),(h.undone hout).2⟩
  · intro ⟨hneg,hclosed⟩
    exact ⟨iff_of_false (not_le.mpr hneg) hno,fun h => absurd h hno,fun _ => ⟨hrefs,hclosed⟩⟩

theorem client_right : Right (client o n connect) (0≤connect) False ↔ tells o n := by
  unfold tells
  rcases client_cases o n connect with ⟨href,hrun⟩ | ⟨href,hpos,hrun⟩ | ⟨href,hneg,hret,hout,hrefs⟩
  · rw [hrun,right_undone rfl rfl]
    exact ⟨fun h _ => h.1,fun h => ⟨h href,False.elim⟩⟩
  · rw [hrun,right_stored (by decide) rfl ⟨rfl,rfl⟩]
    exact iff_of_true hpos fun h => absurd h href
  · rw [right_undone hout hrefs,hret]
    exact iff_of_true ⟨hneg,False.elim⟩ fun h => absurd h href

theorem listen_right : Right (listen o n) (listens o) False ↔ tells o n ∧ (refuses o n.a ∨ listens o) := by
  unfold tells
  rcases listen_cases o n with ⟨href,hrun⟩ | ⟨href,hrun⟩
  · rw [hrun,right_undone rfl rfl]
    exact ⟨fun h => ⟨fun _ => h.1,.inl href⟩,fun h => ⟨h.1 href,False.elim⟩⟩
  · rw [hrun,right_stored (by decide) rfl ⟨rfl,rfl⟩,or_iff_right href]
    exact ⟨fun h => ⟨fun hyes => absurd hyes href,h⟩,fun h => h.2⟩

theorem accept_right (hserver : ∀ fd,(server fd).type={efd := true, init := some (serverVopen fd true)}) :
    Right (accept server ret n) (0≤ret) (0≤ret) ↔ (0≤ret → settles n) := by
  unfold settles
  rcases @accept_cases ret server hserver n with ⟨hneg,hrun⟩ | ⟨hpos,halloc,hwatch,hrun⟩ | ⟨hpos,hwatch,hret,hout,hrefs,hcloses⟩
  · rw [hrun,right_undone rfl rfl]
    exact iff_of_true ⟨hneg,fun hpos => absurd hneg (not_lt.mpr hpos)⟩ fun hpos => absurd hneg (not_lt.mpr hpos)
  · rw [hrun,right_stored (by decide) rfl ⟨rfl,rfl⟩]
    exact iff_of_true hpos fun _ => ⟨halloc,.inl hwatch⟩
  · rw [right_undone hout hrefs,hret,hcloses]
    constructor
    · intro ⟨hneg,halloc⟩ _
      exact ⟨halloc hpos,.inr hneg⟩
    · intro h
      obtain ⟨halloc,hnone | hneg⟩ := h hpos
      · exact absurd hnone (hwatch halloc)
      · exact ⟨hneg,fun _ => halloc⟩

/-- The second call of an SSL helper over a live element. -/
theorem secure_right {serves accepts : Prop} (hret : 0≤t.ret) (hout : t.out=true) (hele : t.ele={}) (hserves : serves) :
    Right (secure t s n') serves accepts ↔ secures s n' := by
  unfold secure secures
  rw [if_neg (not_lt.mpr hret)]
  simp only [hout,if_true,hele]
  rcases ssl_cases s n'.a {} with ⟨halloc,hs,hfd,hwatch,w,b,hrun,hgiven⟩ | ⟨hno,w,hrun,hgiven⟩
  · have hlive : w.given.refs=1 ∧ w.given.closes=0 := by
      rw [hgiven]
      exact ⟨rfl,rfl⟩
    rw [hrun]
    exact (right_stored (show 0≤dpeOk by decide) rfl hlive).trans (iff_of_true hserves (.inl ⟨halloc,hs,hfd,hwatch⟩))
  · rw [hrun,or_iff_right hno]
    rcases hgiven with ⟨hearly,hgiven⟩ | ⟨halloc,hs,hrefs⟩
    · have hdel : (w.delGiven none).given.refs=0 ∧ (w.delGiven none).given.closes=1 := by
        unfold World.delGiven
        rw [hgiven]
        exact ⟨rfl,rfl⟩
      rw [right_undone rfl hdel.1]
      exact ⟨fun h => ⟨h.1,hearly⟩,fun h => ⟨h.1,fun _ => hdel.2⟩⟩
    · refine iff_of_false (fun h => ?_) ?_
      · have hzero := (h.undone rfl).1
        rw [delGiven_refs,hrefs] at hzero
        exact absurd hzero (by decide)
      · rintro ⟨-,hfail | hfail⟩
        · rw [halloc] at hfail
          cases hfail
        · exact hfail hs

/-- The second call gets a null pointer. -/
theorem secure_null {serves accepts : Prop} (hret : 0≤t.ret) (hout : t.out=false) (hrefs : t.ele.refs=0) :
    Right (secure t s n') serves accepts ↔ n'.errno<0 ∧ (accepts → t.ele.closes=1) := by
  unfold secure
  rw [if_neg (not_lt.mpr hret)]
  simp only [hout,Bool.false_eq_true,if_false]
  have hno : ¬Ssl.attaches {s with argsOk := false} := fun h => (by cases h.1)
  rcases ssl_cases {s with argsOk := false} n'.a t.ele with ⟨-,hs,-⟩ | ⟨-,w,hrun,hgiven⟩
  · exact absurd hs hno
  · rcases hgiven with ⟨-,hgiven⟩ | ⟨-,hs,-⟩
    · have hzero : w.given.refs=0 := by
        rw [hgiven]
        exact hrefs
      rw [hrun]
      refine (right_undone rfl hzero).trans ?_
      simp only [hgiven]
    · exact absurd hs hno

/-- The listening openers listen on the descriptor that they have opened. -/
theorem tcp_listens (host : Option String) (port backlog : ℤ) (result : Resolved) :
    listens (.tcpListen host port backlog result) ↔ (Opener.tcpListen host port backlog result).run.1.mine=
      [(Opener.tcpListen host port backlog result).run.2.2] := by
  have hrun : (Opener.tcpListen host port backlog result).run=SocketOpen.resolveVopen 136
    (SocketOpen.tryAll (fun rp => [.reuseport,.nodelay,.bind rp.addr,.listen backlog]) 0 {}) host port result := rfl
  unfold listens
  rw [hrun]
  refine and_iff_left_of_imp fun hmine => ?_
  unfold SocketOpen.resolveVopen at hmine ⊢
  by_cases hbad : SocketOpen.badArgs host port
  · rw [if_pos hbad] at hmine
    cases hmine
  rw [if_neg hbad] at hmine ⊢
  cases result with
  | err r => cases hmine
  | ok l =>
    have hspec := @SocketOpen.tryAll_spec {} (fun rp => [.reuseport,.nodelay,.bind rp.addr,.listen backlog]) 0
      (SocketOpen.zeros 136) l rfl
    simp only at hmine ⊢
    split at hspec
    · obtain ⟨w,htry,hnil,-⟩ := hspec
      rw [htry,hnil] at hmine
      cases hmine
    · obtain ⟨w,fd,htry,-,-,-,hconf⟩ := hspec
      rw [htry]
      refine ⟨backlog,hconf.mem ?_⟩
      simp only [List.map_cons,List.mem_cons,true_or,or_true]

theorem uds_listens {path : Option (List Byte)} {x : SocketOpen.Answers} (hpos : 0≤(Opener.udsListen path x).run.2.2) :
    listens (.udsListen path x) := by
  cases path with
  | none => exact absurd hpos (show ¬0≤dpeInval by decide)
  | some file =>
    cases hsock : x.sock with
    | error e =>
      have he := e.2
      have hrun : (Opener.udsListen (some file) x).run.2.2= -(e.1 : ℤ) := by
        simp only [Opener.run,SocketOpen.dpudsListenVopen,SocketOpen.socket_error hsock,if_pos (show (-1 : ℤ)<0 by decide)]
      omega
    | ok fd =>
      have hfd : ¬(fd : ℤ)<0 := by omega
      rcases SocketOpen.performs_cases {mine := [(fd : ℤ)]} x fd [.bind [1,0],.listen 100] with
        ⟨-,hp⟩ | ⟨-,w,hp,hmine,-,herrno⟩
      · have hrun : (Opener.udsListen (some file) x).run.2.2=fd ∧ (Opener.udsListen (some file) x).run.1=
            {mine := [(fd : ℤ)], conf := [((fd : ℤ),.bind [1,0]),((fd : ℤ),.listen 100)]} := by
          simp only [Opener.run,SocketOpen.dpudsListenVopen,SocketOpen.socket_ok hsock,if_neg hfd,SocketOpen.bound_addr,hp]
          exact ⟨trivial,rfl⟩
        unfold listens
        rw [hrun.1,hrun.2]
        exact ⟨rfl,100,List.mem_cons_of_mem _ (List.mem_singleton_self _)⟩
      · have hrun : (Opener.udsListen (some file) x).run.2.2= -(w.close x fd).errno := by
          simp only [Opener.run,SocketOpen.dpudsListenVopen,SocketOpen.socket_ok hsock,if_neg hfd,SocketOpen.bound_addr,hp]
        have herr := (SocketOpen.close_own (a := x) hmine).2.2 herrno
        omega

theorem ssl_client_right (host : Option String) (port : ℤ) (result : Resolved) (n : Creation) (connect : Dpret) (s : Ssl)
    (n' : Creation) : Right (dpcwcSslClient host port result n connect s n') (0≤connect) False ↔
      (refuses (.tcpClient host port result) n.a → n.errno<0 ∨ n'.errno<0) ∧
        (¬refuses (.tcpClient host port result) n.a → 0≤connect → secures s n') := by
  unfold dpcwcSslClient dpcwcTcpClient
  rcases client_cases (.tcpClient host port result) n connect with ⟨href,hrun⟩ | ⟨href,hpos,hrun⟩ | ⟨href,hneg,hret,hout,hrefs⟩
  · rw [hrun,and_iff_left fun hno => absurd href hno]
    by_cases herrno : n.errno<0
    · rw [secure,if_pos herrno,right_undone rfl rfl]
      exact iff_of_true ⟨herrno,False.elim⟩ fun _ => .inl herrno
    · rw [secure_null (not_lt.mp herrno) rfl rfl,and_iff_left False.elim]
      exact ⟨fun h _ => .inr h,fun h => (h href).resolve_left herrno⟩
  · rw [hrun,secure_right (show 0≤dpeOk by decide) rfl rfl hpos]
    exact ⟨fun h => ⟨fun hyes => absurd hyes href,fun _ _ => h⟩,fun h => h.2 href hpos⟩
  · have hfirst : (client (.tcpClient host port result) n connect).ret<0 := by
      rw [hret]
      exact hneg
    rw [secure,if_pos hfirst,right_undone hout hrefs]
    exact iff_of_true ⟨hfirst,False.elim⟩ ⟨fun hyes => absurd hyes href,fun _ hpos => absurd hneg (not_lt.mpr hpos)⟩

theorem ssl_accept_right (ret : Dpret) (n : Creation) (s : Ssl) (n' : Creation) :
    Right (dpcwcSslAccept ret n s n') (0≤ret) (0≤ret) ↔
      (0≤ret → n.a.alloc=true ∧ if n.a.watch=none then secures s n' else n.errno<0 ∨ n'.errno<0) := by
  unfold dpcwcSslAccept dpcwcTcpAccept
  rcases @accept_cases ret (fun fd => .tcpServer fd true) (fun _ => rfl) n with
    ⟨hneg,hrun⟩ | ⟨hpos,halloc,hwatch,hrun⟩ | ⟨hpos,hwatch,hret,hout,hrefs,hcloses⟩
  · rw [hrun,secure,if_pos hneg,right_undone rfl rfl]
    exact iff_of_true ⟨hneg,fun hpos => absurd hneg (not_lt.mpr hpos)⟩ fun hpos => absurd hneg (not_lt.mpr hpos)
  · rw [hrun,secure_right (show 0≤dpeOk by decide) rfl rfl hpos,if_pos hwatch]
    exact ⟨fun h _ => ⟨halloc,h⟩,fun h => (h hpos).2⟩
  · have hiff (hneg : n.errno<0 ∨ n'.errno<0) : (0≤ret → n.a.alloc=true ∧
        if n.a.watch=none then secures s n' else n.errno<0 ∨ n'.errno<0) ↔ n.a.alloc=true := by
      constructor
      · exact fun h => (h hpos).1
      · intro halloc _
        rw [if_neg (hwatch halloc)]
        exact ⟨halloc,hneg⟩
    by_cases herrno : n.errno<0
    · have hfirst : (accept (fun fd => .tcpServer fd true) ret n).ret<0 := by
        rw [hret]
        exact herrno
      rw [secure,if_pos hfirst,right_undone hout hrefs,hcloses,hiff (.inl herrno)]
      exact ⟨fun h => h.2 hpos,fun h => ⟨hfirst,fun _ => h⟩⟩
    · have hfirst : 0≤(accept (fun fd => .tcpServer fd true) ret n).ret := by
        rw [hret]
        exact not_lt.mp herrno
      rw [secure_null hfirst hout hrefs,hcloses]
      constructor
      · intro ⟨hneg,halloc⟩
        exact (hiff (.inr hneg)).mpr (halloc hpos)
      · intro h
        obtain ⟨halloc,hrest⟩ := h hpos
        rw [if_neg (hwatch halloc)] at hrest
        exact ⟨hrest.resolve_left herrno,fun _ => halloc⟩

theorem helper_right (h : Helper) : h.right ↔ h.holds := by
  cases h with
  | tcpClient host port result n connect => exact client_right
  | udsClient path x n connect => exact client_right
  | tcpListen host port backlog result n =>
    refine listen_right.trans (and_congr_right fun _ => ?_)
    rw [tcp_listens]
    constructor
    · exact fun h => h.imp_right .inr
    · rintro (href | hneg | hmine)
      · exact .inl href
      · exact .inl (.inr (.inl hneg))
      · exact .inr hmine
  | udsListen path x n =>
    refine listen_right.trans (and_iff_left ?_)
    by_cases hneg : (Opener.udsListen path x).run.2.2<0
    · exact .inl (.inr (.inl hneg))
    · exact .inr (uds_listens (not_lt.mp hneg))
  | tcpAccept ret n => exact @accept_right n ret (fun fd => .tcpServer fd true) fun _ => rfl
  | udsAccept ret n => exact @accept_right n ret .udsServer fun _ => rfl
  | sslClient host port result n connect s n' => exact ssl_client_right host port result n connect s n'
  | sslAccept ret n s n' => exact ssl_accept_right ret n s n'

end

/-- No name to listen on: errno is what an earlier call has left. -/
theorem helper_right_stale : ¬∀ h : Helper,h.right := by
  intro h
  have hright := h (.tcpListen none 80 100 (.ok []) {errno := 11})
  cases hright.sign.mp (show (0 : ℤ)≤11 by decide)

end Dpapp.DpcwcAux
