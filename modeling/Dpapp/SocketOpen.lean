import Dpapp.Instances
import Dpapp.Ret
import Dpapp.Segment

/-! # Opening sockets (os/dptcp.c, os/dpudp.c, os/dpuds.c)

The init functions of the socket elements. What getaddrinfo and the calls on a socket answer is given with the addresses. -/

namespace Dpapp.SocketOpen
open Dpapp.Ret Dpapp.Segment

abbrev Byte := UInt8

/-- errno of a call that has failed -/
abbrev Errno := {e : ℕ // 0<e}

/-- A call that configures a socket. -/
inductive Step
  | reuseport
  | nodelay
  | bind (addr : List Byte)
  | listen (backlog : ℤ)
  | connect (addr : List Byte)
  | getsockname
  deriving DecidableEq

/-- What a socket() and the calls on its descriptor answer. -/
structure Answers where
  sock : Except Errno ℕ
  fails : Step → Option Errno
  close : Option Errno := none

/-- A struct addrinfo, with what happens when it is tried. -/
structure Addrinfo extends Answers where
  addr : List Byte
  fits : 2≤ addr.length ∧ addr.length≤128
  sockname : List Byte := []
  short : sockname.length≤28 := by decide

/-- getaddrinfo -/
inductive Resolved
  | err (r : {r : ℤ // r≠0})
  | ok (result : List Addrinfo)

/-- The process, as the opener leaves it: `mine` are the descriptors it has opened and not closed, `stray` other arguments of
its close calls, `conf` its calls on descriptors that have succeeded. -/
structure World where
  errno : ℤ := 0
  mine : List ℤ := []
  stray : List ℤ := []
  conf : List (ℤ × Step) := []

def World.socket (w : World) (a : Answers) : World × ℤ :=
  match a.sock with
  | .ok fd => ({w with mine := (fd : ℤ)::w.mine},fd)
  | .error e => ({w with errno := e.1},-1)

def World.perform (w : World) (a : Answers) (fd : ℤ) (s : Step) : World × Bool :=
  match a.fails s with
  | none => ({w with conf := w.conf++[(fd,s)]},true)
  | some e => ({w with errno := e.1},false)

/-- close; it leaves errno alone where it succeeds. -/
def World.close (w : World) (a : Answers) (fd : ℤ) : World :=
  let w := if fd∈ w.mine then {w with mine := w.mine.erase fd} else {w with stray := w.stray++[fd]}
  match a.close with
  | none => w
  | some e => {w with errno := e.1}

/-! ### aux_data -/

/-- socklen_t in memory -/
def word (n : ℕ) : List Byte := [UInt8.ofNat n,UInt8.ofNat (n/256),UInt8.ofNat (n/65536),UInt8.ofNat (n/16777216)]

def ofWord : List Byte → ℕ
  | [] => 0
  | b::l => b.toNat+256*ofWord l

/-- calloc -/
def zeros (n : ℕ) : List Byte := List.replicate n 0

/-- `addr` and `real` of the dpsockaddr_t at this offset. -/
def putSockaddr (aux : List Byte) (off : ℕ) (addr : List Byte) : List Byte :=
  put (put aux off addr) (off+128) (word addr.length)

/-- What dpskt_connect, dptcp_addr and the others read as a dpsockaddr_t. -/
def getSockaddr (aux : List Byte) (off : ℕ) : Option (List Byte) :=
  if off+132≤ aux.length then some (seg aux off (off+ofWord (seg aux (off+128) (off+132)))) else none

/-- sa_family -/
def family (addr : List Byte) : ℕ := ofWord (addr.take 2)

def afUnix : ℕ := 1
def afInet : ℕ := 2
def afInet6 : ℕ := 10

/-! ### The openers over getaddrinfo -/

/-- The calls in their order, up to the first that fails. -/
def performs (w : World) (a : Answers) (fd : ℤ) : List Step → World × Bool
  | [] => (w,true)
  | s::steps => if (w.perform a fd s).2=true then performs (w.perform a fd s).1 a fd steps else ((w.perform a fd s).1,false)

/-- The loop over the addresses: `steps` are the calls on a descriptor, and the address is stored at `off`. -/
def tryAll (steps : Addrinfo → List Step) (off : ℕ) (w : World) (aux : List Byte) : List Addrinfo → World × List Byte × ℤ
  | [] => (w,aux,-1)
  | rp::rest =>
      match w.socket rp.toAnswers with
      | (w,fd) =>
          if fd= -1 then tryAll steps off w aux rest
          else
            match performs w rp.toAnswers fd (steps rp) with
            | (w,true) => (w,putSockaddr aux off rp.addr,fd)
            | (w,false) => tryAll steps off (w.close rp.toAnswers fd) aux rest

def badArgs (host : Option String) (port : ℤ) : Prop := host=none ∨ port≤0 ∨ 65535<port

instance (host : Option String) (port : ℤ) : Decidable (badArgs host port) := inferInstanceAs (Decidable (_ ∨ _ ∨ _))

/-- What comes before the loop; `size` is that of aux_data. -/
def resolveVopen (size : ℕ) (loop : List Byte → List Addrinfo → World × List Byte × ℤ) (host : Option String) (port : ℤ)
    (result : Resolved) : World × List Byte × ℤ :=
  if badArgs host port then ({},zeros size,dpeInval)
  else
    match result with
    | .err r => ({},zeros size,-r)
    | .ok l => loop (zeros size) l

/-- `_dptcp_client_vopen` -/
def dptcpClientVopen := resolveVopen 136 (tryAll (fun _ => [.nodelay]) 0 {})

/-- `_dptcp_listen_vopen` -/
def dptcpListenVopen (backlog : ℤ) :=
  resolveVopen 136 (tryAll (fun rp => [.reuseport,.nodelay,.bind rp.addr,.listen backlog]) 0 {})

/-- dpudp_server_vopen -/
def dpudpServerVopen := resolveVopen 136 (tryAll (fun rp => [.reuseport,.bind rp.addr]) 0 {})

def opens (rp : Addrinfo) : Bool :=
  match rp.sock with
  | .ok _ => true
  | .error _ => false

/-- What calls on no descriptor answer, EBADF. -/
def noAnswers : Answers := ⟨.error ⟨9,by decide⟩,fun _ => some ⟨9,by decide⟩,some ⟨9,by decide⟩⟩

/-- The wildcard address and port of a family. -/
def wildcard (f : ℕ) : List Byte := if f=afInet then [2,0]++zeros 14 else [10,0]++zeros 26

/-- dpudp_client_vopen after its loop: peer_addr is at 136, and local_addr at 0. -/
def dpudpClientConnect (w : World) (aux : List Byte) (fd : ℤ) (a : Answers) (sockname : List Byte) : World × List Byte × ℤ :=
  let peer := seg aux 136 (136+ofWord (seg aux 264 268))
  let f := family (seg aux 136 138)
  match if f=afInet ∨ f=afInet6 then performs w a fd [.bind (wildcard f),.connect peer,.getsockname]
      -- errno is given a code that is negative already
      else ({w with errno := dpeInval},false) with
  | (w,true) => (w,putSockaddr aux 0 sockname,fd)
  | (w,false) => (w.close a fd,aux,-w.errno)

/-- dpudp_client_vopen once the name has been resolved. -/
def dpudpClientLoop (aux : List Byte) (l : List Addrinfo) : World × List Byte × ℤ :=
  match tryAll (fun _ => []) 136 {} aux l with
  | (w,aux,fd) =>
      match l.find? opens with
      | some rp => dpudpClientConnect w aux fd rp.toAnswers rp.sockname
      | none => dpudpClientConnect w aux fd noAnswers []

/-- dpudp_client_vopen -/
def dpudpClientVopen := resolveVopen 272 dpudpClientLoop

/-! ### Unix-domain sockets -/

def strlen (l : List Byte) : ℕ := (l.takeWhile (·≠0)).length

/-- SUN_LEN -/
def sunLen (addr : List Byte) : ℕ := 2+strlen (addr.drop 2)

def strncpy (s : List Byte) (n : ℕ) : List Byte := (s++zeros n).take n

/-- dpuds_data_t: `real` is at 0 and `addr` at 8. -/
def dpudsReal (aux : List Byte) : List Byte := put aux 0 (word (sunLen (seg aux 8 118)))

def dpudsAddr (aux udsfile : List Byte) : List Byte := put (put aux 8 [1,0]) 10 (strncpy udsfile 107++[0])

/-- `_dpuds_client_vopen` -/
def dpudsClientVopen (udsfile : Option (List Byte)) (a : Answers) : World × List Byte × ℤ :=
  match udsfile with
  | none => ({},zeros 120,dpeInval)
  | some udsfile =>
      match ({} : World).socket a with
      | (w,fd) => if fd<0 then (w,zeros 120,-w.errno) else (w,dpudsAddr (dpudsReal (zeros 120)) udsfile,fd)

/-- `_dpuds_listen_vopen` -/
def dpudsListenVopen (udsfile : Option (List Byte)) (a : Answers) : World × List Byte × ℤ :=
  match udsfile with
  | none => ({},zeros 120,dpeInval)
  | some udsfile =>
      match ({} : World).socket a with
      | (w,fd) =>
          if fd<0 then (w,zeros 120,-w.errno)
          else
            let aux := dpudsAddr (put (dpudsReal (zeros 120)) 8 (zeros 110)) udsfile
            match performs w a fd [.bind (seg aux 8 (8+ofWord (seg aux 0 4))),.listen 100] with
            | (w,true) => (w,aux,fd)
            | (w,false) => (w.close a fd,aux,-(w.close a fd).errno)

/-! ### What an opener should do -/

/-- A call of an opener, with the answers it gets. -/
inductive Opener
  | tcpClient (host : Option String) (port : ℤ) (result : Resolved)
  | tcpListen (host : Option String) (port backlog : ℤ) (result : Resolved)
  | udpClient (host : Option String) (port : ℤ) (result : Resolved)
  | udpServer (host : Option String) (port : ℤ) (result : Resolved)
  | udsClient (udsfile : Option (List Byte)) (a : Answers)
  | udsListen (udsfile : Option (List Byte)) (a : Answers)

def Opener.run : Opener → World × List Byte × ℤ
  | .tcpClient host port result => dptcpClientVopen host port result
  | .tcpListen host port backlog result => dptcpListenVopen backlog host port result
  | .udpClient host port result => dpudpClientVopen host port result
  | .udpServer host port result => dpudpServerVopen host port result
  | .udsClient udsfile a => dpudsClientVopen udsfile a
  | .udsListen udsfile a => dpudsListenVopen udsfile a

def resolved (host : Option String) (port : ℤ) (result : Resolved) : List Addrinfo :=
  if badArgs host port then []
  else
    match result with
    | .err _ => []
    | .ok l => l

/-- The address of a file, as sockaddr_un has room for it. -/
def unixAddr (udsfile : List Byte) : List Byte := [1,0]++udsfile.take 107

def unixInfo (udsfile : List Byte) (a : Answers) : Addrinfo where
  toAnswers := a
  addr := unixAddr udsfile
  fits := by
    unfold unixAddr
    rw [List.length_append,List.length_take]
    simp only [List.length_cons,List.length_nil]
    omega

/-- The addresses that the opener is given. -/
def Opener.list : Opener → List Addrinfo
  | .tcpClient host port result | .tcpListen host port _ result | .udpClient host port result | .udpServer host port result =>
      resolved host port result
  | .udsClient udsfile a | .udsListen udsfile a => (udsfile.map fun f => unixInfo f a).toList

/-- The calls on its descriptor that an address needs. -/
def Opener.steps : Opener → Addrinfo → List Step
  | .tcpClient .. => fun _ => [.nodelay]
  | .tcpListen _ _ backlog _ => fun rp => [.reuseport,.nodelay,.bind rp.addr,.listen backlog]
  | .udpClient .. => fun rp => [.bind (wildcard (family rp.addr)),.connect rp.addr,.getsockname]
  | .udpServer .. => fun rp => [.reuseport,.bind rp.addr]
  | .udsClient .. => fun _ => []
  | .udsListen .. => fun rp => [.bind rp.addr,.listen 100]

def isInet (rp : Addrinfo) : Bool := family rp.addr=afInet ∨ family rp.addr=afInet6

/-- A UDP client knows two families. -/
def Opener.suits : Opener → Addrinfo → Bool
  | .udpClient .. => isInet
  | .tcpClient .. | .tcpListen .. | .udpServer .. | .udsClient .. | .udsListen .. => fun _ => true

/-- Where the address is read: peer_addr of a UDP client by dpudp_peeraddr, the others at the begin of aux_data. -/
def Opener.off : Opener → ℕ
  | .udpClient .. => 136
  | .tcpClient .. | .tcpListen .. | .udpServer .. | .udsClient .. | .udsListen .. => 0

/-- All steps succeed for an address. -/
def works (steps : Addrinfo → List Step) (suits : Addrinfo → Bool) (rp : Addrinfo) : Bool :=
  opens rp && suits rp && (steps rp).all fun s => (rp.fails s).isNone

/-- A result that is not negative is the open descriptor of the first address for which all steps have succeeded, and the
address is where it is read; with another result all descriptors are closed. None but its own is ever closed. -/
structure Right (steps : Addrinfo → List Step) (suits : Addrinfo → Bool) (off : ℕ) (l : List Addrinfo)
    (x : World × List Byte × ℤ) : Prop where
  opened : 0≤x.2.2 → ∃ rp fd,l.find? (works steps suits)=some rp ∧ rp.sock=.ok fd ∧ x.2.2=fd ∧ x.1.mine=[(fd : ℤ)] ∧
    getSockaddr x.2.1 off=some rp.addr ∧ (steps rp).map ((fd : ℤ),·)<:+x.1.conf
  failed : x.2.2<0 → x.1.mine=[]
  closes : ∀ f∈ x.1.stray,f<0

/-- An address for which all steps would succeed is used. -/
def Used (steps : Addrinfo → List Step) (suits : Addrinfo → Bool) (l : List Addrinfo) (x : World × List Byte × ℤ) : Prop :=
  ∀ rp,l.find? (works steps suits)=some rp → ∃ fd,rp.sock=.ok fd ∧ x.2.2=fd ∧ x.1.mine=[(fd : ℤ)]

def Opener.right (o : Opener) : Prop := Right o.steps o.suits o.off o.list o.run

def Opener.used (o : Opener) : Prop := Used o.steps o.suits o.list o.run

/-- The name is resolved, or the code of getaddrinfo is positive. -/
def positive (host : Option String) (port : ℤ) (result : Resolved) : Prop := badArgs host port ∨ ∀ r,result=.err r → 0<r.1

/-- A UDP client finds an address that socket() has a descriptor for, and it is of the two families; an opener of a
Unix-domain socket gets no descriptor, or cannot bind it or listen on it. -/
def Opener.holds : Opener → Prop
  | .tcpClient host port result | .tcpListen host port _ result | .udpServer host port result => positive host port result
  | .udpClient host port result => positive host port result ∧ ∀ l,result=.ok l → badArgs host port ∨
      ∃ rp,l.find? opens=some rp ∧ isInet rp=true
  | .udsClient udsfile a => udsfile=none ∨ ∃ e,a.sock=.error e
  | .udsListen udsfile a => udsfile=none ∨ (∃ e,a.sock=.error e) ∨ (a.fails (.bind [1,0])).isSome ∨ (a.fails (.listen 100)).isSome

/-- For a UDP client, the first address that socket() has a descriptor for will do if any does. -/
def Opener.first : Opener → Prop
  | .udpClient host port result => ∀ rp,(resolved host port result).find? (works (Opener.udpClient host port result).steps isInet)=
      some rp → (resolved host port result).find? opens=some rp
  | .udsListen udsfile a => ∀ f,udsfile=some f → works (Opener.udsListen udsfile a).steps (fun _ => true) (unixInfo f a)=true →
      a.fails (.bind [1,0])=none
  | .tcpClient .. | .tcpListen .. | .udpServer .. | .udsClient .. => True

section Loop
variable {w : World} {a : Answers} {fd : ℤ} {steps : Addrinfo → List Step} {off size : ℕ} {aux addr : List Byte}
  {l : List Addrinfo} {host : Option String} {port : ℤ} {result : Resolved} {suits : Addrinfo → Bool}

/-- The calls all succeed, or one fails. -/
theorem performs_cases (w : World) (a : Answers) (fd : ℤ) (calls : List Step) :
    (calls.all (fun s => (a.fails s).isNone)=true ∧
      performs w a fd calls=({w with conf := w.conf++calls.map (fd,·)},true)) ∨
    calls.all (fun s => (a.fails s).isNone)=false ∧
      ∃ w',performs w a fd calls=(w',false) ∧ w'.mine=w.mine ∧ w'.stray=w.stray ∧ 0<w'.errno := by
  induction calls generalizing w with
  | nil =>
    refine .inl ⟨rfl,?_⟩
    simp only [performs,List.map_nil,List.append_nil]
  | cons s calls ih =>
    unfold performs World.perform
    cases hs : a.fails s with
    | none =>
      simp only [if_pos,List.all_cons,hs,Option.isNone_none,Bool.true_and,List.map_cons]
      rcases ih {w with conf := w.conf++[(fd,s)]} with ⟨hall,hp⟩ | ⟨hsome,w',hp,hrest⟩
      · refine .inl ⟨hall,?_⟩
        rw [hp]
        simp only [List.append_assoc,List.singleton_append]
      · exact .inr ⟨hsome,w',hp,hrest⟩
    | some e =>
      simp only [List.all_cons,hs,Option.isNone_some,Bool.false_and,Bool.false_eq_true,if_false]
      refine .inr ⟨trivial,_,rfl,rfl,rfl,?_⟩
      have := e.2
      simp only
      omega

theorem close_own (h : w.mine=[fd]) : (w.close a fd).mine=[] ∧ (w.close a fd).stray=w.stray ∧
    (0<w.errno → 0<(w.close a fd).errno) := by
  have hmem : fd∈ w.mine := by
    rw [h]
    exact List.mem_singleton_self fd
  have hnil : w.mine.erase fd=[] := by
    rw [h]
    exact List.erase_cons_head fd []
  unfold World.close
  simp only [if_pos hmem,hnil]
  cases hc : a.close with
  | none => exact ⟨rfl,rfl,id⟩
  | some e => exact ⟨rfl,rfl,fun _ => by have := e.2; simp only; omega⟩

/-- The loop stops at the first address for which all steps succeed. -/
theorem tryAll_spec (hw : w.mine=[]) : match l.find? (works steps fun _ => true) with
    | none => ∃ w' : World,tryAll steps off w aux l=(w',aux,-1) ∧ w'.mine=[] ∧ w'.stray=w.stray
    | some rp => ∃ (w' : World) (fd : ℕ),tryAll steps off w aux l=(w',putSockaddr aux off rp.addr,(fd : ℤ)) ∧ rp.sock=.ok fd ∧
        w'.mine=[(fd : ℤ)] ∧ w'.stray=w.stray ∧ (steps rp).map ((fd : ℤ),·)<:+w'.conf := by
  induction l generalizing w with
  | nil => exact ⟨w,rfl,hw,rfl⟩
  | cons rp rest ih =>
    rw [List.find?_cons]
    unfold tryAll World.socket works opens
    cases hsock : rp.sock with
    | error e =>
      simp only [Bool.false_and,if_pos]
      exact ih (w := {w with errno := e.1}) hw
    | ok fd =>
      have hne : (fd : ℤ)≠ -1 := by omega
      simp only [Bool.true_and,if_neg hne,hw]
      rcases performs_cases {w with mine := [(fd : ℤ)]} rp.toAnswers fd (steps rp) with ⟨hall,hp⟩ | ⟨hsome,w',hp,hmine,hstray,-⟩
      · rw [hall,hp]
        exact ⟨_,fd,rfl,hsock,rfl,rfl,List.suffix_append _ _⟩
      · rw [hsome,hp]
        obtain ⟨hclosed,hsame,-⟩ := close_own (a := rp.toAnswers) hmine
        have hrest := ih hclosed
        rw [hsame,hstray] at hrest
        exact hrest

theorem ofWord_word {n : ℕ} (h : n<2^32) : ofWord (word n)=n := by
  simp only [word,ofWord,UInt8.toNat_ofNat']
  omega

/-- The address is read back where it has been stored. -/
theorem getSockaddr_put (haddr : addr.length≤128) (hoff : off+132≤ aux.length) :
    getSockaddr (putSockaddr aux off addr) off=some addr := by
  have hword : (word addr.length).length=4 := rfl
  have h1 : (put aux off addr).length=aux.length := length_put (by omega)
  have h2 : off+128+(word addr.length).length≤(put aux off addr).length := by omega
  have hlen : (putSockaddr aux off addr).length=aux.length := (length_put h2).trans h1
  have hreal : seg (putSockaddr aux off addr) (off+128) (off+132)=word addr.length := seg_put_self h2
  unfold getSockaddr
  rw [if_pos (by omega),hreal,ofWord_word (by omega)]
  unfold putSockaddr
  rw [seg_put_off h2 (.inl (by omega)),seg_put_self (by omega)]

/-- Another address stored before it does not change it. -/
theorem getSockaddr_off {k : ℕ} (haddr : addr.length≤128) (hoff : off+132≤k) (haux : off+132≤ aux.length) :
    getSockaddr (putSockaddr aux off addr) k=getSockaddr aux k := by
  have hword : (word addr.length).length=4 := rfl
  have h1 : (put aux off addr).length=aux.length := length_put (by omega)
  have h2 : off+128+(word addr.length).length≤(put aux off addr).length := by omega
  have hlen : (putSockaddr aux off addr).length=aux.length := (length_put h2).trans h1
  have hsame (i j : ℕ) (hi : off+132≤ i) : seg (putSockaddr aux off addr) i j=seg aux i j := by
    unfold putSockaddr
    rw [seg_put_off h2 (.inr (by omega)),seg_put_off (by omega) (.inr (by omega))]
  unfold getSockaddr
  rw [hlen,hsame _ _ (by omega),hsame _ _ (by omega)]

/-- The loop does what an opener should do. -/
theorem right_tryAll (haux : off+132≤ aux.length) :
    Right steps (fun _ => true) off l (tryAll steps off {} aux l) ∧ Used steps (fun _ => true) l (tryAll steps off {} aux l) := by
  have hspec := @tryAll_spec {} steps off aux l rfl
  cases hfind : l.find? (works steps fun _ => true) with
  | none =>
    rw [hfind] at hspec
    obtain ⟨w',hrun,hmine,hstray⟩ := hspec
    rw [hrun]
    refine ⟨⟨fun hneg => absurd hneg (show ¬(0 : ℤ)≤ -1 by decide),fun _ => hmine,fun f hf => ?_⟩,fun rp hrp => ?_⟩
    · rw [hstray] at hf
      cases hf
    · rw [hfind] at hrp
      cases hrp
  | some rp =>
    rw [hfind] at hspec
    obtain ⟨w',fd,hrun,hsock,hmine,hstray,hconf⟩ := hspec
    rw [hrun]
    refine ⟨⟨fun _ => ⟨rp,fd,hfind,hsock,rfl,hmine,getSockaddr_put rp.fits.2 haux,hconf⟩,fun hneg => ?_,fun f hf => ?_⟩,
      fun rp' hrp => ?_⟩
    · have hneg : (fd : ℤ)<0 := hneg
      omega
    · rw [hstray] at hf
      cases hf
    · rw [hfind] at hrp
      cases hrp
      exact ⟨fd,hsock,rfl,hmine⟩

/-- What comes before the loop is right unless getaddrinfo has a negative code. -/
theorem right_resolve {loop : List Byte → List Addrinfo → World × List Byte × ℤ} {P : List Addrinfo → Prop}
    (hloop : ∀ l,Right steps suits off l (loop (zeros size) l) ↔ P l) :
    Right steps suits off (resolved host port result) (resolveVopen size loop host port result) ↔
      positive host port result ∧ ∀ l,result=.ok l → badArgs host port ∨ P l := by
  unfold resolved resolveVopen positive
  by_cases hbad : badArgs host port
  · simp only [if_pos hbad]
    exact iff_of_true ⟨fun hpos => absurd hpos (show ¬0≤dpeInval by decide),fun _ => rfl,fun f hf => (by cases hf)⟩
      ⟨.inl hbad,fun _ _ => .inl hbad⟩
  · simp only [if_neg hbad]
    have hor {Q : Prop} : badArgs host port ∨ Q ↔ Q := ⟨fun h => h.resolve_left hbad,.inr⟩
    simp only [hor]
    cases result with
    | err r =>
      have hne := r.2
      constructor
      · intro h
        refine ⟨fun r' hr => ?_,fun l hl => (by cases hl)⟩
        cases hr
        by_contra hneg
        obtain ⟨rp,fd,hfind,-⟩ := h.opened (show 0≤ -(r.1) by omega)
        cases hfind
      · rintro ⟨hpos,-⟩
        have hpos := hpos r rfl
        exact ⟨fun hneg => absurd hneg (show ¬0≤ -(r.1) by omega),fun _ => rfl,fun f hf => (by cases hf)⟩
    | ok l =>
      simp only
      rw [hloop l]
      exact ⟨fun h => ⟨fun _ hr => (by cases hr),fun l' hl => by cases hl; exact h⟩,fun h => h.2 l rfl⟩

theorem used_resolve {loop : List Byte → List Addrinfo → World × List Byte × ℤ} {P : List Addrinfo → Prop} (hnil : P [])
    (hloop : ∀ l,Used steps suits l (loop (zeros size) l) ↔ P l) :
    Used steps suits (resolved host port result) (resolveVopen size loop host port result) ↔ P (resolved host port result) := by
  unfold resolved resolveVopen
  by_cases hbad : badArgs host port
  · simp only [if_pos hbad]
    exact iff_of_true (fun _ hrp => by cases hrp) hnil
  · simp only [if_neg hbad]
    cases result with
    | err r => exact iff_of_true (fun _ hrp => by cases hrp) hnil
    | ok l => exact hloop l

end Loop

/-! ### The UDP client -/

section Udp
variable {w : World} {l : List Addrinfo} {rp : Addrinfo} {fd : ℕ} {aux : List Byte}

/-- The calls of a UDP client on its descriptor. -/
def udpSteps (rp : Addrinfo) : List Step := [.bind (wildcard (family rp.addr)),.connect rp.addr,.getsockname]

theorem works_nil : works (fun _ => []) (fun _ => true)=opens := by
  funext rp
  simp [works]

theorem find_first {p q : Addrinfo → Bool} (h : l.find? p=some rp) (hsub : ∀ x,q x=true → p x=true) (hq : q rp=true) :
    l.find? q=some rp := by
  induction l with
  | nil => cases h
  | cons x rest ih =>
    rw [List.find?_cons] at h ⊢
    cases hp : p x with
    | true =>
      rw [hp] at h
      cases h
      rw [hq]
    | false =>
      have hqx : q x=false := by
        cases hqx : q x with
        | false => rfl
        | true => rw [hsub x hqx] at hp; cases hp
      rw [hp] at h
      rw [hqx]
      exact ih h

theorem works_opens (steps : Addrinfo → List Step) (suits : Addrinfo → Bool) (x : Addrinfo) (h : works steps suits x=true) :
    opens x=true := by
  unfold works at h
  rw [Bool.and_assoc] at h
  exact (Bool.and_eq_true_iff.mp h).1

/-- What the loop has stored is what the rest reads. -/
theorem peer_eq (h : getSockaddr aux 136=some rp.addr) :
    seg aux 136 (136+ofWord (seg aux 264 268))=rp.addr ∧ family (seg aux 136 138)=family rp.addr := by
  unfold getSockaddr at h
  split at h
  · have hpeer : seg aux 136 (136+ofWord (seg aux 264 268))=rp.addr := Option.some.inj h
    refine ⟨hpeer,?_⟩
    have hlen : (seg aux 136 (136+ofWord (seg aux 264 268))).length≤ofWord (seg aux 264 268) := by
      rw [seg,List.length_take]
      omega
    have hfits := rp.fits.1
    rw [hpeer] at hlen
    have htake : (seg aux 136 (136+ofWord (seg aux 264 268))).take 2=seg aux 136 138 := take_seg (by omega)
    unfold family
    rw [← htake,hpeer,List.take_take,min_self]
  · cases h

/-- After the loop has found a descriptor: the steps that are left succeed, or it is closed. -/
theorem connect_spec (hmine : w.mine=[(fd : ℤ)]) (haux : aux.length=272) (hpeer : getSockaddr aux 136=some rp.addr)
    (hopens : rp.sock=.ok fd) :
    (works udpSteps isInet rp=true ∧ ∃ w' aux',dpudpClientConnect w aux fd rp.toAnswers rp.sockname=(w',aux',(fd : ℤ)) ∧
        w'.mine=[(fd : ℤ)] ∧ w'.stray=w.stray ∧ getSockaddr aux' 136=some rp.addr ∧
          (udpSteps rp).map ((fd : ℤ),·)<:+w'.conf) ∨
      works udpSteps isInet rp=false ∧ ∃ w' aux' ret,dpudpClientConnect w aux fd rp.toAnswers rp.sockname=(w',aux',ret) ∧
        w'.mine=[] ∧ w'.stray=w.stray ∧ (ret<0 ↔ isInet rp=true) := by
  obtain ⟨hread,hfam⟩ := peer_eq hpeer
  have hopen : opens rp=true := by
    unfold opens
    rw [hopens]
  unfold dpudpClientConnect
  rw [hread,hfam]
  by_cases hinet : isInet rp=true
  · have hcond : family rp.addr=afInet ∨ family rp.addr=afInet6 := of_decide_eq_true hinet
    simp only [if_pos hcond]
    have hworks : works udpSteps isInet rp=(udpSteps rp).all fun s => (rp.fails s).isNone := by
      unfold works
      rw [hopen,hinet,Bool.true_and,Bool.true_and]
    rcases performs_cases w rp.toAnswers fd (udpSteps rp) with ⟨hall,hp⟩ | ⟨hsome,w',hp,hkeep,hstray,herrno⟩
    · have hp : performs w rp.toAnswers fd [.bind (wildcard (family rp.addr)),.connect rp.addr,.getsockname]=_ := hp
      rw [hp]
      refine .inl ⟨hworks.trans hall,_,_,rfl,hmine,rfl,?_,List.suffix_append _ _⟩
      have hshort := rp.short
      exact (getSockaddr_off (by omega) (by omega) (by omega)).trans hpeer
    · have hp : performs w rp.toAnswers fd [.bind (wildcard (family rp.addr)),.connect rp.addr,.getsockname]=_ := hp
      rw [hp]
      obtain ⟨hclosed,hsame,-⟩ := close_own (a := rp.toAnswers) (hkeep.trans hmine)
      refine .inr ⟨hworks.trans hsome,_,_,_,rfl,hclosed,hsame.trans hstray,iff_of_true ?_ hinet⟩
      omega
  · have hcond : ¬(family rp.addr=afInet ∨ family rp.addr=afInet6) := fun h => hinet (decide_eq_true h)
    simp only [if_neg hcond]
    obtain ⟨hclosed,hsame,-⟩ := close_own (w := {w with errno := dpeInval}) (a := rp.toAnswers) hmine
    refine .inr ⟨?_,_,_,_,rfl,hclosed,hsame,iff_of_false (by decide) hinet⟩
    unfold works
    rw [Bool.eq_false_iff.mpr hinet,Bool.and_false,Bool.false_and]

theorem length_putSockaddr {off : ℕ} {addr : List Byte} (haddr : addr.length≤128) (hoff : off+132≤ aux.length) :
    (putSockaddr aux off addr).length=aux.length := by
  have hword : (word addr.length).length=4 := rfl
  have h1 : (put aux off addr).length=aux.length := length_put (by omega)
  exact (length_put (by omega)).trans h1

/-- The first address with a descriptor decides. -/
theorem udp_found (hopen : l.find? opens=some rp) :
    (Right udpSteps isInet 136 l (dpudpClientLoop (zeros 272) l) ↔ isInet rp=true) ∧
      (Used udpSteps isInet l (dpudpClientLoop (zeros 272) l) ↔
        ∀ x,l.find? (works udpSteps isInet)=some x → l.find? opens=some x) := by
  have hspec := @tryAll_spec {} (fun _ => []) 136 (zeros 272) l rfl
  rw [works_nil,hopen] at hspec
  obtain ⟨w,fd,hrun,hsock,hmine,hstray,-⟩ := hspec
  have hsize : (zeros 272).length=272 := List.length_replicate
  have hlen := (@length_putSockaddr (zeros 272) 136 _ rp.fits.2 (by omega)).trans hsize
  have hpeer := @getSockaddr_put 136 (zeros 272) _ rp.fits.2 (by omega)
  have hfirst (hw : works udpSteps isInet rp=true) : l.find? (works udpSteps isInet)=some rp :=
    find_first hopen (works_opens udpSteps isInet) hw
  unfold dpudpClientLoop
  rw [hrun,hopen]
  simp only
  rcases connect_spec hmine hlen hpeer hsock with ⟨hw,w',aux',hc,hmine',hstray',hget,hconf⟩ | ⟨hw,w',aux',ret,hc,hmine',hstray',hret⟩
  · rw [hc]
    have hinet : isInet rp=true := by
      unfold works at hw
      exact (Bool.and_eq_true_iff.mp (Bool.and_eq_true_iff.mp hw).1).2
    refine ⟨iff_of_true ⟨fun _ => ⟨rp,fd,hfirst hw,hsock,rfl,hmine',hget,hconf⟩,fun hneg => ?_,fun f hf => ?_⟩ hinet,
      iff_of_true (fun x hx => ?_) fun x hx => ?_⟩
    · have hneg : (fd : ℤ)<0 := hneg
      omega
    · rw [hstray',hstray] at hf
      cases hf
    · rw [hfirst hw] at hx
      cases hx
      exact ⟨fd,hsock,rfl,hmine'⟩
    · rw [hfirst hw] at hx
      exact hx
  · rw [hc]
    constructor
    · rw [← hret]
      constructor
      · intro h
        by_contra hneg
        obtain ⟨x,fd',-,-,-,hm,-⟩ := h.opened (not_lt.mp hneg)
        rw [hmine'] at hm
        cases hm
      · intro hneg
        refine ⟨fun hpos => absurd hneg (not_lt.mpr hpos),fun _ => hmine',fun f hf => ?_⟩
        rw [hstray',hstray] at hf
        cases hf
    · constructor
      · intro h x hx
        obtain ⟨fd',-,-,hm⟩ := h x hx
        rw [hmine'] at hm
        cases hm
      · intro h x hx
        have hxr := h x hx
        cases hxr
        rw [List.find?_some hx] at hw
        cases hw

/-- No address has a descriptor: errno is negated twice. -/
theorem udp_none (hopen : l.find? opens=none) :
    ¬Right udpSteps isInet 136 l (dpudpClientLoop (zeros 272) l) ∧ Used udpSteps isInet l (dpudpClientLoop (zeros 272) l) ∧
      l.find? (works udpSteps isInet)=none := by
  have hspec := @tryAll_spec {} (fun _ => []) 136 (zeros 272) l rfl
  rw [works_nil,hopen] at hspec
  obtain ⟨w,hrun,hmine,-⟩ := hspec
  have hnone : l.find? (works udpSteps isInet)=none := by
    rw [List.find?_eq_none] at hopen ⊢
    exact fun x hx hw => hopen x hx (works_opens udpSteps isInet x hw)
  have hfam : family (seg (zeros 272) 136 138)=0 := by decide
  refine ⟨fun h => ?_,fun x hx => ?_,hnone⟩
  · unfold dpudpClientLoop at h
    rw [hrun,hopen] at h
    simp only [dpudpClientConnect,hfam,if_neg (show ¬(0=afInet ∨ 0=afInet6) by decide)] at h
    obtain ⟨x,fd,hx,-⟩ := h.opened (show (0 : ℤ)≤ -dpeInval by decide)
    rw [hnone] at hx
    cases hx
  · rw [hnone] at hx
    cases hx

theorem udp_right (l : List Addrinfo) : (Right udpSteps isInet 136 l (dpudpClientLoop (zeros 272) l) ↔
      ∃ rp,l.find? opens=some rp ∧ isInet rp=true) ∧
    (Used udpSteps isInet l (dpudpClientLoop (zeros 272) l) ↔
      ∀ x,l.find? (works udpSteps isInet)=some x → l.find? opens=some x) := by
  cases hopen : l.find? opens with
  | none =>
    obtain ⟨hno,hused,hnone⟩ := udp_none hopen
    refine ⟨iff_of_false hno ?_,iff_of_true hused fun x hx => ?_⟩
    · rintro ⟨rp,hrp,-⟩
      cases hrp
    · rw [hnone] at hx
      cases hx
  | some rp =>
    obtain ⟨hright,hused⟩ := udp_found hopen
    rw [hopen] at hused
    refine ⟨hright.trans ⟨fun h => ⟨rp,rfl,h⟩,?_⟩,hused⟩
    rintro ⟨x,hx,h⟩
    cases hx
    exact h

end Udp

/-! ### Unix-domain sockets -/

section Uds
variable {a : Answers} {udsfile : List Byte} {steps : Addrinfo → List Step} {suits : Addrinfo → Bool} {l : List Addrinfo}
  {x : World × List Byte × ℤ}

/-- The address of such an element does not lie where dpskt_connect reads it. -/
theorem uds_right (haux : x.2.1.length=120) (hmine : x.2.2<0 → x.1.mine=[]) (hstray : x.1.stray=[]) :
    Right steps suits 0 l x ↔ x.2.2<0 := by
  constructor
  · intro h
    by_contra hneg
    obtain ⟨rp,fd,-,-,-,-,hget,-⟩ := h.opened (not_lt.mp hneg)
    unfold getSockaddr at hget
    rw [if_neg (by omega)] at hget
    cases hget
  · intro hneg
    refine ⟨fun hpos => absurd hneg (not_lt.mpr hpos),hmine,fun f hf => ?_⟩
    rw [hstray] at hf
    cases hf

theorem length_strncpy (s : List Byte) (n : ℕ) : (strncpy s n).length=n := by
  have hz : (zeros n).length=n := List.length_replicate
  rw [strncpy,List.length_take,List.length_append]
  omega

theorem length_dpudsReal : (dpudsReal (zeros 120)).length=120 := by decide

theorem length_dpudsAddr {aux : List Byte} (h : aux.length=120) : (dpudsAddr aux udsfile).length=120 := by
  have hpath := length_strncpy udsfile 107
  have h1 : (put aux 8 [1,0]).length=120 := (length_put (by simp only [List.length_cons,List.length_nil]; omega)).trans h
  refine (length_put ?_).trans h1
  rw [List.length_append,List.length_singleton]
  omega

theorem length_cleared : (put (dpudsReal (zeros 120)) 8 (zeros 110)).length=120 := by
  have hz : (zeros 110).length=110 := List.length_replicate
  have hreal := length_dpudsReal
  exact (length_put (by omega)).trans hreal

/-- SUN_LEN is taken of the address before the path is there: bind is given the family alone. -/
theorem bound_addr : seg (dpudsAddr (put (dpudsReal (zeros 120)) 8 (zeros 110)) udsfile) 8
    (8+ofWord (seg (dpudsAddr (put (dpudsReal (zeros 120)) 8 (zeros 110)) udsfile) 0 4))=[1,0] := by
  have hpath : (strncpy udsfile 107++[0]).length=108 := by rw [List.length_append,length_strncpy,List.length_singleton]
  have hz : (zeros 110).length=110 := List.length_replicate
  have hcleared := length_cleared
  have hreal := length_dpudsReal
  have htwo : ([1,0] : List Byte).length=2 := rfl
  have hfam : (put (put (dpudsReal (zeros 120)) 8 (zeros 110)) 8 [1,0]).length=120 := (length_put (by omega)).trans hcleared
  have hword : seg (dpudsReal (zeros 120)) 0 4=[2,0,0,0] := by decide
  have hsize : seg (dpudsAddr (put (dpudsReal (zeros 120)) 8 (zeros 110)) udsfile) 0 4=[2,0,0,0] := by
    unfold dpudsAddr
    rw [seg_put_off (by omega) (.inl (by omega)),seg_put_off (by omega) (.inl (by omega)),
      seg_put_off (by omega) (.inl (by omega)),hword]
  have hlen : 8+ofWord [2,0,0,0]=10 := by decide
  rw [hsize,hlen]
  unfold dpudsAddr
  rw [seg_put_off (by omega) (.inl le_rfl)]
  exact seg_put_self (x := ([1,0] : List Byte)) (by omega)

theorem socket_error {w : World} {e : Errno} (h : a.sock=.error e) : w.socket a=({w with errno := e.1},-1) := by
  unfold World.socket
  rw [h]

theorem socket_ok {w : World} {fd : ℕ} (h : a.sock=.ok fd) : w.socket a=({w with mine := (fd : ℤ)::w.mine},(fd : ℤ)) := by
  unfold World.socket
  rw [h]

/-- Without a descriptor nothing works. -/
theorem not_works {rp : Addrinfo} {e : Errno} (h : rp.sock=.error e) : works steps suits rp=false := by
  unfold works opens
  rw [h,Bool.false_and,Bool.false_and]

theorem unix_client (udsfile : Option (List Byte)) (a : Answers) :
    (Opener.right (.udsClient udsfile a) ↔ Opener.holds (.udsClient udsfile a)) ∧ Opener.used (.udsClient udsfile a) := by
  cases udsfile with
  | none =>
    refine ⟨iff_of_true ?_ (.inl rfl),fun x hx => (by cases hx)⟩
    exact (uds_right (x := (({} : World),zeros 120,dpeInval)) (by decide) (fun _ => rfl) rfl).mpr (by decide)
  | some f =>
    cases hsock : a.sock with
    | error e =>
      have he := e.2
      have hrun : Opener.run (.udsClient (some f) a)=({errno := e.1},zeros 120,-(e.1 : ℤ)) := by
        simp only [Opener.run,dpudsClientVopen,socket_error hsock,if_pos (show (-1 : ℤ)<0 by decide)]
      unfold Opener.right Opener.used
      rw [hrun]
      refine ⟨iff_of_true ?_ (.inr ⟨e,hsock⟩),fun rp hrp => ?_⟩
      · exact (uds_right (List.length_replicate) (fun _ => rfl) rfl).mpr (show -(e.1 : ℤ)<0 by omega)
      · have hw := List.find?_some hrp
        cases List.mem_singleton.mp (List.mem_of_find?_eq_some hrp)
        rw [not_works (show (unixInfo f a).sock=.error e from hsock)] at hw
        cases hw
    | ok fd =>
      have hpos : ¬(fd : ℤ)<0 := by omega
      have hrun : Opener.run (.udsClient (some f) a)=({mine := [(fd : ℤ)]},dpudsAddr (dpudsReal (zeros 120)) f,(fd : ℤ)) := by
        simp only [Opener.run,dpudsClientVopen,socket_ok hsock,if_neg hpos]
      unfold Opener.right Opener.used
      rw [hrun]
      refine ⟨iff_of_false (fun h => ?_) ?_,fun rp hrp => ?_⟩
      · exact hpos ((uds_right (length_dpudsAddr length_dpudsReal) (fun hneg => absurd hneg hpos) rfl).mp h)
      · rintro (hnone | ⟨e,he⟩)
        · cases hnone
        · rw [hsock] at he
          cases he
      · cases List.mem_singleton.mp (List.mem_of_find?_eq_some hrp)
        exact ⟨fd,hsock,rfl,rfl⟩

theorem listen_fails : [Step.bind [1,0],.listen 100].all (fun s => (a.fails s).isNone)=false ↔
    (a.fails (.bind [1,0])).isSome=true ∨ (a.fails (.listen 100)).isSome=true := by
  simp only [List.all_cons,List.all_nil,Bool.and_true]
  cases a.fails (.bind [1,0]) <;> cases a.fails (.listen 100) <;> simp

theorem unix_listen (udsfile : Option (List Byte)) (a : Answers) :
    (Opener.right (.udsListen udsfile a) ↔ Opener.holds (.udsListen udsfile a)) ∧
      (Opener.used (.udsListen udsfile a) ↔ Opener.first (.udsListen udsfile a)) := by
  cases udsfile with
  | none =>
    refine ⟨iff_of_true ?_ (.inl rfl),iff_of_true (fun x hx => (by cases hx)) fun f hf => (by cases hf)⟩
    exact (uds_right (x := (({} : World),zeros 120,dpeInval)) (by decide) (fun _ => rfl) rfl).mpr (by decide)
  | some f =>
    cases hsock : a.sock with
    | error e =>
      have he := e.2
      have hrun : Opener.run (.udsListen (some f) a)=({errno := e.1},zeros 120,-(e.1 : ℤ)) := by
        simp only [Opener.run,dpudsListenVopen,socket_error hsock,if_pos (show (-1 : ℤ)<0 by decide)]
      have hno {steps : Addrinfo → List Step} {suits : Addrinfo → Bool} : works steps suits (unixInfo f a)=false :=
        not_works (show (unixInfo f a).sock=.error e from hsock)
      unfold Opener.right Opener.used
      rw [hrun]
      refine ⟨iff_of_true ?_ (.inr (.inl ⟨e,hsock⟩)),iff_of_true (fun rp hrp => ?_) fun f' hf hw => ?_⟩
      · exact (uds_right (List.length_replicate) (fun _ => rfl) rfl).mpr (show -(e.1 : ℤ)<0 by omega)
      · have hw := List.find?_some hrp
        cases List.mem_singleton.mp (List.mem_of_find?_eq_some hrp)
        rw [hno] at hw
        cases hw
      · cases hf
        rw [hno] at hw
        cases hw
    | ok fd =>
      have hpos : ¬(fd : ℤ)<0 := by omega
      rcases performs_cases {mine := [(fd : ℤ)]} a fd [.bind [1,0],.listen 100] with ⟨hok,hp⟩ | ⟨hsome,w,hp,hmine,hstray,herrno⟩
      · have hrun : Opener.run (.udsListen (some f) a)=
            ({mine := [(fd : ℤ)], conf := [((fd : ℤ),.bind [1,0]),((fd : ℤ),.listen 100)]},
              dpudsAddr (put (dpudsReal (zeros 120)) 8 (zeros 110)) f,(fd : ℤ)) := by
          simp only [Opener.run,dpudsListenVopen,socket_ok hsock,if_neg hpos,bound_addr,hp]
          rfl
        have hfine : ¬((a.fails (.bind [1,0])).isSome=true ∨ (a.fails (.listen 100)).isSome=true) := fun h => by
          rw [listen_fails.mpr h] at hok
          cases hok
        unfold Opener.right Opener.used
        rw [hrun]
        refine ⟨iff_of_false (fun h => ?_) ?_,iff_of_true (fun rp hrp => ?_) fun _ _ _ => ?_⟩
        · exact hpos ((uds_right (length_dpudsAddr length_cleared) (fun hneg => absurd hneg hpos) rfl).mp h)
        · rintro (hnone | ⟨e,he⟩ | hfail)
          · cases hnone
          · rw [hsock] at he
            cases he
          · exact hfine hfail
        · cases List.mem_singleton.mp (List.mem_of_find?_eq_some hrp)
          exact ⟨fd,hsock,rfl,rfl⟩
        · exact Option.not_isSome_iff_eq_none.mp fun h => hfine (.inl h)
      · have hrun : Opener.run (.udsListen (some f) a)=
            (w.close a fd,dpudsAddr (put (dpudsReal (zeros 120)) 8 (zeros 110)) f,-(w.close a fd).errno) := by
          simp only [Opener.run,dpudsListenVopen,socket_ok hsock,if_neg hpos,bound_addr,hp]
        obtain ⟨hclosed,hsame,herr⟩ := close_own (a := a) hmine
        have herr := herr herrno
        unfold Opener.right Opener.used
        rw [hrun]
        refine ⟨iff_of_true ?_ (.inr (.inr (listen_fails.mp hsome))),?_⟩
        · exact (uds_right (length_dpudsAddr length_cleared) (fun _ => hclosed) (hsame.trans hstray)).mpr
            (show -(w.close a fd).errno<0 by omega)
        · constructor
          · intro h f' hf hw
            cases hf
            have hfind : [unixInfo f a].find? (works (Opener.udsListen (some f) a).steps fun _ => true)=some (unixInfo f a) := by
              rw [List.find?_cons,hw]
            obtain ⟨fd',-,-,hm⟩ := h (unixInfo f a) hfind
            rw [hclosed] at hm
            cases hm
          · intro h rp hrp
            have hw := List.find?_some hrp
            cases List.mem_singleton.mp (List.mem_of_find?_eq_some hrp)
            have hbind := h f rfl hw
            have hall : (Opener.steps (.udsListen (some f) a) (unixInfo f a)).all
                (fun s => (a.fails s).isNone)=true := (Bool.and_eq_true_iff.mp hw).2
            have hlisten := List.all_eq_true.mp hall (.listen 100) (List.mem_cons_of_mem _ (List.mem_singleton_self _))
            rcases listen_fails.mp hsome with hb | hl
            · rw [hbind] at hb
              cases hb
            · rw [Option.isNone_iff_eq_none.mp hlisten] at hl
              cases hl

end Uds

/-! ### What an opener leaves when it fails -/

/-- A negative result leaves no descriptor open, and no descriptor but the own ones is closed. -/
structure Kept (x : World × List Byte × ℤ) : Prop where
  failed : x.2.2<0 → x.1.mine=[]
  closes : ∀ f∈ x.1.stray,f<0

theorem kept_tryAll (steps : Addrinfo → List Step) (off : ℕ) (aux : List Byte) (l : List Addrinfo) :
    Kept (tryAll steps off {} aux l) := by
  have hspec := @tryAll_spec {} steps off aux l rfl
  cases hfind : l.find? (works steps fun _ => true) with
  | none =>
    rw [hfind] at hspec
    obtain ⟨w,hrun,hmine,hstray⟩ := hspec
    rw [hrun]
    refine ⟨fun _ => hmine,fun f hf => ?_⟩
    rw [hstray] at hf
    cases hf
  | some rp =>
    rw [hfind] at hspec
    obtain ⟨w,fd,hrun,-,-,hstray,-⟩ := hspec
    rw [hrun]
    refine ⟨fun hneg => absurd hneg (show ¬(fd : ℤ)<0 by omega),fun f hf => ?_⟩
    rw [hstray] at hf
    cases hf

theorem kept_udp (l : List Addrinfo) : Kept (dpudpClientLoop (zeros 272) l) := by
  have hspec := @tryAll_spec {} (fun _ => []) 136 (zeros 272) l rfl
  rw [works_nil] at hspec
  unfold dpudpClientLoop
  cases hopen : l.find? opens with
  | none =>
    rw [hopen] at hspec
    obtain ⟨w,hrun,hmine,hstray⟩ := hspec
    have hfam : family (seg (zeros 272) 136 138)=0 := by decide
    have hout : (-1 : ℤ)∉ w.mine := by
      rw [hmine]
      exact List.not_mem_nil
    rw [hrun]
    simp only [dpudpClientConnect,hfam,if_neg (show ¬(0=afInet ∨ 0=afInet6) by decide),World.close,if_neg hout,noAnswers,hstray]
    refine ⟨fun _ => hmine,fun f hf => ?_⟩
    cases List.mem_singleton.mp hf
    decide
  | some rp =>
    rw [hopen] at hspec
    obtain ⟨w,fd,hrun,hsock,hmine,hstray,-⟩ := hspec
    have hsize : (zeros 272).length=272 := List.length_replicate
    have hlen := (@length_putSockaddr (zeros 272) 136 _ rp.fits.2 (by omega)).trans hsize
    have hpeer := @getSockaddr_put 136 (zeros 272) _ rp.fits.2 (by omega)
    rw [hrun]
    simp only
    rcases connect_spec hmine hlen hpeer hsock with ⟨-,w',aux',hc,-,hstray',-⟩ | ⟨-,w',aux',ret,hc,hmine',hstray',-⟩
    · rw [hc]
      refine ⟨fun hneg => absurd hneg (show ¬(fd : ℤ)<0 by omega),fun f hf => ?_⟩
      rw [hstray',hstray] at hf
      cases hf
    · rw [hc]
      refine ⟨fun _ => hmine',fun f hf => ?_⟩
      rw [hstray',hstray] at hf
      cases hf

theorem kept_resolve {size : ℕ} {loop : List Byte → List Addrinfo → World × List Byte × ℤ}
    (hloop : ∀ l,Kept (loop (zeros size) l)) (host : Option String) (port : ℤ) (result : Resolved) :
    Kept (resolveVopen size loop host port result) := by
  have hnothing (r : ℤ) : Kept (({} : World),zeros size,r) := ⟨fun _ => rfl,fun f hf => (by cases hf)⟩
  unfold resolveVopen
  by_cases hbad : badArgs host port
  · rw [if_pos hbad]
    exact hnothing _
  · rw [if_neg hbad]
    cases result with
    | err r => exact hnothing _
    | ok l => exact hloop l

theorem kept_unix (udsfile : Option (List Byte)) (a : Answers) :
    Kept (dpudsClientVopen udsfile a) ∧ Kept (dpudsListenVopen udsfile a) := by
  cases udsfile with
  | none => exact ⟨⟨fun _ => rfl,fun f hf => (by cases hf)⟩,⟨fun _ => rfl,fun f hf => (by cases hf)⟩⟩
  | some file =>
    cases hsock : a.sock with
    | error e =>
      simp only [dpudsClientVopen,dpudsListenVopen,socket_error hsock,if_pos (show (-1 : ℤ)<0 by decide)]
      exact ⟨⟨fun _ => rfl,fun f hf => (by cases hf)⟩,⟨fun _ => rfl,fun f hf => (by cases hf)⟩⟩
    | ok fd =>
      have hpos : ¬(fd : ℤ)<0 := by omega
      simp only [dpudsClientVopen,dpudsListenVopen,socket_ok hsock,if_neg hpos,bound_addr]
      refine ⟨⟨fun hneg => absurd hneg hpos,fun f hf => (by cases hf)⟩,?_⟩
      rcases performs_cases {mine := [(fd : ℤ)]} a fd [.bind [1,0],.listen 100] with ⟨-,hp⟩ | ⟨-,w,hp,hmine,hstray,-⟩
      · rw [hp]
        exact ⟨fun hneg => absurd hneg hpos,fun f hf => (by cases hf)⟩
      · rw [hp]
        obtain ⟨hclosed,hsame,-⟩ := close_own (a := a) hmine
        refine ⟨fun _ => hclosed,fun f hf => ?_⟩
        rw [hsame,hstray] at hf
        cases hf

theorem kept (o : Opener) : Kept o.run := by
  cases o with
  | tcpClient host port result => exact kept_resolve (fun l => kept_tryAll _ 0 _ l) host port result
  | tcpListen host port backlog result => exact kept_resolve (fun l => kept_tryAll _ 0 _ l) host port result
  | udpServer host port result => exact kept_resolve (fun l => kept_tryAll _ 0 _ l) host port result
  | udpClient host port result => exact kept_resolve kept_udp host port result
  | udsClient udsfile a => exact (kept_unix udsfile a).1
  | udsListen udsfile a => exact (kept_unix udsfile a).2

/-- The openers that try the addresses one after the other. -/
theorem right_openers (steps : Addrinfo → List Step) (host : Option String) (port : ℤ) (result : Resolved) :
    (Right steps (fun _ => true) 0 (resolved host port result) (resolveVopen 136 (tryAll steps 0 {}) host port result) ↔
      positive host port result) ∧
    Used steps (fun _ => true) (resolved host port result) (resolveVopen 136 (tryAll steps 0 {}) host port result) := by
  have hsize : 0+132≤(zeros 136).length := by
    rw [zeros,List.length_replicate]
    decide
  constructor
  · rw [right_resolve (P := fun _ => True) fun l => iff_of_true (right_tryAll hsize).1 trivial]
    exact and_iff_left fun _ _ => .inr trivial
  · exact (used_resolve (P := fun _ => True) trivial fun l => iff_of_true (right_tryAll hsize).2 trivial).mpr trivial

theorem open_right (o : Opener) : (o.right ↔ o.holds) ∧ (o.used ↔ o.first) := by
  cases o with
  | tcpClient host port result =>
    obtain ⟨hright,hused⟩ := right_openers (fun _ => [.nodelay]) host port result
    exact ⟨hright,iff_of_true hused trivial⟩
  | tcpListen host port backlog result =>
    obtain ⟨hright,hused⟩ := right_openers (Opener.tcpListen host port backlog result).steps host port result
    exact ⟨hright,iff_of_true hused trivial⟩
  | udpServer host port result =>
    obtain ⟨hright,hused⟩ := right_openers (Opener.udpServer host port result).steps host port result
    exact ⟨hright,iff_of_true hused trivial⟩
  | udpClient host port result =>
    exact ⟨right_resolve fun l => (udp_right l).1,used_resolve (fun x hx => (by cases hx)) fun l => (udp_right l).2⟩
  | udsClient udsfile a =>
    obtain ⟨hright,hused⟩ := unix_client udsfile a
    exact ⟨hright,iff_of_true hused trivial⟩
  | udsListen udsfile a => exact unix_listen udsfile a

/-- getaddrinfo fails with EAI_NONAME, which is negative. -/
theorem open_right_unknown : ¬∀ o : Opener,o.right := by
  intro h
  have hright := h (.tcpClient (some "nowhere") 80 (.err ⟨-2,by decide⟩))
  obtain ⟨rp,fd,hfind,-⟩ := hright.opened (show (0 : ℤ)≤ -(-2) by decide)
  cases hfind

end Dpapp.SocketOpen
