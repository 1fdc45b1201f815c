import Dpapp.QicSend
import Dpapp.Ret

/-! # Receiving QUIC packets in batches (dpqic.c, os/linux/dpudp_pri.c) -/

namespace Dpapp.QicRecv
open Dpapp.Segment Dpapp.Cmsg Dpapp.Ret
open Dpapp.Dpbuf (Byte intMax)
open Dpapp.QicSend (maxPacketCount ctlSize afInet)

def dpeUnknown : Dpret := -150
def mtuSize : ℕ := 2048
def storageSize : ℕ := 128

/-! ### Control messages -/

/-- The control messages that the socket options of dpqic_server_setopt and dpqic_client_setopt ask for. -/
inductive Anc
  | origdst (sa : Fin 16 → Byte)
  | pktinfo6 (addr : Fin 16 → Byte) (ifindex : ℕ)
  | rxqOvfl (n : ℕ)
  | tos (v : Byte)
  | tclass (v : ℕ)

/- IP_ORIGDSTADDR, IPV6_PKTINFO, SO_RXQ_OVFL, IP_TOS, IPV6_TCLASS -/
def Anc.msg : Anc → Msg
  | origdst sa => ⟨0,20,List.ofFn sa⟩
  | pktinfo6 addr i => ⟨41,50,List.ofFn addr++little 4 i⟩
  | rxqOvfl n => ⟨1,40,little 4 n⟩
  | tos v => ⟨0,1,[v]⟩
  | tclass v => ⟨41,67,little 4 v⟩

structure Parsed where
  loc : List Byte
  dropped : ℕ
  ecn : ℕ

/-- The body of the loop in _parse_contorl_msg; sin6_addr lies eight bytes into a sockaddr_in6. -/
def parseOne (p : Parsed) (h : Header) : Parsed :=
  if h.level=0 ∧ h.type=20 then {p with loc := put p.loc 0 (h.rest.take 16)}
  else if h.level=41 ∧ h.type=50 then {p with loc := put p.loc 8 (h.rest.take 16)}
  else if h.level=1 ∧ h.type=40 then {p with dropped := value (h.rest.take 4)}
  else if (h.level=0 ∧ h.type=1) ∨ (h.level=41 ∧ h.type=67) then
    {p with ecn := value (h.rest.take (if 16≤ h.len ∧ h.len-16<4 then h.len-16 else 4))%4}
  else p

def parseContorlMsg (ctl : List Byte) (controllen : ℕ) (p : Parsed) : Parsed := (headers ctl controllen).foldl parseOne p

/-- What a message says: the address that the datagram came to, or its ECN value. -/
def Anc.apply (p : Parsed) : Anc → Parsed
  | origdst sa => {p with loc := put p.loc 0 (List.ofFn sa)}
  | pktinfo6 addr _ => {p with loc := put p.loc 8 (List.ofFn addr)}
  | rxqOvfl n => {p with dropped := n%2^32}
  | tos v => {p with ecn := v.toNat%4}
  | tclass v => {p with ecn := v%4}

theorem parseOne_msg (a : Anc) (p : Parsed) (z : List Byte) :
    parseOne p ⟨a.msg.level,a.msg.type,a.msg.len,a.msg.data++a.msg.pad++z⟩=a.apply p := by
  have htake : ∀ {x : List Byte} {n : ℕ} (y : List Byte),x.length=n → (x++y).take n=x := fun y h => by
    rw [← h,List.take_left]
  cases a with
  | origdst sa => simp [parseOne,Anc.msg,Anc.apply]
  | pktinfo6 addr i => simp [parseOne,Anc.msg,Anc.apply]
  | rxqOvfl n => simp [parseOne,Anc.msg,Anc.apply,htake,value_little]
  | tos v => simp [parseOne,Anc.msg,Anc.apply,Msg.len,value]
  | tclass v =>
      have hmod : v%4294967296%4=v%4 := Nat.mod_mod_of_dvd v (by decide)
      simp [parseOne,Anc.msg,Anc.apply,Msg.len,htake,value_little,hmod]

theorem msg_valid (a : Anc) : a.msg.Valid := by
  cases a <;> exact ⟨by simp [Anc.msg],by simp [Anc.msg],by simp [Anc.msg,Msg.len]⟩

/-- _parse_contorl_msg reads what the messages say. -/
theorem parse_encode (l : List Anc) (p : Parsed) (z : List Byte) :
    parseContorlMsg (encodeAll (l.map Anc.msg)++z) (encodeAll (l.map Anc.msg)).length p=l.foldl Anc.apply p := by
  have hvalid : ∀ m∈l.map Anc.msg,m.Valid := fun m hm => by
    obtain ⟨a,_,rfl⟩ := List.mem_map.1 hm
    exact msg_valid a
  rw [parseContorlMsg,headers_encode hvalid]
  clear hvalid
  induction l generalizing p with
  | nil => rfl
  | cons a l ih =>
      rw [List.map_cons,found,List.foldl_cons,List.foldl_cons,parseOne_msg]
      exact ih (a.apply p)

/-- The address and the ECN value do not depend on the number of dropped datagrams. -/
theorem apply_dropped (l : List Anc) {p q : Parsed} (h : p.loc=q.loc ∧ p.ecn=q.ecn) :
    (l.foldl Anc.apply p).loc=(l.foldl Anc.apply q).loc ∧ (l.foldl Anc.apply p).ecn=(l.foldl Anc.apply q).ecn := by
  induction l generalizing p q with
  | nil => exact h
  | cons a l ih =>
      apply ih
      cases a <;> simp [Anc.apply,h.1,h.2]

/-! ### recvmmsg -/

/-- sizeof(struct sockaddr_in) or sizeof(struct sockaddr_in6), after the family. -/
def saSize (sa : List Byte) : ℕ := if value (sa.take 2)=afInet then 16 else 28

/-- The address in a sockaddr_storage. -/
def saRead (storage : List Byte) : List Byte := storage.take (saSize storage)

/-- A datagram in the queue of the socket: its control data are no more than ctl_data holds. -/
structure Datagram where
  peer : List Byte
  control : List Anc
  data : List Byte
  whole : peer.length=saSize peer
  fits : (encodeAll (control.map Anc.msg)).length≤ ctlSize

/-- A msghdr of in_data and its in_storage. -/
structure Slot where
  iovLen : ℕ
  namelen : ℕ
  controllen : ℕ
  msgLen : ℕ
  ecn : ℕ
  peer : List Byte
  loc : List Byte
  ctl : List Byte
  data : List Byte

/-- _dpqic_reset_in_storage -/
def Slot.reset (i : Slot) : Slot :=
  {i with iovLen := mtuSize, ecn := 0, namelen := storageSize, controllen := ctlSize}

/-- The control data that the kernel writes: a message for which there is too little room is cut off. -/
def cut : ℕ → List Msg → List Byte
  | _,[] => []
  | room,m::l =>
      if room<16 then []
      else if m.len≤room then m.encode.take room++cut (room-m.space) l
      else little 8 room++little 4 m.level++little 4 m.type++m.data.take (room-16)

def deliver (d : Datagram) (i : Slot) : Slot :=
  let ctl := cut i.controllen (d.control.map Anc.msg)
  let data := d.data.take i.iovLen
  {i with
    namelen := d.peer.length
    controllen := ctl.length
    msgLen := data.length
    peer := put i.peer 0 (d.peer.take i.namelen)
    ctl := put i.ctl 0 ctl
    data := put i.data 0 data}

/-- A datagram with what lsquic_engine_packet_in returns for it. -/
abbrev Packet := Datagram × ℤ

/-- What a call of recvmmsg returns. -/
structure Batch where
  pkts : List Packet
  pos : pkts≠[]
  le : pkts.length≤ maxPacketCount

def recvmmsg (slots : ℕ → Slot) (b : List Packet) : ℕ → Slot := fun i => match b[i]? with
  | some x => deliver x.1 (slots i)
  | none => slots i

/-! ### _dpqic_cb_recv_packets -/

/-- A call: the QUIC element, the local address of its udp_efd, and what recvmmsg returns: batches, and then an errno, or 0. -/
structure Event (κ : Type*) where
  qele : κ
  loc : List Byte
  batches : List Batch
  errno : Option ℕ

/-- The arguments of lsquic_engine_packet_in. -/
structure Passed (κ : Type*) where
  qele : κ
  data : List Byte
  loc : List Byte
  peer : List Byte
  ecn : ℕ

/-- iov_len, msg_namelen and msg_controllen. -/
abbrev Lens := ℕ × ℕ × ℕ

/- History: `offers` are the lengths of the slots at each call of recvmmsg, `passed` the packets that the engine has got. -/
structure St (κ : Type*) where
  slots : ℕ → Slot
  count : ℕ := 0
  dropped : ℕ := 0
  ret : Dpret := dpeWait
  offers : List (List Lens) := []
  passed : List (Passed κ) := []

variable {κ : Type*}

def offer (slots : ℕ → Slot) : List Lens :=
  (List.range maxPacketCount).map fun i => ((slots i).iovLen,(slots i).namelen,(slots i).controllen)

/-- The call of packet_in for slot `n`, which is reset afterwards. -/
def St.pass (s : St κ) (e : Event κ) (n : ℕ) : St κ :=
  let i := s.slots n
  let p := parseContorlMsg i.ctl i.controllen ⟨e.loc,s.dropped,i.ecn⟩
  {s with
    dropped := p.dropped
    slots := Function.update s.slots n {i with loc := p.loc, ecn := p.ecn}.reset
    passed := s.passed++[⟨e.qele,i.data.take i.msgLen,p.loc,saRead i.peer,p.ecn⟩]}

/-- The inner loop, which ends at a packet that the engine rejects. -/
def inner (e : Event κ) : List Packet → ℕ → St κ → Option (St κ)
  | [],_,s => some s
  | (_,r)::l,n,s =>
      let s := s.pass e n
      if r<0 then some {s with ret := dpeUnknown}
      else if intMax≤(s.count : ℤ) then none
      else inner e l (n+1) {s with count := s.count+1}

def outer (e : Event κ) : List Batch → St κ → Option (St κ)
  | [],s => some {s with offers := s.offers++[offer s.slots], ret := e.errno.elim dpeWait fun c => -c}
  | b::l,s =>
      (inner e b.pkts 0 {s with offers := s.offers++[offer s.slots], slots := recvmmsg s.slots b.pkts}).bind (outer e l)

def recvPackets (e : Event κ) (s : St κ) : Option (St κ) := outer e e.batches {s with count := 0, dropped := 0, ret := dpeWait}

def run : List (Event κ) → St κ → Option (St κ)
  | [],s => some s
  | e::l,s => (recvPackets e s).bind (run l)

/-- dpqic_thrd_init -/
def thrdInit (raw : ℕ → Slot) : St κ := {slots := fun i => (raw i).reset}

/-! ### What the engine has to get -/

def own (e : Event κ) (d : Datagram) : Passed κ :=
  let p := d.control.foldl Anc.apply ⟨e.loc,0,0⟩
  ⟨e.qele,d.data.take mtuSize,p.loc,d.peer,p.ecn⟩

def received (e : Event κ) : List (Passed κ) := e.batches.flatMap fun b => b.pkts.map fun x => own e x.1

/-- Each datagram has been passed once, in order, and each call of recvmmsg has found all lengths restored. -/
structure Right (evs : List (Event κ)) (s : St κ) : Prop where
  passed : s.passed=evs.flatMap received
  restored : ∀ o∈s.offers,∀ x∈o,x=(mtuSize,storageSize,ctlSize)

/-- The engine rejects none but the last of a batch. -/
def Undisturbed (l : List Packet) : Prop := ∀ x∈l.dropLast,0≤x.2

def accepted (l : List Packet) : ℕ := l.countP fun x => 0≤x.2

def Event.accepted (e : Event κ) : ℕ := (e.batches.map fun b => QicRecv.accepted b.pkts).sum

/-- And the packets that it takes in one call can be counted in an int. -/
structure Event.Calm (e : Event κ) : Prop where
  undisturbed : ∀ b∈e.batches,Undisturbed b.pkts
  counted : e.accepted≤ intMax

/-! ### A slot -/

/-- What _dpqic_reset_in_storage leaves. -/
structure Ready (i : Slot) : Prop where
  lens : (i.iovLen,i.namelen,i.controllen)=(mtuSize,storageSize,ctlSize)
  ecn : i.ecn=0

theorem ready_reset (i : Slot) : Ready i.reset := ⟨rfl,rfl⟩

/-- Control data for which there is room are not cut off. -/
theorem cut_whole {l : List Msg} {room : ℕ} (h : (encodeAll l).length≤room) : cut room l=encodeAll l := by
  induction l generalizing room with
  | nil => rfl
  | cons m l ih =>
      have hpos := m.encode_pos
      have hspace := m.length_encode
      have hlen : m.len≤ m.space := le_align m.len
      rw [encodeAll_cons,List.length_append] at h
      rw [cut,if_neg (by omega),if_pos (by omega),List.take_of_length_le (by omega),ih (by omega),encodeAll_cons]

theorem read_put {d : Datagram} {storage : List Byte} : saRead (put storage 0 d.peer)=d.peer := by
  have hput : put storage 0 d.peer=d.peer++storage.drop d.peer.length := by simp [put]
  have hlen : 2≤d.peer.length := by
    rw [d.whole,saSize]
    split <;> decide
  have hsize : saSize (put storage 0 d.peer)=saSize d.peer := by
    rw [hput,saSize,saSize,List.take_append_of_le_length hlen]
  rw [saRead,hsize,hput,← d.whole,List.take_left]

theorem peer_le (d : Datagram) : d.peer.length≤ storageSize := by
  rw [d.whole,saSize]
  split <;> decide

variable {e : Event κ} {s : St κ} {n : ℕ} {d : Datagram} {i : Slot}

/-- A datagram that has come into a slot that was ready is passed on with what is its own. -/
theorem pass_own (hi : Ready i) (hs : s.slots n=deliver d i) : (s.pass e n).passed=s.passed++[own e d] := by
  obtain ⟨hiov,hname,hctl⟩ : i.iovLen=mtuSize ∧ i.namelen=storageSize ∧ i.controllen=ctlSize := by
    simpa using hi.lens
  have hcut : cut i.controllen (d.control.map Anc.msg)=encodeAll (d.control.map Anc.msg) := cut_whole (by rw [hctl]; exact d.fits)
  have hpeer : d.peer.take i.namelen=d.peer := List.take_of_length_le (by rw [hname]; exact peer_le d)
  have hput : ∀ x y : List Byte,put x 0 y=y++x.drop y.length := fun x y => by simp [put]
  have hparse : ∀ k,parseContorlMsg (deliver d i).ctl (deliver d i).controllen ⟨e.loc,k,(deliver d i).ecn⟩=
      d.control.foldl Anc.apply ⟨e.loc,k,0⟩ := fun k => by
    rw [← parse_encode d.control ⟨e.loc,k,0⟩ (i.ctl.drop (encodeAll (d.control.map Anc.msg)).length)]
    simp only [deliver,hcut,hput,hi.ecn]
  have hdata : (deliver d i).data.take (deliver d i).msgLen=d.data.take mtuSize := by
    simp only [deliver,hput,List.take_left,hiov]
  have hread : saRead (deliver d i).peer=d.peer := by
    simp only [deliver,hpeer,read_put]
  obtain ⟨hloc,hecn⟩ := apply_dropped d.control (p := ⟨e.loc,s.dropped,0⟩) (q := ⟨e.loc,0,0⟩) ⟨rfl,rfl⟩
  simp only [St.pass,hs,hparse,hdata,hread,own,hloc,hecn]

/-! ### A batch -/

/-- Slots n.. hold the packets that are left of the batch, and the others are ready. -/
structure Filled (l : List Packet) (n : ℕ) (slots : ℕ → Slot) : Prop where
  window : ∀ k (h : k<l.length),∃ i,Ready i ∧ slots (n+k)=deliver l[k].1 i
  others : ∀ j,j<n ∨ n+l.length≤j → Ready (slots j)

theorem filled_recvmmsg {slots : ℕ → Slot} {l : List Packet} (h : ∀ j,Ready (slots j)) : Filled l 0 (recvmmsg slots l) where
  window k hk := by
    refine ⟨slots k,h k,?_⟩
    rw [Nat.zero_add,recvmmsg,List.getElem?_eq_getElem hk]
  others j hj := by
    have hnone : l[j]?=none := List.getElem?_eq_none (by omega)
    rw [recvmmsg,hnone]
    exact h j

theorem filled_pass {x : Packet} {l : List Packet} (h : Filled (x::l) n s.slots) : Filled l (n+1) (s.pass e n).slots where
  window k hk := by
    obtain ⟨i,hi,hslot⟩ := h.window (k+1) (Nat.succ_lt_succ hk)
    refine ⟨i,hi,?_⟩
    have hne : n+1+k≠n := by omega
    have hpos : n+1+k=n+(k+1) := by omega
    simp only [St.pass,Function.update_of_ne hne]
    rw [hpos]
    exact hslot
  others j hj := by
    by_cases he : j=n
    · subst he
      simp only [St.pass,Function.update_self]
      exact ready_reset _
    · simp only [St.pass,Function.update_of_ne he]
      apply h.others
      rw [List.length_cons]
      omega

/-- The packets of a batch in which the engine rejects none but the last. -/
theorem inner_calm {l : List Packet} (hl : Undisturbed l) (h : Filled l n s.slots) (hc : (s.count : ℤ)≤ intMax) :
    (intMax<(s.count+accepted l : ℤ) → inner e l n s=none) ∧
      ((s.count+accepted l : ℤ)≤ intMax → ∃ t,inner e l n s=some t ∧ (∀ j,Ready (t.slots j)) ∧ t.offers=s.offers ∧
        t.passed=s.passed++l.map (fun x => own e x.1) ∧ t.count=s.count+accepted l) := by
  induction l generalizing n s with
  | nil =>
      have hnone : accepted []=0 := rfl
      refine ⟨fun hover => by rw [hnone] at hover; omega,fun _ => ⟨s,rfl,fun j => ?_,rfl,by simp,rfl⟩⟩
      apply h.others
      simp only [List.length_nil]
      omega
  | cons x l ih =>
      obtain ⟨d,r⟩ := x
      obtain ⟨i,hi,hslot⟩ := h.window 0 (Nat.zero_lt_succ _)
      have hpass : (s.pass e n).passed=s.passed++[own e d] := pass_own hi hslot
      have hfill := filled_pass (e := e) h
      rw [inner]
      by_cases hr : r<0
      · -- it is the last of its batch
        have hlast : l=[] := by
          by_contra hne
          have hmem : (d,r)∈((d,r)::l).dropLast := by
            rw [List.dropLast_cons_of_ne_nil hne]
            exact List.mem_cons_self
          have := hl _ hmem
          omega
        subst hlast
        have hnone : accepted [(d,r)]=0 := by simp [accepted,hr]
        simp only [if_pos hr,hnone]
        refine ⟨fun hover => by push_cast at hover; omega,fun _ => ⟨_,rfl,fun j => ?_,rfl,hpass,rfl⟩⟩
        apply hfill.others
        simp only [List.length_nil]
        omega
      · have hsome : accepted ((d,r)::l)=accepted l+1 := by
          rw [accepted,List.countP_cons_of_pos (by simpa using hr),accepted]
        have hrest : Undisturbed l := fun y hy => by
          have hne : l≠[] := by
            rintro rfl
            simp at hy
          exact hl y (by rw [List.dropLast_cons_of_ne_nil hne]; exact List.mem_cons_of_mem _ hy)
        have hcount : (s.pass e n).count=s.count := rfl
        simp only [if_neg hr,hcount]
        by_cases hfull : intMax≤(s.count : ℤ)
        · simp only [if_pos hfull]
          refine ⟨fun _ => trivial,fun hle => ?_⟩
          rw [hsome] at hle
          push_cast at hle
          omega
        · simp only [if_neg hfull]
          obtain ⟨hover,hgo⟩ := ih (s := {s.pass e n with count := s.count+1}) hrest hfill (by push_cast; omega)
          rw [hsome]
          push_cast at hover hgo ⊢
          refine ⟨fun hlt => hover (by omega),fun hle => ?_⟩
          obtain ⟨t,ht,hready,hoffers,hpassed,hcount'⟩ := hgo (by omega)
          refine ⟨t,ht,hready,hoffers,?_,by rw [hcount']; omega⟩
          rw [hpassed,hpass,List.map_cons,List.append_assoc]
          rfl

/-! ### A call -/

def Restored (s : St κ) : Prop := ∀ o∈s.offers,∀ x∈o,x=(mtuSize,storageSize,ctlSize)

theorem offer_ready {slots : ℕ → Slot} (h : ∀ j,Ready (slots j)) (hs : Restored s) :
    ∀ o∈s.offers++[offer slots],∀ x∈o,x=(mtuSize,storageSize,ctlSize) := by
  intro o ho x hx
  rcases List.mem_append.1 ho with ho | ho
  · exact hs o ho x hx
  · rw [List.mem_singleton.1 ho] at hx
    obtain ⟨j,_,rfl⟩ := List.mem_map.1 hx
    exact (h j).lens

def taken (l : List Batch) : ℕ := (l.map fun b => accepted b.pkts).sum

/-- The batches of a call, when each ends undisturbed. -/
theorem outer_calm {l : List Batch} (hl : ∀ b∈l,Undisturbed b.pkts) (h : ∀ j,Ready (s.slots j)) (hs : Restored s)
    (hc : (s.count : ℤ)≤ intMax) :
    (intMax<(s.count+taken l : ℤ) → outer e l s=none) ∧
      ((s.count+taken l : ℤ)≤ intMax → ∃ t,outer e l s=some t ∧ (∀ j,Ready (t.slots j)) ∧ Restored t ∧
        t.passed=s.passed++l.flatMap fun b => b.pkts.map fun x => own e x.1) := by
  induction l generalizing s with
  | nil =>
      have hnone : taken []=0 := rfl
      refine ⟨fun hover => by rw [hnone] at hover; omega,fun _ => ⟨_,rfl,h,offer_ready h hs,?_⟩⟩
      rw [List.flatMap_nil,List.append_nil]
  | cons b l ih =>
      have hsum : taken (b::l)=accepted b.pkts+taken l := by simp [taken]
      obtain ⟨hover,hgo⟩ := inner_calm (e := e) (n := 0)
        (s := {s with offers := s.offers++[offer s.slots], slots := recvmmsg s.slots b.pkts})
        (hl b List.mem_cons_self) (filled_recvmmsg h) hc
      dsimp only at hover hgo
      rw [outer,hsum]
      push_cast
      by_cases hb : intMax<(s.count+accepted b.pkts : ℤ)
      · rw [hover hb]
        exact ⟨fun _ => rfl,fun hle => by omega⟩
      · obtain ⟨t,ht,hready,hoffers,hpassed,hcount⟩ := hgo (by omega)
        have hrest : Restored t := by
          unfold Restored
          rw [hoffers]
          exact offer_ready h hs
        have hcount' : (t.count : ℤ)=s.count+accepted b.pkts := by rw [hcount]; push_cast; rfl
        obtain ⟨hover',hgo'⟩ := ih (fun c hc => hl c (List.mem_cons_of_mem b hc)) hready hrest (by omega)
        rw [ht,Option.bind_some]
        refine ⟨fun hlt => hover' (by omega),fun hle => ?_⟩
        obtain ⟨u,hu,hready',hrest',hpassed'⟩ := hgo' (by omega)
        refine ⟨u,hu,hready',hrest',?_⟩
        rw [hpassed',hpassed,List.append_assoc,List.flatMap_cons]

/-- A run whose batches end undisturbed: it gets to its end unless a call takes more packets than an int can count, and
then all is right. -/
theorem run_calm {evs : List (Event κ)} (hl : ∀ e∈evs,∀ b∈e.batches,Undisturbed b.pkts) (h : ∀ j,Ready (s.slots j))
    (hs : Restored s) :
    ((∀ e∈evs,(e.accepted : ℤ)≤ intMax) → ∃ t,run evs s=some t ∧ Restored t ∧ t.passed=s.passed++evs.flatMap received) ∧
      ((∃ e∈evs,intMax<(e.accepted : ℤ)) → run evs s=none) := by
  induction evs generalizing s with
  | nil => exact ⟨fun _ => ⟨s,rfl,hs,by simp⟩,fun hex => by simp at hex⟩
  | cons e evs ih =>
      obtain ⟨hover,hgo⟩ := outer_calm (e := e) (s := {s with count := 0, dropped := 0, ret := dpeWait})
        (hl e List.mem_cons_self) h hs (show ((0 : ℕ) : ℤ)≤ intMax from by decide)
      have htaken : ((0 : ℕ)+taken e.batches : ℤ)=e.accepted := by rw [Nat.cast_zero,zero_add]; rfl
      simp only [htaken] at hover hgo
      rw [run,recvPackets]
      have hrest : ∀ a∈evs,∀ b∈a.batches,Undisturbed b.pkts := fun a ha => hl a (List.mem_cons_of_mem e ha)
      refine ⟨fun hle => ?_,fun hex => ?_⟩
      · obtain ⟨t,ht,hready,hrest',hpassed⟩ := hgo (hle e List.mem_cons_self)
        obtain ⟨u,hu,hrest'',hpassed'⟩ := (ih hrest hready hrest').1 fun a ha => hle a (List.mem_cons_of_mem e ha)
        refine ⟨u,by rw [ht]; exact hu,hrest'',?_⟩
        rw [hpassed',hpassed,List.append_assoc,List.flatMap_cons,received]
      · by_cases he : intMax<(e.accepted : ℤ)
        · rw [hover he]
          rfl
        · obtain ⟨t,ht,hready,hrest',hpassed⟩ := hgo (by omega)
          rw [ht]
          apply (ih hrest hready hrest').2
          obtain ⟨a,ha,hover'⟩ := hex
          rcases List.mem_cons.1 ha with rfl | ha
          · exact absurd hover' he
          · exact ⟨a,ha,hover'⟩

/-! ### A batch that is disturbed -/

/-- The packets of a batch that get to the engine. -/
def reach : List Packet → ℕ
  | [] => 0
  | x::l => if x.2<0 then 1 else reach l+1

theorem reach_le (l : List Packet) : reach l≤l.length := by
  induction l with
  | nil => exact Nat.le_refl 0
  | cons x l ih =>
      rw [reach,List.length_cons]
      split <;> omega

theorem reach_all {l : List Packet} (h : reach l=l.length) : Undisturbed l := by
  induction l with
  | nil =>
      intro x hx
      simp at hx
  | cons x l ih =>
      intro y hy
      by_cases hne : l=[]
      · subst hne
        simp at hy
      · have hpos := List.length_pos_iff.2 hne
        rw [List.dropLast_cons_of_ne_nil hne] at hy
        rw [reach,List.length_cons] at h
        split at h
        · omega
        · rename_i hx
          rcases List.mem_cons.1 hy with rfl | hy
          · exact Int.not_lt.1 hx
          · exact ih (Nat.succ.inj h) y hy

theorem inner_length {l : List Packet} {t : St κ} (h : inner e l n s=some t) :
    t.passed.length=s.passed.length+reach l := by
  induction l generalizing n s with
  | nil =>
      cases h
      rfl
  | cons x l ih =>
      obtain ⟨d,r⟩ := x
      have hpass : (s.pass e n).passed.length=s.passed.length+1 := by simp [St.pass]
      rw [inner] at h
      split at h
      · rename_i hr
        cases h
        rw [reach,if_pos hr]
        exact hpass
      · rename_i hr
        split at h
        · exact absurd h (by simp)
        · rw [ih h,reach,if_neg hr,hpass]
          omega

def reached (l : List Batch) : ℕ := (l.map fun b => reach b.pkts).sum

theorem outer_length {l : List Batch} {t : St κ} (h : outer e l s=some t) : t.passed.length=s.passed.length+reached l := by
  induction l generalizing s with
  | nil =>
      cases h
      rfl
  | cons b l ih =>
      rw [outer] at h
      obtain ⟨u,hu,ht⟩ := Option.bind_eq_some_iff.1 h
      rw [ih ht,inner_length hu,reached,reached,List.map_cons,List.sum_cons,Nat.add_assoc]

theorem run_length {evs : List (Event κ)} {t : St κ} (h : run evs s=some t) :
    t.passed.length=s.passed.length+reached (evs.flatMap (·.batches)) := by
  induction evs generalizing s with
  | nil =>
      cases h
      rfl
  | cons e evs ih =>
      rw [run] at h
      obtain ⟨u,hu,ht⟩ := Option.bind_eq_some_iff.1 h
      have hlen : u.passed.length=s.passed.length+reached e.batches :=
        outer_length (s := {s with count := 0, dropped := 0, ret := dpeWait}) hu
      rw [ih ht,hlen,List.flatMap_cons]
      simp only [reached,List.map_append,List.sum_append]
      omega

theorem reached_all {l : List Batch} (h : reached l=(l.map fun b => b.pkts.length).sum) : ∀ b∈l,Undisturbed b.pkts := by
  have hle : ∀ l : List Batch,reached l≤(l.map fun b => b.pkts.length).sum := fun l =>
    List.sum_le_sum fun b _ => reach_le b.pkts
  induction l with
  | nil =>
      intro b hb
      simp at hb
  | cons b l ih =>
      have hb := reach_le b.pkts
      have hl := hle l
      simp only [reached,List.map_cons,List.sum_cons] at h hl
      intro c hc
      rcases List.mem_cons.1 hc with rfl | hc
      · exact reach_all (by omega)
      · exact ih (by rw [reached]; omega) c hc

theorem length_received (evs : List (Event κ)) :
    (evs.flatMap received).length=((evs.flatMap (·.batches)).map fun b => b.pkts.length).sum := by
  induction evs with
  | nil => rfl
  | cons e evs ih =>
      rw [List.flatMap_cons,List.flatMap_cons,List.length_append,ih,List.map_append,List.sum_append]
      congr 1
      simp [received,List.length_flatMap]

/-- When all that has been received gets to the engine, each batch has been gone through to its end. -/
theorem right_undisturbed {raw : ℕ → Slot} {evs : List (Event κ)} {t : St κ} (ht : run evs (thrdInit raw)=some t)
    (h : Right evs t) : ∀ e∈evs,∀ b∈e.batches,Undisturbed b.pkts := by
  have hlen := run_length ht
  rw [h.passed,length_received] at hlen
  have hall := reached_all (l := evs.flatMap (·.batches)) (by simpa [thrdInit] using hlen.symm)
  exact fun e he b hb => hall b (List.mem_flatMap.2 ⟨e,he,hb⟩)

/-- Packets come out right over any number of calls and batches, if and only if the engine rejects none of them but the last
of a batch (and a call does not take more than an int can count). -/
theorem recvPackets_right (raw : ℕ → Slot) (evs : List (Event κ)) :
    (∃ s,run evs (thrdInit raw)=some s ∧ Right evs s) ↔ ∀ e∈evs,e.Calm := by
  have hready : ∀ j,Ready ((thrdInit raw : St κ).slots j) := fun j => ready_reset (raw j)
  have hrest : Restored (thrdInit raw : St κ) := fun o ho => by simp [thrdInit] at ho
  constructor
  · intro ⟨s,hs,hright⟩ e he
    have hall := right_undisturbed hs hright
    refine ⟨hall e he,?_⟩
    by_contra hover
    have hnone := (run_calm hall hready hrest).2 ⟨e,he,Int.not_le.1 hover⟩
    rw [hnone] at hs
    exact absurd hs (by simp)
  · intro h
    obtain ⟨s,hs,hrest',hpassed⟩ := (run_calm (fun e he => (h e he).undisturbed) hready hrest).1 fun e he => (h e he).counted
    exact ⟨s,hs,hpassed,hrest'⟩

/-! A batch of two datagrams, the first of which the engine rejects. -/

def short (host : Byte) : Datagram where
  peer := [2,0,0,0,127,0,0,host,0,0,0,0,0,0,0,0]
  control := [.tos 2]
  data := [1,2,3]
  whole := by simp [saSize,value,afInet]
  fits := by decide

def spoiled : Event Unit := ⟨(),[],[⟨[(short 1,-1),(short 2,0)],by simp,by decide⟩],some 11⟩

theorem second_dropped : ¬∃ s,run [spoiled] (thrdInit fun _ => ⟨0,0,0,0,0,[],[],[],[]⟩)=some s ∧ Right [spoiled] s := by
  intro ⟨s,hs,h⟩
  have hfirst := right_undisturbed hs h spoiled (by simp) _ (List.mem_singleton.2 rfl) (short 1,-1) (by simp)
  exact absurd hfirst (by decide)

end Dpapp.QicRecv
