import Dpapp.Cmsg
import Dpapp.Dpbuf
import Dpapp.Instances

/-! # Sending QUIC packets in batches (dpqic.c, os/linux/dpudp_pri.c) -/

namespace Dpapp.QicSend
open Dpapp.Segment Dpapp.Cmsg
open Dpapp.Dpbuf (Byte intMax)

def maxPacketCount : ℕ := 64
def ctlSize : ℕ := 256
def eagain : ℕ := 11

/-- What a struct sockaddr pointer points to, byte by byte. -/
abbrev Sockaddr := ℕ → Byte

def afInet : ℕ := 2
def saFamily (a : Sockaddr) : ℕ := (a 0).toNat+256*(a 1).toNat
def bytes (a : Sockaddr) (off len : ℕ) : List Byte := (List.range len).map fun i => a (off+i)

/- sizeof(struct sockaddr_in), sizeof(struct sockaddr_in6) -/
def namelen (dest : Sockaddr) : ℕ := if saFamily dest=afInet then 16 else 28

/-! ### _setup_control_msg -/

def zeros (n : ℕ) : List Byte := List.replicate n 0

/- IP_PKTINFO, IPV6_PKTINFO -/
def pktinfo (loc dest : Sockaddr) : Msg :=
  if saFamily dest=afInet then ⟨0,8,zeros 4++bytes loc 4 4++zeros 4⟩ else ⟨41,50,bytes loc 8 16++zeros 4⟩

/- IP_TOS, IPV6_TCLASS -/
def tos (dest : Sockaddr) (ecn : Fin 4) : Msg :=
  if saFamily dest=afInet then ⟨0,1,little 4 ecn⟩ else ⟨41,67,little 4 ecn⟩

/-- The bits of enum ctl_what. -/
structure CtlWhat where
  sendaddr : Bool
  ecn : Bool
  deriving DecidableEq

def CtlWhat.any (w : CtlWhat) : Bool := w.sendaddr||w.ecn
def CtlWhat.bits (w : CtlWhat) : ℕ := w.sendaddr.toNat+w.ecn.toNat

/- A turn clears a bit, and the loop ends when none is left or there is no room. memset has written the padding. -/
def setupLoop (loc dest : Sockaddr) (ecn : Fin 4) : ℕ → CtlWhat → Option ℕ → List Byte → ℕ → List Byte × ℕ
  | k+1,w,some pos,ctl,len =>
      if w.sendaddr then
        let ctl := put ctl pos (pktinfo loc dest).encode
        setupLoop loc dest ecn k {w with sendaddr := false} (next ctl ctlSize pos) ctl (len+(pktinfo loc dest).space)
      else if w.ecn then
        let ctl := put ctl pos (tos dest ecn).encode
        setupLoop loc dest ecn k {w with ecn := false} (next ctl ctlSize pos) ctl (len+(tos dest ecn).space)
      else (ctl,0)
  | _,_,_,ctl,len => (ctl,len)

/-- _setup_control_msg in a block of zeros of CTL_SIZE -/
def setupControlMsg (w : CtlWhat) (loc dest : Sockaddr) (ecn : Fin 4) : List Byte × ℕ :=
  setupLoop loc dest ecn w.bits w (first ctlSize) (zeros ctlSize) 0

/-- The messages that `w` asks for. -/
def ancillary (w : CtlWhat) (loc dest : Sockaddr) (ecn : Fin 4) : List Msg :=
  (if w.sendaddr then [pktinfo loc dest] else [])++if w.ecn then [tos dest ecn] else []

theorem pktinfo_valid (loc dest : Sockaddr) : (pktinfo loc dest).Valid ∧ (pktinfo loc dest).space≤40 := by
  unfold pktinfo
  split <;> exact ⟨⟨by simp,by simp,by simp [Msg.len,zeros,bytes]⟩,by simp [Msg.space,Msg.len,align,zeros,bytes]⟩

theorem put_zeros {x y : List Byte} {n : ℕ} : put (x++zeros n) x.length y=x++(y++zeros (n-y.length)) := by
  rw [put,List.take_left,List.drop_append]
  simp [zeros]

/-- One message after the other, with what CMSG_NXTHDR finds behind the first. -/
theorem setup_take (w : CtlWhat) (loc dest : Sockaddr) (ecn : Fin 4) :
    (setupControlMsg w loc dest ecn).1.take (setupControlMsg w loc dest ecn).2=encodeAll (ancillary w loc dest ecn) := by
  have hempty : ∀ y : List Byte,put (zeros ctlSize) 0 y=y++zeros (ctlSize-y.length) := fun y => by
    simpa using put_zeros (x := []) (y := y) (n := ctlSize)
  obtain ⟨hvalid,hspace⟩ := pktinfo_valid loc dest
  have hp := (pktinfo loc dest).length_encode
  have ht := (tos dest ecn).length_encode
  obtain ⟨a,e⟩ := w
  cases a <;> cases e
  · rfl
  · simp [setupControlMsg,CtlWhat.bits,setupLoop,ancillary,first,hempty,encodeAll,← ht,show 16≤ ctlSize from by decide]
  · simp [setupControlMsg,CtlWhat.bits,setupLoop,ancillary,first,hempty,encodeAll,← hp,show 16≤ ctlSize from by decide]
  · have hnext : next ((pktinfo loc dest).encode++zeros (ctlSize-(pktinfo loc dest).encode.length)) ctlSize 0=
        some (pktinfo loc dest).encode.length :=
      next_zeros (x := []) hvalid (by unfold ctlSize; simp only [List.length_nil]; omega)
    have hlen : (pktinfo loc dest).space+(tos dest ecn).space=((pktinfo loc dest).encode++(tos dest ecn).encode).length := by
      rw [List.length_append,hp,ht]
    simp only [setupControlMsg,CtlWhat.bits,setupLoop,ancillary,first,hempty,hnext,put_zeros,Bool.toNat_true,if_true,
      Nat.zero_add,hlen,← List.append_assoc,List.take_left,Bool.false_eq_true,if_false,show 16≤ ctlSize from by decide,
      encodeAll,List.flatMap_append,List.flatMap_cons,List.flatMap_nil,List.append_nil]

/-! ### _dpqic_cb_send_packets -/

/-- The address of a sockaddr, which storage of that type has at a multiple of four. -/
structure SaPtr where
  addr : ℕ
  pos : 0<addr
  aligned : 4∣addr

/-- struct lsquic_out_spec; `iov` has its iovlen with it. -/
structure OutSpec (π κ : Type*) where
  iov : π
  localSa : SaPtr
  destSa : Sockaddr
  peer : κ
  ecn : Fin 4

/-- The engine, the memory of the local addresses, and the file descriptor of the udp_efd of an element. -/
structure Env (κ : Type*) where
  server : Bool
  mem : ℕ → Sockaddr
  sock : κ → ℕ

/-- A msghdr of out_data; `control` is the index in out_storage of the ctl_data it points to. -/
structure Msghdr (π : Type*) where
  iov : π
  name : Sockaddr
  namelen : ℕ
  control : Option ℕ
  controllen : ℕ

/-- What the kernel gets with a message. -/
structure Handed (π : Type*) where
  fd : ℕ
  iov : π
  dest : List Byte
  control : List Byte

structure St (π : Type*) where
  out : ℕ → Msghdr π
  ctl : ℕ → List Byte
  n : ℕ := 0
  m : ℕ := 0
  prev : ℕ := 0
  calls : ℕ := 0
  log : List (Handed π) := []
  errno : Option ℕ := none

variable {π κ : Type*} (E : Env κ)

def ctlWhat (s : OutSpec π κ) : CtlWhat :=
  ⟨E.server && decide (saFamily (E.mem s.localSa.addr)≠0),decide (s.ecn≠0)⟩

def ancilKey (s : OutSpec π κ) : ℕ :=
  let key := if (ctlWhat E s).sendaddr then s.localSa.addr else 0
  if (ctlWhat E s).ecn then key ||| s.ecn else key

/-- The body of the inner loop. -/
def St.add (t : St π) (s : OutSpec π κ) : St π :=
  let cw := ctlWhat E s
  let key := ancilKey E s
  let h : Msghdr π := ⟨s.iov,s.destSa,namelen s.destSa,none,0⟩
  let t' := {t with n := t.n+1, m := t.m+1}
  if cw.any ∧ t.prev=key ∧ 0<t.m then
    let before := t.out (t.m-1)
    {t' with out := Function.update t.out t.m {h with control := before.control, controllen := before.controllen}}
  else if cw.any then
    let (ctl,len) := setupControlMsg cw (E.mem s.localSa.addr) s.destSa s.ecn
    {t' with
      prev := key
      out := Function.update t.out t.m {h with control := some t.m, controllen := len}
      ctl := Function.update t.ctl t.m ctl}
  else {t' with prev := 0, out := Function.update t.out t.m h}

/-- The inner loop; an int that overflows is undefined. -/
def fill (peer : κ) [DecidableEq κ] : List (OutSpec π κ) → St π → Option (St π)
  | [],t => some t
  | s::l,t =>
      if t.m< maxPacketCount ∧ peer=s.peer then
        if intMax≤(t.n : ℤ) then none else fill peer l (t.add E s)
      else some t

def St.handed (t : St π) (fd i : ℕ) : Handed π :=
  let h := t.out i
  ⟨fd,h.iov,bytes h.name 0 h.namelen,match h.control with
    | none => []
    | some j => (t.ctl j).take h.controllen⟩

/-- What sendmmsg returns at each call: the number of messages that it has taken, from the first on, or an errno. -/
abbrev Sendmmsg := (call vlen : ℕ) → Except ℕ (Fin (vlen+1))

def sendLoop [DecidableEq κ] (answer : Sendmmsg) (specs : List (OutSpec π κ)) : ℕ → St π → Option (St π)
  | 0,_ => none
  | k+1,t => match specs.drop t.n with
    | [] => some t
    | s::l => (fill E s.peer (s::l) {t with m := 0, prev := 0}).bind fun t =>
        match answer t.calls t.m with
        | .ok r =>
            let t := {t with
              calls := t.calls+1
              log := t.log++((List.range t.m).map (t.handed (E.sock s.peer))).take r}
            if r.val=t.m then sendLoop answer specs k t else some {t with n := t.n-(t.m-r), errno := some eagain}
        | .error e => some {t with calls := t.calls+1, n := t.n-t.m, errno := some e}

def cbSendPackets [DecidableEq κ] (answer : Sendmmsg) (specs : List (OutSpec π κ)) (out : ℕ → Msghdr π)
    (ctl : ℕ → List Byte) : Option (St π) :=
  sendLoop E answer specs (specs.length+1) {out := out, ctl := ctl}

/-! ### What each packet has to go with -/

/-- The socket of its peer, its payload, its destination and its control data. -/
def own (s : OutSpec π κ) : Handed π :=
  ⟨E.sock s.peer,s.iov,bytes s.destSa 0 (namelen s.destSa),
    encodeAll (ancillary (ctlWhat E s) (E.mem s.localSa.addr) s.destSa s.ecn)⟩

/-- The packets of one peer go to addresses of one family. -/
def OneFamily (specs : List (OutSpec π κ)) : Prop :=
  ∀ s∈specs,∀ q∈specs,s.peer=q.peer → saFamily s.destSa=saFamily q.destSa

/-- The kernel has got the first n packets, in order, each with what is its own; errno tells why there are no more. -/
structure Prefix (specs : List (OutSpec π κ)) (t : St π) : Prop where
  le : t.n≤ specs.length
  log : t.log=(specs.take t.n).map (own E)
  errno : t.n< specs.length ↔ t.errno≠none

/-- The key tells whether there is a local address and which one, and the ECN value. -/
theorem key_determines {s q : OutSpec π κ} (h : ancilKey E q=ancilKey E s) :
    ctlWhat E q=ctlWhat E s ∧ q.ecn=s.ecn ∧ ((ctlWhat E s).sendaddr=true → q.localSa.addr=s.localSa.addr) := by
  have hkey : ∀ s : OutSpec π κ,ancilKey E s=(if (ctlWhat E s).sendaddr then s.localSa.addr else 0)+s.ecn := by
    intro s
    obtain ⟨a,ha⟩ : ∃ a,(if (ctlWhat E s).sendaddr then s.localSa.addr else 0)=2^2*a := by
      split
      · exact s.localSa.aligned
      · exact ⟨0,rfl⟩
    have hor : 2^2*a ||| (s.ecn : ℕ)=2^2*a+s.ecn := (Nat.two_pow_add_eq_or_of_lt (by omega) a).symm
    simp only [ancilKey,ha,hor]
    split
    · rfl
    · rename_i he
      have hz : s.ecn=0 := by simpa [ctlWhat] using he
      simp [hz]
  have hpos : ∀ s : OutSpec π κ,4≤ s.localSa.addr := fun s => Nat.le_of_dvd s.localSa.pos s.localSa.aligned
  have hq := hpos q
  have hs' := hpos s
  have hmodq := Nat.mod_eq_zero_of_dvd q.localSa.aligned
  have hmods := Nat.mod_eq_zero_of_dvd s.localSa.aligned
  rw [hkey,hkey] at h
  have he : q.ecn=s.ecn := by
    apply Fin.ext
    split at h <;> split at h <;> omega
  have hsum : (if (ctlWhat E q).sendaddr then q.localSa.addr else 0)=if (ctlWhat E s).sendaddr then s.localSa.addr else 0 := by
    rw [he] at h
    omega
  have hw : (ctlWhat E q).sendaddr=(ctlWhat E s).sendaddr := by
    cases hqa : (ctlWhat E q).sendaddr <;> cases hsa : (ctlWhat E s).sendaddr <;> simp [hqa,hsa] at hsum ⊢ <;> omega
  have he' : (ctlWhat E q).ecn=(ctlWhat E s).ecn := by simp only [ctlWhat,he]
  refine ⟨?_,he,fun ha => ?_⟩
  · cases hqw : ctlWhat E q
    cases hsw : ctlWhat E s
    simp_all
  · rwa [hw,if_pos ha,if_pos ha] at hsum

/-! ### A batch -/

/-- The messages of the batch are those of `sent`; the key is the one of the last of them. -/
structure Held (t : St π) (peer : κ) (sent : List (OutSpec π κ)) : Prop where
  count : t.m=sent.length
  peers : ∀ s∈sent,s.peer=peer
  slots : ∀ i (h : i<sent.length),t.handed (E.sock peer) i=own E sent[i]
  below : ∀ i<t.m,∀ j,(t.out i).control=some j → j≤ i
  key : ∀ s∈sent.getLast?,t.prev=ancilKey E s

variable {E} {t : St π} {peer : κ} {sent : List (OutSpec π κ)} {s : OutSpec π κ}

theorem held_start : Held E {t with m := 0, prev := 0} peer [] where
  count := rfl
  peers s h := by simp at h
  slots i h := by simp at h
  below i h := by simp at h
  key s h := by simp at h

/-- What add leaves of the messages before: it writes out_data[m], and out_storage[m] at most. -/
theorem add_handed {h : Msghdr π} {c : ℕ → List Byte} {fd i : ℕ} (hi : i<t.m) (hbelow : ∀ j,(t.out i).control=some j → j≤ i)
    (hc : ∀ j≠t.m,c j=t.ctl j) {t' : St π} (hout : t'.out=Function.update t.out t.m h) (hctl : t'.ctl=c) :
    t'.handed fd i=t.handed fd i := by
  have hne : i≠t.m := Nat.ne_of_lt hi
  simp only [St.handed,hout,hctl,Function.update_of_ne hne]
  cases hcontrol : (t.out i).control with
  | none => rfl
  | some j => simp only [hc j (by have := hbelow j hcontrol; omega)]

theorem held_push {t' : St π} (h : Held E t peer sent) (hs : s.peer=peer) (hm : t'.m=t.m+1) (hkey : t'.prev=ancilKey E s)
    (hkeep : ∀ i<t.m,t'.handed (E.sock peer) i=t.handed (E.sock peer) i) (hnew : t'.handed (E.sock peer) t.m=own E s)
    (hbelow : ∀ i<t.m,(t'.out i).control=(t.out i).control) (hlast : ∀ j,(t'.out t.m).control=some j → j≤t.m) :
    Held E t' peer (sent++[s]) where
  count := by rw [hm,h.count,List.length_append,List.length_singleton]
  peers q hq := by
    rcases List.mem_append.1 hq with hq | hq
    · exact h.peers q hq
    · rw [List.mem_singleton.1 hq,hs]
  slots i hi := by
    rw [List.length_append,List.length_singleton] at hi
    by_cases hlt : i<sent.length
    · rw [hkeep i (by rw [h.count]; exact hlt),h.slots i hlt,List.getElem_append_left hlt]
    · have he : i=t.m := by rw [h.count]; omega
      subst he
      rw [hnew,List.getElem_append_right (by rw [h.count])]
      simp [h.count]
  below i hi j hj := by
    rw [hm] at hi
    by_cases hlt : i<t.m
    · exact h.below i hlt j (by rw [← hbelow i hlt]; exact hj)
    · have he : i=t.m := by omega
      subst he
      exact hlast j hj
  key q hq := by
    have he : q=s := by simpa using hq.symm
    rw [hkey,he]

theorem ancillary_congr {w : CtlWhat} {loc dest dest' : Sockaddr} {ecn : Fin 4} (h : saFamily dest'=saFamily dest) :
    ancillary w loc dest' ecn=ancillary w loc dest ecn := by
  simp only [ancillary,pktinfo,tos,h]

/-- The control data of a packet are those of another one with its key. -/
theorem ancillary_key {q : OutSpec π κ} (hkey : ancilKey E q=ancilKey E s)
    (hfam : saFamily q.destSa=saFamily s.destSa) :
    ancillary (ctlWhat E q) (E.mem q.localSa.addr) q.destSa q.ecn=
      ancillary (ctlWhat E s) (E.mem s.localSa.addr) s.destSa s.ecn := by
  obtain ⟨hw,he,haddr⟩ := key_determines E hkey
  rw [hw,he,ancillary_congr hfam]
  by_cases ha : (ctlWhat E s).sendaddr=true
  · rw [haddr ha]
  · simp only [ancillary,Bool.eq_false_of_not_eq_true ha,Bool.false_eq_true,if_false]

/-- A further packet: it takes the next slot, with its own control data or with those of the packet before it. -/
theorem add_held (h : Held E t peer sent) (hs : s.peer=peer) (hfam : ∀ q∈sent,saFamily q.destSa=saFamily s.destSa) :
    Held E (t.add E s) peer (sent++[s]) := by
  have hkeep : ∀ i<t.m,∀ {x : Msghdr π} {t' : St π} {c : ℕ → List Byte},t'.out=Function.update t.out t.m x → t'.ctl=c →
      (∀ j≠t.m,c j=t.ctl j) → t'.handed (E.sock peer) i=t.handed (E.sock peer) i :=
    fun i hi {_ _ _} hout hctl hc => add_handed hi (h.below i hi) hc hout hctl
  have hcontrol : ∀ i<t.m,∀ x : Msghdr π,(Function.update t.out t.m x i).control=(t.out i).control :=
    fun i hi x => by rw [Function.update_of_ne (Nat.ne_of_lt hi)]
  by_cases hreuse : (ctlWhat E s).any ∧ t.prev=ancilKey E s ∧ 0<t.m
  · -- the message before has this key
    obtain ⟨hany,hprev,hpos⟩ := hreuse
    have hlast : t.m-1<sent.length := by rw [← h.count]; omega
    have hmem : sent[t.m-1]∈sent := List.getElem_mem hlast
    have hkey : ancilKey E sent[t.m-1]=ancilKey E s := by
      rw [← hprev]
      refine (h.key _ ?_).symm
      rw [Option.mem_def,List.getLast?_eq_getElem?,← h.count,List.getElem?_eq_getElem hlast]
    have hbefore : (t.handed (E.sock peer) (t.m-1)).control=_ := congrArg Handed.control (h.slots (t.m-1) hlast)
    have hadd : t.add E s={t with
        n := t.n+1
        m := t.m+1
        out := Function.update t.out t.m ⟨s.iov,s.destSa,namelen s.destSa,(t.out (t.m-1)).control,(t.out (t.m-1)).controllen⟩} := by
      rw [St.add]
      exact if_pos ⟨hany,hprev,hpos⟩
    rw [hadd]
    refine held_push h hs rfl hprev (fun i hi => hkeep i hi rfl rfl fun _ _ => rfl) ?_ (fun i hi => hcontrol i hi _) ?_
    · simp only [St.handed,Function.update_self,own,hs]
      congr 1
      rw [← ancillary_key hkey (hfam _ hmem)]
      exact hbefore
    · intro j hj
      simp only [Function.update_self] at hj
      have := h.below (t.m-1) (by omega) j hj
      omega
  · by_cases hany : (ctlWhat E s).any=true
    · -- its own ctl_data
      have htake := setup_take (ctlWhat E s) (E.mem s.localSa.addr) s.destSa s.ecn
      rcases hsetup : setupControlMsg (ctlWhat E s) (E.mem s.localSa.addr) s.destSa s.ecn with ⟨c,len⟩
      rw [hsetup] at htake
      have hadd : t.add E s={t with
          n := t.n+1
          m := t.m+1
          prev := ancilKey E s
          out := Function.update t.out t.m ⟨s.iov,s.destSa,namelen s.destSa,some t.m,len⟩
          ctl := Function.update t.ctl t.m c} := by
        rw [St.add]
        refine (if_neg hreuse).trans ?_
        simp only [hany,if_true,hsetup]
      rw [hadd]
      refine held_push h hs rfl rfl
        (fun i hi => hkeep i hi rfl rfl fun j hj => Function.update_of_ne hj _ _) ?_ (fun i hi => hcontrol i hi _) ?_
      · simp only [St.handed,Function.update_self,own,hs,htake]
      · intro j hj
        simp only [Function.update_self] at hj
        exact (Option.some.inj hj).ge
    · -- none
      have hw : (ctlWhat E s).sendaddr=false ∧ (ctlWhat E s).ecn=false := by
        simpa [CtlWhat.any] using hany
      have hadd : t.add E s={t with
          n := t.n+1
          m := t.m+1
          prev := 0
          out := Function.update t.out t.m ⟨s.iov,s.destSa,namelen s.destSa,none,0⟩} := by
        rw [St.add]
        exact (if_neg hreuse).trans (if_neg hany)
      rw [hadd]
      refine held_push h hs rfl (by simp [ancilKey,hw]) (fun i hi => hkeep i hi rfl rfl fun _ _ => rfl) ?_
        (fun i hi => hcontrol i hi _) ?_
      · simp only [St.handed,Function.update_self,own,hs,ancillary,hw,Bool.false_eq_true,if_false,List.append_nil]
        rfl
      · intro j hj
        simp only [Function.update_self] at hj
        exact absurd hj (by simp)

theorem add_frame : (t.add E s).n=t.n+1 ∧ (t.add E s).log=t.log ∧ (t.add E s).errno=t.errno := by
  unfold St.add
  dsimp only
  split
  · exact ⟨rfl,rfl,rfl⟩
  · split <;> exact ⟨rfl,rfl,rfl⟩

/-- The packets of a batch that the kernel has taken are the next ones. -/
theorem take_sent {specs l : List (OutSpec π κ)} {n r m : ℕ} (hl : specs.drop n=l) (hr : r≤ m) :
    (specs.take n).map (own E)++((l.take m).map (own E)).take r=(specs.take (n+r)).map (own E) := by
  rw [← List.map_take,List.take_take,Nat.min_eq_left hr,← List.map_append,← hl,List.take_add]

variable [DecidableEq κ]

/-- The inner loop fills out_data with the packets up to the next peer or the end of the batch. -/
theorem fill_held {l : List (OutSpec π κ)} {t' : St π} (h : Held E t peer sent) (hfam : OneFamily (sent++l))
    (hf : fill E peer l t=some t') :
    ∃ j≤l.length,Held E t' peer (sent++l.take j) ∧ t'.n=t.n+j ∧ t'.log=t.log ∧ t'.errno=t.errno := by
  have hstop : Held E t peer (sent++l.take 0) := by simpa using h
  induction l generalizing t sent with
  | nil =>
      rw [fill] at hf
      cases hf
      exact ⟨0,Nat.le_refl 0,hstop,rfl,rfl,rfl⟩
  | cons s l ih =>
      rw [fill] at hf
      split at hf
      · rename_i hturn
        split at hf
        · exact absurd hf (by simp)
        · have happend : sent++s::l=(sent++[s])++l := by simp
          have hs : s∈sent++s::l := by simp
          have hadd : Held E (t.add E s) peer (sent++[s]) := add_held h hturn.2.symm fun q hq =>
            hfam q (List.mem_append_left _ hq) s hs ((h.peers q hq).trans hturn.2)
          obtain ⟨hn,hlog,herr⟩ := add_frame (E := E) (t := t) (s := s)
          obtain ⟨j,hj,hheld,hn',hlog',herr'⟩ := ih hadd (by rwa [happend] at hfam) hf (by simpa using hadd)
          refine ⟨j+1,Nat.succ_le_succ hj,?_,?_,hlog'.trans hlog,herr'.trans herr⟩
          · rwa [List.take_succ_cons,List.append_cons]
          · omega
      · cases hf
        exact ⟨0,Nat.zero_le _,hstop,rfl,rfl,rfl⟩

/-- It is undefined only where n overflows. -/
theorem fill_some (E : Env κ) (peer : κ) {l : List (OutSpec π κ)} (h : (t.n+l.length : ℤ)≤ intMax) : (fill E peer l t).isSome := by
  induction l generalizing t with
  | nil => rfl
  | cons s l ih =>
      rw [List.length_cons] at h
      rw [fill]
      split
      · rw [if_neg (by omega)]
        apply ih
        rw [add_frame.1]
        push_cast at h ⊢
        omega
      · rfl

/-- One batch: one packet at least, each with what is its own. -/
theorem batch_held {l : List (OutSpec π κ)} {t' : St π} (hfam : OneFamily (s::l))
    (hf : fill E s.peer (s::l) {t with m := 0, prev := 0}=some t') :
    0<t'.m ∧ t'.m≤l.length+1 ∧ t'.n=t.n+t'.m ∧ t'.log=t.log ∧ t'.errno=t.errno ∧
      (List.range t'.m).map (t'.handed (E.sock s.peer))=((s::l).take t'.m).map (own E) := by
  have hturn : (0 : ℕ)< maxPacketCount ∧ s.peer=s.peer := ⟨by decide,rfl⟩
  rw [fill,if_pos hturn] at hf
  split at hf
  · exact absurd hf (by simp)
  · have hadd := add_held (E := E) (held_start (t := t)) (rfl : s.peer=s.peer) (by simp)
    obtain ⟨hn,hlog,herr⟩ := add_frame (E := E) (t := {t with m := 0, prev := 0}) (s := s)
    obtain ⟨j,hj,hheld,hn',hlog',herr'⟩ := fill_held hadd hfam hf
    have hm : t'.m=j+1 := by
      rw [hheld.count]
      simp
      omega
    have hsent : [] ++[s]++l.take j=(s::l).take t'.m := by simp [hm]
    rw [hsent] at hheld
    refine ⟨by omega,by omega,by simp only at hn; omega,hlog'.trans hlog,herr'.trans herr,?_⟩
    apply List.ext_getElem
    · rw [List.length_map,List.length_map,List.length_range,← hheld.count]
    · intro i hi hi'
      rw [List.length_map] at hi'
      simp only [List.getElem_map,List.getElem_range]
      exact hheld.slots i hi'

/-! ### The batches -/

/-- A batch after another: what is left of the packets grows shorter with each. -/
theorem sendLoop_prefix {answer : Sendmmsg} {specs : List (OutSpec π κ)} (hfam : OneFamily specs) {k : ℕ}
    (hn : t.n≤ specs.length) (hlog : t.log=(specs.take t.n).map (own E)) (herr : t.errno=none) (hk : specs.length<t.n+k) :
    (specs.length≤ intMax → (sendLoop E answer specs k t).isSome) ∧
      ∀ t',sendLoop E answer specs k t=some t' → Prefix E specs t' := by
  induction k generalizing t with
  | zero => omega
  | succ k ih =>
      rw [sendLoop]
      cases hl : specs.drop t.n with
      | nil =>
          have hlen : specs.length≤t.n := List.drop_eq_nil_iff.1 hl
          refine ⟨fun _ => rfl,fun t' ht => ?_⟩
          cases ht
          exact ⟨hn,hlog,by simp [herr]; omega⟩
      | cons s l =>
          have hlen : specs.length=t.n+(l.length+1) := by
            have := congrArg List.length hl
            rw [List.length_drop,List.length_cons] at this
            omega
          have hfam' : OneFamily (s::l) := fun a ha b hb => by
            rw [← hl] at ha hb
            exact hfam a (List.mem_of_mem_drop ha) b (List.mem_of_mem_drop hb)
          dsimp only
          cases hf : fill E s.peer (s::l) {t with m := 0, prev := 0} with
          | none =>
              refine ⟨fun hmax => ?_,fun t' ht => absurd ht (by simp)⟩
              have hsome := fill_some E s.peer (l := s::l) (t := {t with m := 0, prev := 0})
                (by simp only [List.length_cons]; omega)
              simp [hf] at hsome
          | some b =>
              obtain ⟨hpos,hm,hbn,hblog,hberr,hbatch⟩ := batch_held hfam' hf
              simp only [Option.bind_some]
              cases answer b.calls b.m with
              | ok r =>
                  have hr : r.val≤b.m := Nat.le_of_lt_succ r.isLt
                  have htook : b.log++((List.range b.m).map (b.handed (E.sock s.peer))).take r=
                      (specs.take (t.n+r)).map (own E) := by
                    rw [hblog,hlog,hbatch,take_sent hl hr]
                  by_cases hall : r.val=b.m
                  · simp only [if_pos hall]
                    apply ih
                    · dsimp only
                      omega
                    · rw [htook,hall,hbn]
                    · exact hberr.trans herr
                    · dsimp only
                      omega
                  · simp only [if_neg hall]
                    refine ⟨fun _ => rfl,fun t' ht => ?_⟩
                    cases ht
                    have hback : b.n-(b.m-r)=t.n+r := by omega
                    exact ⟨by dsimp only; omega,by simp only [htook,hback],by simp; omega⟩
              | error e =>
                  refine ⟨fun _ => rfl,fun t' ht => ?_⟩
                  cases ht
                  have hback : b.n-b.m=t.n := by omega
                  exact ⟨by dsimp only; omega,by simp only [hblog,hlog,hback],by simp; omega⟩

/-- send_packets: it returns as long as the number of packets is an int, and the kernel has got the packets before the
number that it returns, each once, in order, on the socket of its peer and with its own payload, destination and control
data, whatever sendmmsg returns and whatever earlier calls have left in out_data and out_storage. -/
theorem cbSendPackets_prefix (E : Env κ) (answer : Sendmmsg) (specs : List (OutSpec π κ)) (out : ℕ → Msghdr π)
    (ctl : ℕ → List Byte) (h : OneFamily specs) :
    (specs.length≤ intMax → (cbSendPackets E answer specs out ctl).isSome) ∧
      ∀ t,cbSendPackets E answer specs out ctl=some t → Prefix E specs t :=
  sendLoop_prefix h (Nat.zero_le _) rfl rfl (by simp)

/-! Two packets for one peer, which share their control data, and a third one for another peer, whose call fails. -/

def v4 (host : Byte) : Sockaddr := fun i => if i=0 then 2 else if i=7 then host else 0
def port : Env Bool := ⟨true,fun _ => v4 1,fun peer => if peer then 7 else 5⟩
def packets : List (OutSpec ℕ Bool) :=
  [⟨11,⟨64,by decide,by decide⟩,v4 8,false,2⟩,⟨12,⟨64,by decide,by decide⟩,v4 8,false,2⟩,
    ⟨13,⟨64,by decide,by decide⟩,v4 9,true,0⟩]
def full : Sendmmsg := fun call vlen => if call=0 then .ok ⟨vlen,Nat.lt_succ_self vlen⟩ else .error eagain
def slots : ℕ → Msghdr ℕ := fun _ => ⟨0,v4 0,0,none,0⟩

theorem cbSendPackets_prefix_two : ∃ t,cbSendPackets port full packets slots (fun _ => [])=some t ∧ t.n=2 ∧
    Prefix port packets t := by
  have hfam : OneFamily packets := by
    intro s hs q hq _
    simp only [packets,List.mem_cons,List.not_mem_nil,or_false] at hs hq
    rcases hs with rfl | rfl | rfl <;> rcases hq with rfl | rfl | rfl <;> rfl
  obtain ⟨hsome,hpre⟩ := cbSendPackets_prefix port full packets slots (fun _ => []) hfam
  obtain ⟨t,ht⟩ := Option.isSome_iff_exists.1 (hsome (by decide))
  have hn : (cbSendPackets port full packets slots (fun _ => [])).map (·.n)=some 2 := by rfl
  rw [ht] at hn
  exact ⟨t,ht,Option.some.inj hn,hpre t ht⟩

end Dpapp.QicSend
