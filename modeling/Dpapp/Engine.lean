import Dpapp.Machine
import Dpapp.EfdWake
import Dpapp.CtcChannel

/-! # The elements of one engine (os/linux/dpevp_epoll.c)

EFD, USD and TMR elements of one thread: memory, timer tree, ready deque, epoll
registrations and the batch of events dpevp_pop walks. A prep or post function
may call the API itself, so each call is cut where it runs one; `stack` holds
the calls that are inside such a function. CTC elements are in CtcEngine. -/

namespace Dpapp.Engine
open Dpapp.Machine Dpapp.Ret Dpapp.EfdWake
open Dpapp.CtcChannel (deqPushBack)

inductive Kind | efd | usd | tmr
  deriving DecidableEq, Repr

/- `types` is asked for the element's type and whether it has an I/O type. The ascs with
DPASC_FLAG_ALLOW_DOING are dptmr_timeout and dptmr_callback. -/
structure Asc where
  types : Kind → Bool → Bool
  allowDoing : Bool
  post : Bool
  allowTmr : allowDoing=true → ∀ kind aio,types kind aio=true → kind=.tmr

/-- Milliseconds; a negative `after` is no timeout. -/
structure TmrSpec where
  after : ℤ
  expire : ℤ

/- `fd` tells whether the descriptor is not negative; memory is zeroed, so only an EFD starts with a
negative one. `lower` are the elements that the type's fini deletes. -/
structure Ele (κ : Type*) where
  kind : Kind := .usd
  aio : Bool := false
  fd : Bool := true
  efd : Efd := {}
  isTiming : Bool := false
  isDetach : Bool := false
  ret : Dpret := 0
  spec : Option TmrSpec := none
  refc : ℤ := 0
  asc : Option Asc := none
  lower : List κ := []

def dpeleIsDoing {κ : Type*} (e : Ele κ) : Bool := e.asc.isSome

/-- An event epoll_wait has reported; `gen` tells elements at one address apart. -/
structure Entry (κ : Type*) where
  key : κ
  evt : Harvest
  gen : ℕ

/- The calls that are inside a prep or post function: dpevp_addv, `_dpefd_wake` on behalf of dpevp_addv
or of `_dpefd_feed`, and `_dpele_asc_over`. -/
inductive Frame (κ : Type*)
  | prep (k : κ)
  | wake (k : κ) (add : Bool)
  | over (k : κ)
  deriving DecidableEq

/-- What `_dpele_del` has still to do: the dpele_del calls of fini, then free. -/
inductive DelOp (κ : Type*)
  | unref (k : κ)
  | free (k : κ)
  deriving DecidableEq

/- `pending`, `gen`, `batch`, `fed` and `stray` are history: whether an operation of the element has
neither completed nor been ended, how often the address has been used, the batch as epoll_wait returned
it, the entries that have been walked, and whether the walk has touched freed memory. -/
structure Dpevp (κ : Type*) where
  ele : κ → Ele κ := fun _ => {}
  alive : κ → Bool := fun _ => false
  timer : List κ := []
  ready : List κ := []
  evs : List (Entry κ) := []
  reg : κ → Bool := fun _ => false
  stack : List (Frame κ) := []
  dels : List (DelOp κ) := []
  pending : κ → Bool := fun _ => false
  gen : κ → ℕ := fun _ => 0
  batch : List (Entry κ) := []
  fed : List (Entry κ) := []
  stray : Bool := false

variable {κ : Type*} [LinearOrder κ]

def Dpevp.setEle (s : Dpevp κ) (k : κ) (e : Ele κ) : Dpevp κ := {s with ele := Function.update s.ele k e}
def Dpevp.setPending (s : Dpevp κ) (k : κ) (b : Bool) : Dpevp κ :=
  {s with pending := Function.update s.pending k b}

/-! ### The timer tree -/

/-- `_dpele_tmrspec_compare` -/
def tmrLt (ele : κ → Ele κ) (a b : κ) : Prop :=
  match (ele a).spec,(ele b).spec with
  | some x,some y => x.expire<y.expire ∨ (x.expire=y.expire ∧ a<b)
  | _,_ => a<b

instance (ele : κ → Ele κ) (a b : κ) : Decidable (tmrLt ele a b) := by unfold tmrLt; split <;> infer_instance

/-- The tree in order. -/
def rbInsert (ele : κ → Ele κ) (k : κ) : List κ → List κ
  | [] => [k]
  | j::q => if tmrLt ele k j then k::j::q else j::rbInsert ele k q

def dptmrsetUpsert (s : Dpevp κ) (k : κ) (now : ℤ) : Dpevp κ :=
  match (s.ele k).spec with
  | none => s
  | some x =>
      if x.after<0 then s
      else
        let s := s.setEle k {s.ele k with spec := some {x with expire := now+x.after}}
        if (s.ele k).isTiming then {s with timer := rbInsert s.ele k (s.timer.erase k)}
        else if k∈s.timer then s
        else {s.setEle k {s.ele k with isTiming := true} with timer := rbInsert s.ele k s.timer}

def dptmrsetRemove (s : Dpevp κ) (k : κ) : Dpevp κ :=
  if (s.ele k).isTiming then {s.setEle k {s.ele k with isTiming := false} with timer := s.timer.erase k} else s

/-- dpele_set_timeout -/
def setAfter (x : Option TmrSpec) (sec : ℤ) : Option TmrSpec :=
  match x with
  | none => if sec<0 then none else some ⟨sec,0⟩
  | some x => some {x with after := sec}

/-! ### Memory -/

/-- `_dpele_del`: a descriptor is deregistered before fini runs. -/
def dpeleDel (s : Dpevp κ) (k : κ) : Dpevp κ :=
  {s with
    reg := if (s.ele k).kind=.efd ∧ (s.ele k).fd then Function.update s.reg k false else s.reg
    dels := (s.ele k).lower.map .unref++.free k::s.dels}

/-- dpele_del -/
def unref (s : Dpevp κ) (k : κ) : Dpevp κ :=
  let e := s.ele k
  let s := s.setEle k {e with refc := e.refc-1}
  if e.refc=1 ∧ e.asc.isNone then dpeleDel s k else s

def alloc (s : Dpevp κ) (k : κ) (e : Ele κ) (reg : Bool) : Dpevp κ :=
  {s with
    ele := Function.update s.ele k e
    alive := Function.update s.alive k true
    reg := Function.update s.reg k reg
    pending := Function.update s.pending k false
    gen := Function.update s.gen k (s.gen k+1)}

/-! ### Completion -/

/-- The end of `_dpele_asc_over`. -/
def ascEnd (s : Dpevp κ) (k : κ) : Dpevp κ := if (s.ele k).refc=0 then dpeleDel s k else s

/-- `_dpele_asc_over`, up to the post function if it runs one. -/
def dpeleAscOver (s : Dpevp κ) (k : κ) : Dpevp κ :=
  let e := s.ele k
  let s := (s.setEle k {e with efd := {e.efd with want := ∅}, asc := none}).setPending k false
  if e.kind=.efd ∨ e.aio then ascEnd s k
  else if e.asc.any (·.post) then {s with stack := .over k::s.stack}
  else ascEnd s k

/-- `_dpefd_feed` after `_dpefd_wake`, and what dpevp_pop does with a completed EFD. -/
def feedEnd (s : Dpevp κ) (k : κ) (r : Dpret) : Dpevp κ :=
  if r=dpeWait then s.setEle k {s.ele k with ret := dpeInprogress}
  else dpeleAscOver (dptmrsetRemove (s.setEle k {s.ele k with ret := r}) k) k

/-- dpevp_addv from FINISH on. -/
def addFinish (s : Dpevp κ) (k : κ) (r : Dpret) (now : ℤ) : Dpevp κ :=
  if dpretIsok r then
    ({s.setEle k {s.ele k with ret := r} with ready := deqPushBack s.ready k}).setPending k false
  else if r=dpeWait then
    (dptmrsetUpsert (s.setEle k {s.ele k with ret := dpeInprogress}) k now).setPending k true
  else (s.setEle k {s.ele k with ret := r, asc := none}).setPending k false

/-- A call that has used `_dpefd_wake` goes on. -/
def wakeTurn (s : Dpevp κ) (k : κ) (add : Bool) (now : ℤ) : Efd × Turn → Dpevp κ
  | (f,.post) => {s.setEle k {s.ele k with efd := f} with stack := .wake k add::s.stack}
  | (f,.ret r) =>
      let s := s.setEle k {s.ele k with efd := f}
      if add then addFinish s k r now else feedEnd s k r

inductive Act (κ : Type*)
  | new (k : κ) (kind : Kind) (aio fd : Bool) (lower : List κ) (ok : Bool)
  | ref (k : κ)
  | setDetach (k : κ) (b : Bool)
  | setTimeout (k : κ) (sec : ℤ)
  | add (k : κ) (asc : Asc)
  | prepRet (ret : Dpret) (out : AscOut) (now : ℤ)
  | end_ (k : κ) (ret : Dpret)
  | del (k : κ)
  | dup (k j : κ) (ok : Bool)
  | postRet (p : PostRet) (now : ℤ)
  | cont
  | harvest (evs : List (Entry κ))
  | reapEfd
  | reapUsd
  | reapTmr (now : ℤ)

/-- The caller has a reference to the element. -/
def owns (s : Dpevp κ) (k : κ) : Prop := s.dels=[] ∧ s.alive k=true ∧ 0<(s.ele k).refc

/-- dpevp_pop goes on. -/
def popping (s : Dpevp κ) : Prop := s.dels=[] ∧ s.stack=[]

/-- epoll_wait reports an fd that is registered, once. -/
def reported (s : Dpevp κ) (evs : List (Entry κ)) : Prop :=
  (evs.map (·.key)).Nodup ∧ ∀ en∈evs,s.reg en.key=true ∧ en.gen=s.gen en.key

instance (s : Dpevp κ) : Decidable (s.dels=[]) := decidable_of_iff (s.dels.isEmpty=true) List.isEmpty_iff
instance (s : Dpevp κ) : Decidable (s.stack=[]) := decidable_of_iff (s.stack.isEmpty=true) List.isEmpty_iff
instance (s : Dpevp κ) : Decidable (s.evs=[]) := decidable_of_iff (s.evs.isEmpty=true) List.isEmpty_iff
instance (s : Dpevp κ) (k : κ) : Decidable (owns s k) := inferInstanceAs (Decidable (_ ∧ _))
instance (s : Dpevp κ) : Decidable (popping s) := inferInstanceAs (Decidable (_ ∧ _))
instance (s : Dpevp κ) (evs : List (Entry κ)) : Decidable (reported s evs) := inferInstanceAs (Decidable (_ ∧ _))

/-- The element a prep or post function is about to return to. -/
def Frame.key : Frame κ → κ
  | .prep k | .wake k _ | .over k => k

def step (s : Dpevp κ) : Act κ → Option (Dpevp κ)
  -- dpele_newv: an EFD with a descriptor is watched; an element whose init or watch fails is deleted
  | .new k kind aio fd lower ok =>
      if s.dels=[] ∧ s.alive k=false then
        let e : Ele κ := {kind := kind, aio := aio, fd := kind≠.efd || fd, refc := 1, lower := lower}
        if ok then some (alloc s k e (kind=.efd && fd)) else some (dpeleDel (alloc s k e false) k)
      else none
  | .ref k => if owns s k then some (s.setEle k {s.ele k with refc := (s.ele k).refc+1}) else none
  | .setDetach k b =>
      if owns s k then
        if dpeleIsDoing (s.ele k) then some s else some (s.setEle k {s.ele k with isDetach := b})
      else none
  | .setTimeout k sec =>
      if owns s k then some (s.setEle k {s.ele k with spec := setAfter (s.ele k).spec sec}) else none
  -- dpevp_addv: up to the prep
  | .add k asc =>
      if owns s k then
        let e := s.ele k
        if asc.types e.kind e.aio=false then some s
        else if dpeleIsDoing e ∧ asc.allowDoing=false then some s
        else some {s.setEle k {e with asc := some asc} with stack := .prep k::s.stack}
      else none
  | .prepRet ret out now =>
      match s.stack with
      | .prep k::stack =>
          if s.dels=[] then
            let s := {s with stack := stack}
            if ret≠dpeContinue then some (addFinish s k ret now)
            else if (s.ele k).kind=.efd then some (wakeTurn s k true now (dpefdWake (s.ele k).efd out))
            else some (addFinish s k dpeWait now)
          else none
      | _ => none
  -- dpevp_end
  | .end_ k ret =>
      if s.dels=[] ∧ s.alive k=true then
        if dpeleIsDoing (s.ele k) then
          let s := dptmrsetRemove s k
          let e := s.ele k
          let s := s.setEle k {e with
            efd := if e.kind=.efd then {e.efd with want := ∅} else e.efd, ret := ret}
          some ({s with ready := deqPushBack s.ready k}.setPending k false)
        else some s
      else none
  | .del k => if owns s k then some (unref s k) else none
  -- `ele->fd`, which is asked here, is negative for an EFD, and 0 for the others
  | .dup k j ok =>
      if owns s k ∧ s.alive j=false then
        let e := s.ele k
        if e.kind=.efd ∧ e.fd=false ∨ dpeleIsDoing e then some s
        else
          let e' : Ele κ := {kind := e.kind, aio := e.aio, fd := e.kind≠.efd, refc := 1, lower := e.lower}
          if e'.fd then
            if ok then
              let s := alloc s j {e' with efd := {able := e.efd.able\evtAin}} true
              some {s with reg := Function.update s.reg k true}
            else some s
          else some (alloc s j e' false)
      else none
  | .postRet p now =>
      match s.stack with
      | .wake k add::stack =>
          if s.dels=[] then some (wakeTurn {s with stack := stack} k add now (dpefdPosted (s.ele k).efd p))
          else none
      | .over k::stack =>
          if s.dels=[] then some (ascEnd ({s with stack := stack}.setEle k {s.ele k with ret := p.ret}) k) else none
      | _ => none
  | .cont =>
      match s.dels with
      | .unref k::dels => some (unref {s with dels := dels} k)
      | .free k::dels => some {s with dels := dels, alive := Function.update s.alive k false}
      | [] => none
  -- epoll_wait
  | .harvest evs =>
      if popping s ∧ s.evs=[] ∧ reported s evs then some {s with evs := evs, batch := evs, fed := []} else none
  -- the reap functions; an entry of the batch is fed to its element
  | .reapEfd =>
      match s.evs with
      | en::evs =>
          if popping s then
            let e := s.ele en.key
            let e : Ele κ := {e with efd := {e.efd with able := e.efd.able∪en.evt.bits}}
            let s := {s.setEle en.key e with
              evs := evs, fed := s.fed++[en], stray := s.stray || !s.alive en.key}
            if e.efd.want=∅ ∨ dpeleIsDoing e=false then some s
            else some (wakeTurn s en.key false 0 (dpefdWake e.efd ⟨e.efd.want,∅⟩))
          else none
      | [] => none
  | .reapUsd =>
      match s.ready with
      | k::ready => if popping s ∧ s.evs=[] then some (dpeleAscOver {s with ready := ready} k) else none
      | [] => none
  | .reapTmr now =>
      match s.timer with
      | k::timer =>
          if popping s ∧ s.evs=[] ∧ ((s.ele k).spec.all fun x => x.expire≤now)=true then
            some (dpeleAscOver ({s with timer := timer}.setEle k
              {s.ele k with isTiming := false, ret := dpeTime}) k)
          else none
      | [] => none

theorem step_del {s t : Dpevp κ} {k : κ} (h : step s (.del k)=some t) : owns s k ∧ t=unref s k := by
  simp only [step] at h
  split at h
  · rename_i hown
    cases h
    exact ⟨hown,rfl⟩
  · cases h

end Dpapp.Engine
