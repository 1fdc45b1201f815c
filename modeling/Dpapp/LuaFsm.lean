import Dpapp.StreamIo

/-! # dpfsm.lua on Linux (dpfsm.lua, os/linux/dpfsm.c, os/linux/dpasc_epoll.c)

The two tables of dpfsm.lua, the inotify instance below them, and dpfsm.read. -/

set_option linter.unusedSectionVars false

namespace Dpapp.LuaFsm
open Dpapp.Machine Dpapp.Ret
open Dpapp.StreamIo (Call dpaioBufPost int32 int32_eq)

variable {π : Type*} [DecidableEq π]

/-! ### inotify -/

/-- A watch of the kernel. History: the path that it has been appended with, and which of the appended it is. -/
structure Watch (π : Type*) where
  wd : ℤ
  path : π
  id : ℕ
  deriving DecidableEq

/-- An event of a watch, or of none (IN_Q_OVERFLOW). -/
structure Event (π : Type*) where
  watch : Option (Watch π)
  mask : BitVec 32
  cookie : BitVec 32
  name : List UInt8

def Event.wd (e : Event π) : ℤ :=
  match e.watch with
  | some w => w.wd
  | none => -1

/-- The name field: a name ends in a zero at least, and its length is a multiple of the header's. -/
def Event.field (e : Event π) : List UInt8 :=
  if e.name=[] then [] else e.name++List.replicate (16-e.name.length%16) 0

def Event.size (e : Event π) : ℤ := 16+e.field.length

/-- The events at the front of the queue that fit into `n` bytes. -/
def fitting : ℤ → List (Event π) → List (Event π)
  | _,[] => []
  | n,e::q => if e.size≤n then e::fitting (n-e.size) q else []

/-- A read of `n` bytes: what it takes off the queue, and what it answers. -/
def inotifyRead (q : List (Event π)) (n : ℤ) : List (Event π) × Call :=
  if q=[] then ([],⟨-1,11⟩)
  else if fitting n q=[] then ([],⟨-1,22⟩)
  else (fitting n q,⟨((fitting n q).map Event.size).sum,0⟩)

/-- What inotify_add_watch makes of a path: an error, a watch that there is for its file, or a new one. -/
inductive Added
  | fail (errno : ℕ)
  | same (wd : ℤ)
  | fresh (wd : ℤ)

/-! ### The tables -/

def dpeNotexists : Dpret := -157

/-- What dpfsm.read returns. -/
structure Info (π : Type*) where
  mask : BitVec 32
  cookie : BitVec 32
  name : List UInt8
  path : Option π

/-- History: an event that dpfsm.read has returned, and the path of its watch if that was still appended. -/
structure Told (π : Type*) where
  event : Event π
  info : Info π
  own : Option π

/- `read` is a dpfsm.read that goes on, with the local `total` of `_dpaio_buf_post` while it runs, and `buf` what it has stored
in fsm_info. History: `watched` are the watches that have been appended and not removed, `raised` all events. -/
structure Sys (π : Type*) where
  pathWd : π → Option ℤ := fun _ => none
  wdPath : ℤ → Option π := fun _ => none
  watches : List (Watch π) := []
  queue : List (Event π) := []
  read : Option (Option ℤ) := none
  buf : List (Event π) := []
  made : ℕ := 0
  watched : List (Watch π) := []
  raised : List (Event π) := []
  told : List (Told π) := []

def Sys.raise (s : Sys π) (e : Event π) : Sys π := {s with queue := s.queue++[e], raised := s.raised++[e]}

/-- IN_IGNORED -/
def ignored (w : Watch π) : Event π := ⟨some w,0x8000,0,[]⟩

/-- The kernel drops a watch. -/
def Sys.drop (s : Sys π) (w : Watch π) : Sys π := {s with watches := s.watches.filter (·≠w)}.raise (ignored w)

/-- dpfsm_delev -/
def Sys.delev (s : Sys π) (wd : ℤ) : Sys π × Dpret :=
  match s.watches.find? (·.wd=wd) with
  | some w => (s.drop w,dpeOk)
  | none => (s,dpeInval)

/-- Both tables forget a path. -/
def Sys.forget (s : Sys π) (path : π) (wd : ℤ) : Sys π :=
  {s with
    pathWd := Function.update s.pathWd path none
    wdPath := Function.update s.wdPath wd none
    watched := s.watched.filter (·.path≠path)}

def Sys.enter (s : Sys π) (path : π) (wd : ℤ) : Sys π :=
  {s with
    pathWd := Function.update s.pathWd path (some wd)
    wdPath := Function.update s.wdPath wd (some path)
    made := s.made+1
    watched := ⟨wd,path,s.made⟩::s.watched}

/-- dpfsm.append before its dpfsm_addev. -/
def Sys.renew (s : Sys π) (path : π) : Sys π :=
  match s.pathWd path with
  | some wd => (s.delev wd).1.forget path wd
  | none => s

/-- dpfsm.append; the path is what path.fullpath has made of it, and none where the arguments are refused. -/
def Sys.append (s : Sys π) : Option π → Added → Sys π × Dpret
  | none,_ => (s,dpeInval)
  | some path,.fail errno => (s.renew path,-errno)
  | some path,.same wd => ((s.renew path).enter path wd,dpeOk)
  | some path,.fresh wd =>
      let s := s.renew path
      ({s with watches := ⟨wd,path,s.made⟩::s.watches}.enter path wd,dpeOk)

/-- dpfsm.remove -/
def Sys.remove (s : Sys π) : Option π → Sys π × Dpret
  | none => (s,dpeInval)
  | some path =>
      match s.pathWd path with
      | some wd => ((s.delev wd).1.forget path wd,(s.delev wd).2)
      | none => (s,dpeNotexists)

/-! ### dpfsm.read -/

/-- ffi.sizeof of notinfo -/
def notinfo : ℤ := 16+1024

/-- The fields of fsm_info, where this event is the first in it. -/
def Sys.info (s : Sys π) (e : Event π) : Info π := ⟨e.mask,e.cookie,e.field.take (min 1024 e.field.length),s.wdPath e.wd⟩

/-- The path of an event's watch. -/
def Sys.own (s : Sys π) (e : Event π) : Option π :=
  e.watch.bind fun w => if w∈s.watched then some w.path else none

/-- dpgfd_read has ended. -/
def Sys.returned (s : Sys π) (ret : Dpret) : Sys π :=
  match s.buf with
  | e::_ =>
      if dpretIsok ret then {s with read := none, buf := [], told := s.told++[⟨e,s.info e,s.own e⟩]}
      else {s with read := none, buf := []}
  | [] => {s with read := none}

inductive Act (π : Type*)
  | append (path : Option π) (x : Added)
  | remove (path : Option π)
  | raise (e : Event π)
  | gone (w : Watch π)
  | read
  | wake
  | call

/-- What inotify_add_watch can answer. -/
def answers (s : Sys π) : Added → Prop
  | .fail errno => 0<errno
  | .same wd => ∃ w∈s.watches,w.wd=wd
  | .fresh wd => 0≤wd ∧ ∀ w∈s.watches,w.wd≠wd

instance (s : Sys π) (x : Added) : Decidable (answers s x) := by
  unfold answers
  split <;> infer_instance

/-- The post function runs, and no Lua code. -/
def Sys.posting (s : Sys π) : Bool :=
  match s.read with
  | some (some _) => true
  | _ => false

/- `raise` is an event of a watch that there is, or of none, and `gone` the end of a watched file. `wake` enters the post
function, and `call` is a read(2) of its loop. -/
def step (s : Sys π) : Act π → Option (Sys π)
  | .append path x =>
      if s.posting=false ∧ (path=none ∨ answers ((path.map s.renew).getD s) x) then some (s.append path x).1 else none
  | .remove path => if s.posting=false then some (s.remove path).1 else none
  | .raise e => if ∀ w∈e.watch,w∈s.watches then some (s.raise e) else none
  | .gone w => if w∈s.watches then some (s.drop w) else none
  | .read => if s.posting=false then some {s with read := some none} else none
  | .wake => if s.read=some none then some {s with read := some (some 0)} else none
  | .call =>
      match s.read with
      | some (some total) =>
          let x := inotifyRead s.queue (notinfo-total)
          let s := {s with queue := s.queue.drop x.1.length, buf := s.buf++x.1}
          match dpaioBufPost notinfo ∅ total x.2 with
          | (total,none) => some {s with read := some (some total)}
          | (_,some p) => some (if p.ret=dpeWait then {s with read := some none} else s.returned p.ret)
      | _ => none

/-! ### Events that are lost or change their watch -/

/-- No event has a name, a post function finds one event and no second one comes before it ends, and a path that is appended
gets a descriptor that neither the tables nor the events in the queue have. -/
def proper (s : Sys π) : Act π → Prop
  | .append (some _) (.fresh wd) => s.wdPath wd=none ∧ ∀ e∈s.queue,e.wd≠wd
  | .append (some _) (.same _) => False
  | .raise e => e.name=[]
  | .call => s.buf.length+s.queue.length≤1
  | .append none _ | .append _ (.fail _) | .remove _ | .gone _ | .read | .wake => True

/-- The tables are inverse to each other, all events have been returned or wait, in their order, and each with what is its
own. -/
structure Right (s : Sys π) : Prop where
  inverse : ∀ path wd,s.pathWd path=some wd ↔ s.wdPath wd=some path
  order : s.raised=s.told.map Told.event++s.buf++s.queue
  told : ∀ x∈s.told,x.info=⟨x.event.mask,x.event.cookie,x.event.name,x.own⟩

section Events
variable {e : Event π} {s : Sys π}

/-- The name of an event that has one is returned with zeros. -/
theorem info_name (h : e.name≠[]) (hlen : e.name.length<1008) : (s.info e).name≠e.name := by
  intro heq
  have hlen' : (s.info e).name.length=e.name.length := congrArg List.length heq
  simp only [Sys.info,Event.field,if_neg h,List.length_take,List.length_append,List.length_replicate] at hlen'
  omega

theorem field_plain (h : e.name=[]) : e.field=[] := if_pos h

theorem size_plain (h : e.name=[]) : e.size=16 := by
  unfold Event.size
  rw [field_plain h]
  rfl

end Events

/-! ### Runs -/

section Runs
variable {s t : Sys π} {e : Event π} {w : Watch π} {path : π} {wd : ℤ}

structure Inv (s : Sys π) : Prop extends Right s where
  watched : ∀ path wd,s.wdPath wd=some path ↔ ∃ w∈s.watched,w.wd=wd ∧ w.path=path
  only : ∀ v∈s.watched,∀ w∈s.watched,v.wd=w.wd → v=w
  nonneg : ∀ w∈s.watched,0≤w.wd
  live : ∀ w∈s.watches,w∈s.watched
  queued : ∀ e∈s.buf++s.queue,e.name=[] ∧ ∀ w∈e.watch,∀ v∈s.watched,v.wd=w.wd → v=w
  read : s.buf=[] ∨ ∃ e,s.buf=[e] ∧ s.read=some (some 16)
  total : ∀ total,s.read=some (some total) → total=16*s.buf.length

/-- The lookup by the descriptor of an event gives the path of its own watch. -/
theorem Inv.path_own (h : Inv s) (he : e∈s.buf++s.queue) : s.wdPath e.wd=s.own e := by
  unfold Sys.own
  cases hw : e.watch with
  | none =>
    have hwd : e.wd=-1 := by
      unfold Event.wd
      rw [hw]
    rw [hwd]
    refine Option.eq_none_iff_forall_ne_some.mpr fun path hpath => ?_
    obtain ⟨w,hmem,hneg,-⟩ := (h.watched path (-1)).mp hpath
    have hpos := h.nonneg w hmem
    omega
  | some w =>
    have hwd : e.wd=w.wd := by
      unfold Event.wd
      rw [hw]
    rw [hwd,Option.bind_some]
    split
    · rename_i hmem
      exact (h.watched w.path w.wd).mpr ⟨w,hmem,rfl,rfl⟩
    · rename_i hmem
      refine Option.eq_none_iff_forall_ne_some.mpr fun path hpath => ?_
      obtain ⟨v,hv,hvwd,-⟩ := (h.watched path w.wd).mp hpath
      rw [(h.queued e he).2 w hw v hv hvwd] at hv
      exact hmem hv

theorem inv_raise (h : Inv s) (hname : e.name=[]) (he : ∀ w∈e.watch,∀ v∈s.watched,v.wd=w.wd → v=w) : Inv (s.raise e) := by
  refine ⟨⟨h.inverse,?_,h.told⟩,h.watched,h.only,h.nonneg,h.live,fun e' he' => ?_,h.read,h.total⟩
  · simp only [Sys.raise,h.order,List.append_assoc]
  · simp only [Sys.raise,← List.append_assoc] at he'
    rcases List.mem_append.mp he' with he' | he'
    · exact h.queued e' he'
    · rw [List.mem_singleton.mp he']
      exact ⟨hname,he⟩

theorem inv_drop (h : Inv s) (hw : w∈s.watches) : Inv (s.drop w) := by
  have hless : Inv {s with watches := s.watches.filter (·≠w)} :=
    ⟨⟨h.inverse,h.order,h.told⟩,h.watched,h.only,h.nonneg,fun v hv => h.live v
      (List.mem_filter.mp hv).1,h.queued,h.read,h.total⟩
  refine inv_raise hless rfl fun w' hw' v hv hvw => ?_
  cases hw'
  exact h.only v hv w (h.live w hw) hvw

/-- Afterwards the kernel has no watch with this descriptor. -/
theorem inv_delev (h : Inv s) (wd : ℤ) : Inv (s.delev wd).1 ∧ (∀ w∈(s.delev wd).1.watches,w∈s.watches ∧ w.wd≠wd) ∧
    (s.delev wd).1.pathWd=s.pathWd ∧ (s.delev wd).1.wdPath=s.wdPath ∧ (s.delev wd).1.watched=s.watched := by
  unfold Sys.delev
  cases hf : s.watches.find? (·.wd=wd) with
  | none =>
    refine ⟨h,fun w hw => ⟨hw,fun heq => ?_⟩,rfl,rfl,rfl⟩
    exact List.find?_eq_none.mp hf w hw (decide_eq_true heq)
  | some w =>
    have hmem : w∈s.watches := List.mem_of_find?_eq_some hf
    have hwd : w.wd=wd := of_decide_eq_true (@List.find?_some _ (fun v : Watch π => decide (v.wd=wd)) _ _ hf)
    refine ⟨inv_drop h hmem,fun v hv => ?_,rfl,rfl,rfl⟩
    obtain ⟨hv,hne⟩ := List.mem_filter.mp hv
    refine ⟨hv,fun heq => of_decide_eq_true hne ?_⟩
    exact h.only v (h.live v hv) w (h.live w hmem) (heq.trans hwd.symm)

theorem inv_forget (h : Inv s) (hp : s.pathWd path=some wd) (hdead : ∀ w∈s.watches,w.wd≠wd) : Inv (s.forget path wd) := by
  have hback : s.wdPath wd=some path := (h.inverse path wd).mp hp
  -- the watch of the path is the one with the descriptor
  have hboth : ∀ w∈s.watched,w.path=path ↔ w.wd=wd := by
    intro w hw
    have hlook : s.wdPath w.wd=some w.path := (h.watched w.path w.wd).mpr ⟨w,hw,rfl,rfl⟩
    constructor
    · intro heq
      rw [heq] at hlook
      exact Option.some.inj (((h.inverse path w.wd).mpr hlook).symm.trans hp)
    · intro heq
      rw [heq,hback] at hlook
      exact (Option.some.inj hlook).symm
  refine ⟨⟨fun path' wd' => ?_,h.order,h.told⟩,fun path' wd' => ?_,fun v hv w hw => ?_,fun w hw => ?_,fun w hw => ?_,
    fun e he => ⟨(h.queued e he).1,fun w hw v hv => ?_⟩,h.read,h.total⟩
  · simp only [Sys.forget,Function.update_apply]
    split
    · rename_i hpath
      subst hpath
      refine ⟨fun hno => (by cases hno),fun hyes => ?_⟩
      split at hyes
      · cases hyes
      · rename_i hne
        have hwd : some wd'=some wd := ((h.inverse path' wd').mpr hyes).symm.trans hp
        exact (hne (Option.some.inj hwd)).elim
    · rename_i hpath
      split
      · rename_i hwd
        subst hwd
        refine ⟨fun hyes => ?_,fun hno => (by cases hno)⟩
        have hpath' : some path'=some path := ((h.inverse path' wd').mp hyes).symm.trans hback
        exact (hpath (Option.some.inj hpath')).elim
      · exact h.inverse path' wd'
  · simp only [Sys.forget,Function.update_apply]
    split
    · rename_i hwd
      refine ⟨fun hno => (by cases hno),fun ⟨w,hw,hwwd,_⟩ => ?_⟩
      obtain ⟨hw,hne⟩ := List.mem_filter.mp hw
      exact (of_decide_eq_true hne ((hboth w hw).mpr (hwwd.trans hwd))).elim
    · rename_i hwd
      rw [h.watched path' wd']
      constructor
      · rintro ⟨w,hw,hwwd,hwp⟩
        have hne : w.path≠path := fun heq => hwd (hwwd.symm.trans ((hboth w hw).mp heq))
        exact ⟨w,List.mem_filter.mpr ⟨hw,decide_eq_true hne⟩,hwwd,hwp⟩
      · rintro ⟨w,hw,hrest⟩
        exact ⟨w,(List.mem_filter.mp hw).1,hrest⟩
  · exact h.only v (List.mem_filter.mp hv).1 w (List.mem_filter.mp hw).1
  · exact h.nonneg w (List.mem_filter.mp hw).1
  · exact List.mem_filter.mpr ⟨h.live w hw,decide_eq_true fun heq => hdead w hw ((hboth w (h.live w hw)).mp heq)⟩
  · exact (h.queued e he).2 w hw v (List.mem_filter.mp hv).1

theorem inv_renew (h : Inv s) (path : π) : Inv (s.renew path) ∧ (s.renew path).pathWd path=none ∧
    ∀ wd,s.wdPath wd=none → (∀ e∈s.queue,e.wd≠wd) →
      (s.renew path).wdPath wd=none ∧ ∀ e∈(s.renew path).queue,e.wd≠wd := by
  unfold Sys.renew
  cases hp : s.pathWd path with
  | none => exact ⟨h,hp,fun wd hwd hq => ⟨hwd,hq⟩⟩
  | some old =>
    obtain ⟨hinv,hdead,hpath,hback,-⟩ := inv_delev h old
    refine ⟨inv_forget hinv (hpath ▸ hp) fun w hw => (hdead w hw).2,?_,fun wd hwd hq => ⟨?_,?_⟩⟩
    · simp only [Sys.forget,Function.update_self]
    · simp only [Sys.forget,Function.update_apply,hback]
      split
      · rfl
      · exact hwd
    · have hne : old≠wd := by
        rintro rfl
        rw [(h.inverse path old).mp hp] at hwd
        cases hwd
      intro e he
      simp only [Sys.forget,Sys.delev] at he
      split at he
      · rename_i w hf
        have hwold : w.wd=old := of_decide_eq_true (@List.find?_some _ (fun v : Watch π => decide (v.wd=old)) _ _ hf)
        rcases List.mem_append.mp he with he | he
        · exact hq e he
        · rw [List.mem_singleton.mp he]
          exact fun heq => hne (hwold.symm.trans heq)
      · exact hq e he

/-- A path that is not in the tables gets a descriptor that is new. -/
theorem inv_enter (h : Inv s) (hbuf : s.buf=[]) (hp : s.pathWd path=none) (hwd : s.wdPath wd=none)
    (hq : ∀ e∈s.queue,e.wd≠wd) (hpos : 0≤wd) :
    Inv ({s with watches := ⟨wd,path,s.made⟩::s.watches}.enter path wd) := by
  have hnew : ∀ w∈s.watched,w.wd≠wd := by
    intro w hw heq
    have hlook := (h.watched w.path w.wd).mpr ⟨w,hw,rfl,rfl⟩
    rw [heq,hwd] at hlook
    cases hlook
  have hpath : ∀ wd',s.wdPath wd'≠some path := by
    intro wd' heq
    rw [(h.inverse path wd').mpr heq] at hp
    cases hp
  refine ⟨⟨fun path' wd' => ?_,h.order,h.told⟩,fun path' wd' => ?_,fun v hv w hw hvw => ?_,fun w hw => ?_,fun w hw => ?_,
    fun e he => ⟨(h.queued e he).1,fun w hw v hv hvw => ?_⟩,h.read,h.total⟩
  · simp only [Sys.enter,Function.update_apply]
    split
    · rename_i hpath'
      subst hpath'
      split
      · rename_i hwd'
        exact ⟨fun _ => rfl,fun _ => congrArg some hwd'.symm⟩
      · rename_i hwd'
        exact ⟨fun heq => (hwd' (Option.some.inj heq).symm).elim,fun heq => (hpath wd' heq).elim⟩
    · rename_i hpath'
      split
      · rename_i hwd'
        subst hwd'
        refine ⟨fun heq => ?_,fun heq => (hpath' (Option.some.inj heq).symm).elim⟩
        rw [(h.inverse path' wd').mp heq] at hwd
        cases hwd
      · exact h.inverse path' wd'
  · simp only [Sys.enter,Function.update_apply]
    split
    · rename_i hwd'
      refine ⟨fun heq => ⟨_,List.mem_cons_self,hwd'.symm,Option.some.inj heq⟩,fun ⟨w,hw,hwwd,hwp⟩ => ?_⟩
      rcases List.mem_cons.mp hw with rfl | hw
      · exact congrArg some hwp
      · exact (hnew w hw (hwwd.trans hwd')).elim
    · rename_i hwd'
      rw [h.watched path' wd']
      refine ⟨fun ⟨w,hw,hrest⟩ => ⟨w,List.mem_cons_of_mem _ hw,hrest⟩,fun ⟨w,hw,hwwd,hwp⟩ => ?_⟩
      rcases List.mem_cons.mp hw with rfl | hw
      · exact (hwd' hwwd.symm).elim
      · exact ⟨w,hw,hwwd,hwp⟩
  · rcases List.mem_cons.mp hv with rfl | hv
    · rcases List.mem_cons.mp hw with rfl | hw
      · rfl
      · exact (hnew w hw hvw.symm).elim
    · rcases List.mem_cons.mp hw with rfl | hw
      · exact (hnew v hv hvw).elim
      · exact h.only v hv w hw hvw
  · rcases List.mem_cons.mp hw with rfl | hw
    · exact hpos
    · exact h.nonneg w hw
  · rcases List.mem_cons.mp hw with rfl | hw
    · exact List.mem_cons_self
    · exact List.mem_cons_of_mem _ (h.live w hw)
  · rcases List.mem_cons.mp hv with rfl | hv
    · have heq : e.wd=w.wd := by
        unfold Event.wd
        rw [hw]
      have he' : e∈s.buf++s.queue := he
      rw [hbuf] at he'
      exact (hq e he' (heq.trans hvw.symm)).elim
    · exact (h.queued e he).2 w hw v hv hvw

theorem call_waits (hr : s.read=some (some 0)) (hb : s.buf=[]) (hq : s.queue=[]) :
    step s .call=some {s with read := some none} := by
  obtain ⟨_,_,_,queue,read,buf,_,_,_,_⟩ := s
  cases hr
  cases hb
  cases hq
  rfl

theorem call_takes (hr : s.read=some (some 0)) (hb : s.buf=[]) (hq : s.queue=[e]) (hname : e.name=[]) :
    step s .call=some {s with queue := [], buf := [e], read := some (some 16)} := by
  obtain ⟨_,_,_,queue,read,buf,_,_,_,_⟩ := s
  cases hr
  cases hb
  cases hq
  have hread : inotifyRead [e] (notinfo-0)=([e],⟨16,0⟩) := by
    have hfit : fitting (notinfo-0) [e]=[e] := by
      simp only [fitting,size_plain hname]
      exact if_pos (by decide)
    unfold inotifyRead
    rw [hfit,if_neg (List.cons_ne_nil _ _),if_neg (List.cons_ne_nil _ _),List.map_singleton,List.sum_singleton,size_plain hname]
  simp only [step,hread]
  rfl

theorem call_ends (hr : s.read=some (some 16)) (hb : s.buf=[e]) (hq : s.queue=[]) :
    step s .call=some {s with read := none, buf := [], told := s.told++[⟨e,s.info e,s.own e⟩]} := by
  obtain ⟨_,_,_,queue,read,buf,_,_,_,_⟩ := s
  cases hr
  cases hb
  cases hq
  rfl

/-- Once the post function has an event it returns it, and before that it waits or takes the one that there is. -/
theorem inv_call (h : Inv s) (hone : s.buf.length+s.queue.length≤1) (hu : step s .call=some t) : Inv t := by
  obtain ⟨total,hr⟩ : ∃ total,s.read=some (some total) := by
    simp only [step] at hu
    split at hu
    · exact ⟨_,‹_›⟩
    · cases hu
  have htotal := h.total total hr
  rcases h.read with hb | ⟨e,hb,hr'⟩
  · rw [hb] at htotal
    subst htotal
    rcases List.eq_nil_or_concat s.queue with hq | ⟨q,e,hq⟩
    · rw [call_waits hr hb hq] at hu
      cases hu
      exact ⟨⟨h.inverse,h.order,h.told⟩,h.watched,h.only,h.nonneg,h.live,h.queued,.inl hb,fun total hno => (by cases hno)⟩
    · have hq' : s.queue=[e] := by
        rw [hq,hb] at hone
        simp only [List.concat_eq_append,List.length_nil,List.length_append,List.length_singleton] at hone
        rw [hq,List.length_eq_zero_iff.mp (show q.length=0 by omega)]
        rfl
      have he := h.queued e (by rw [hq']; exact List.mem_append_right _ List.mem_cons_self)
      rw [call_takes hr hb hq' he.1] at hu
      cases hu
      refine ⟨⟨h.inverse,?_,h.told⟩,h.watched,h.only,h.nonneg,h.live,fun e' he' => ?_,.inr ⟨e,rfl,rfl⟩,fun total htotal => ?_⟩
      · rw [h.order,hb,hq',List.append_nil,List.append_nil]
      · rw [List.mem_singleton.mp he']
        exact he
      · cases htotal
        rfl
  · have hq : s.queue=[] := by
      rw [hb,List.length_singleton] at hone
      exact List.length_eq_zero_iff.mp (by omega)
    rw [call_ends hr' hb hq] at hu
    cases hu
    have he : e∈s.buf++s.queue := by
      rw [hb]
      exact List.mem_append_left _ List.mem_cons_self
    refine ⟨⟨h.inverse,?_,fun x hx => ?_⟩,h.watched,h.only,h.nonneg,h.live,fun e' he' => ?_,.inl rfl,fun total hno =>
      (by cases hno)⟩
    · simp only [h.order,hb,hq,List.map_append,List.map_singleton,List.append_nil]
    · rcases List.mem_append.mp hx with hx | hx
      · exact h.told x hx
      · rw [List.mem_singleton.mp hx,← h.path_own he]
        simp only [Sys.info,field_plain (h.queued e he).1,(h.queued e he).1]
        rfl
    · rw [hq] at he'
      cases he'

theorem renew_buf (path : π) : (s.renew path).buf=s.buf := by
  unfold Sys.renew Sys.delev
  split
  · split <;> rfl
  · rfl

theorem posting_buf (h : Inv s) (hp : s.posting=false) : s.buf=[] := by
  rcases h.read with hb | ⟨e,-,hr⟩
  · exact hb
  · unfold Sys.posting at hp
    rw [hr] at hp
    cases hp

theorem inv_step {a : Act π} (h : Inv s) (hok : proper s a) (hu : step s a=some t) : Inv t := by
  cases a with
  | append path x =>
    simp only [step] at hu
    obtain ⟨⟨hposting,hans⟩,hu⟩ := Option.ite_none_right_eq_some.mp hu
    cases hu
    cases path with
    | none => exact h
    | some path =>
      obtain ⟨hinv,hp,hfree⟩ := inv_renew h path
      cases x with
      | fail errno => exact hinv
      | same wd => exact hok.elim
      | fresh wd =>
        obtain ⟨hwd,hq⟩ := hfree wd hok.1 hok.2
        have hpos : 0≤wd := by
          rcases hans with hno | ⟨hpos,-⟩
          · cases hno
          · exact hpos
        exact inv_enter hinv ((renew_buf path).trans (posting_buf h hposting)) hp hwd hq hpos
  | remove path =>
    simp only [step] at hu
    obtain ⟨hposting,hu⟩ := Option.ite_none_right_eq_some.mp hu
    cases hu
    cases path with
    | none => exact h
    | some path =>
      cases hp : s.pathWd path with
      | none =>
        simp only [Sys.remove,hp]
        exact h
      | some wd =>
        simp only [Sys.remove,hp]
        obtain ⟨hinv,hdead,hpath,-,-⟩ := inv_delev h wd
        exact inv_forget hinv (hpath ▸ hp) fun w hw => (hdead w hw).2
  | raise e =>
    obtain ⟨hw,hu⟩ := Option.ite_none_right_eq_some.mp hu
    cases hu
    exact inv_raise h hok fun w he v hv hvw => h.only v hv w (h.live w (hw w he)) hvw
  | gone w =>
    obtain ⟨hw,hu⟩ := Option.ite_none_right_eq_some.mp hu
    cases hu
    exact inv_drop h hw
  | read =>
    obtain ⟨hposting,hu⟩ := Option.ite_none_right_eq_some.mp hu
    cases hu
    exact ⟨⟨h.inverse,h.order,h.told⟩,h.watched,h.only,h.nonneg,h.live,h.queued,.inl
      (show s.buf=[] from posting_buf h hposting),
      fun total hno => (by cases hno)⟩
  | wake =>
    obtain ⟨hr,hu⟩ := Option.ite_none_right_eq_some.mp hu
    cases hu
    have hb : s.buf=[] := posting_buf h (by unfold Sys.posting; rw [hr])
    refine ⟨⟨h.inverse,h.order,h.told⟩,h.watched,h.only,h.nonneg,h.live,h.queued,.inl hb,fun total htotal => ?_⟩
    cases htotal
    rw [show ({s with read := some (some 0)} : Sys π).buf=[] from hb]
    rfl
  | call => exact inv_call h hok hu

theorem inv_start : Inv ({} : Sys π) :=
  ⟨⟨fun path wd => ⟨fun hno => (by cases hno),fun hno => (by cases hno)⟩,rfl,fun x hx => (by cases hx)⟩,
    fun path wd => ⟨fun hno => (by cases hno),fun ⟨w,hw,_⟩ => (by cases hw)⟩,fun v hv => (by cases hv),fun w hw =>
    (by cases hw),
    fun w hw => (by cases hw),fun e he => (by cases he),.inl rfl,fun total hno => (by cases hno)⟩

/-- A read that waits returns the event that has come. -/
theorem returns (h : Inv s) (hr : s.read=some none) (hq : s.queue=[e]) :
    ∃ t,Reach step proper s t ∧ t.told.map Told.event=s.told.map Told.event++[e] := by
  have hb : s.buf=[] := posting_buf h (by unfold Sys.posting; rw [hr])
  have hname := (h.queued e (by rw [hq]; exact List.mem_append_right _ List.mem_cons_self)).1
  let s₁ : Sys π := {s with read := some (some 0)}
  let s₂ : Sys π := {s₁ with queue := [], buf := [e], read := some (some 16)}
  have hwake : step s .wake=some s₁ := if_pos hr
  have htake : step s₁ .call=some s₂ := call_takes rfl hb hq hname
  have hend := @call_ends π _ s₂ e rfl rfl rfl
  have hone : s₁.buf.length+s₁.queue.length≤1 := by
    rw [show s₁.buf=[] from hb,show s₁.queue=[e] from hq]
    exact le_refl 1
  have hreach : Reach step proper s s₁ := .tail (a := .wake) .refl trivial hwake
  have htaken : Reach step proper s s₂ := .tail (a := .call) hreach hone htake
  refine ⟨_,.tail (a := .call) htaken (le_refl 1) hend,?_⟩
  simp only [List.map_append,List.map_singleton]
  rfl

theorem lua_fsm (h : Reach step proper {} s) : Right s ∧ (s.read=some none → ∀ e,s.queue=[e] →
    ∃ t,Reach step proper s t ∧ t.told.map Told.event=s.told.map Told.event++[e]) := by
  have hinv : Inv s := h.invariant inv_start fun _ _ _ hi hok hu => inv_step hi hok hu
  exact ⟨hinv.toRight,fun hr e hq => returns hinv hr hq⟩

end Runs

instance (s : Sys π) (a : Act π) : Decidable (proper s a) := by
  unfold proper
  split <;> infer_instance

/-- A file is watched, changes, is forgotten and is watched again; a read before and one after. -/
def again : List (Act ℕ) :=
  [.append (some 7) (.fresh 1),.raise ⟨some ⟨1,7,0⟩,2,0,[]⟩,.read,.wake,.call,.call,.remove (some 7),.read,.wake,.call,.call,
    .append (some 7) (.fresh 2),.raise ⟨some ⟨2,7,1⟩,2,0,[]⟩,.read,.wake,.call,.call]

theorem lua_fsm_again : ∃ s : Sys ℕ,s.told.map (fun x => (x.info.mask,x.info.path))=[(2,some 7),(0x8000,none),(2,some 7)] ∧
    Right s := by
  have hrun : ((execOk step proper {} again).any fun s =>
      decide (s.told.map (fun x => (x.info.mask,x.info.path))=[(2,some 7),(0x8000,none),(2,some 7)]))=true := by
    decide +kernel
  obtain ⟨s,hs,hr⟩ := (Option.any_eq_true _ _).mp hrun
  exact ⟨s,of_decide_eq_true hr,(lua_fsm (execOk_reach hs)).1⟩

/-- Two events of a watched file come before one read. -/
def burst : List (Act ℕ) :=
  [.append (some 7) (.fresh 1),.raise ⟨some ⟨1,7,0⟩,2,0,[]⟩,.raise ⟨some ⟨1,7,0⟩,8,0,[]⟩,.read,.wake,.call,.call]

/-- The second is lost. -/
theorem burst_lost : ¬∀ s : Sys ℕ,Reach step anyStep {} s → Right s := by
  intro hall
  have hrun : ((exec step {} burst).any fun s => decide (s.raised.length=2 ∧ s.told.length=1 ∧ s.buf.length+s.queue.length=0))=
      true := by
    decide +kernel
  obtain ⟨s,hs,hr⟩ := (Option.any_eq_true _ _).mp hrun
  obtain ⟨hraised,htold,hrest⟩ := of_decide_eq_true hr
  have horder := congrArg List.length (hall s (exec_reach hs)).order
  simp only [List.length_append,List.length_map] at horder
  omega

end Dpapp.LuaFsm
