import Dpapp.Headed
import Dpapp.Machine
import Dpapp.Ret
import Mathlib.Data.List.Nodup

/-! # dpfsm on BSD (os/bsd/dpfsm.c, os/bsd/dpevp_kqueue.c)

The watches of one element, the events that kqueue keeps for them, and the records in the element's pipe. -/

set_option linter.unusedSectionVars false

namespace Dpapp.BsdFsm
open Dpapp.Machine Dpapp.Ret Dpapp.Headed

def dpeNomem : Dpret := -12

/-- DPFSM_MAX_WATCH -/
def maxWatch : ℕ := 64

/-- NAME_MAX -/
def nameMax : ℕ := 255

/-- History: a watch that dpfsm_addev has made, by its descriptor, its file and the name in its path. -/
structure Watch where
  wd : ℤ
  fd : ℤ
  name : List Byte
  deriving DecidableEq

/-! ### Records -/

/-- NOTE_DELETE, NOTE_WRITE, NOTE_EXTEND, NOTE_ATTRIB, NOTE_LINK, NOTE_RENAME and NOTE_REVOKE, with the bits that stand for
them in a mask. -/
def noteBits : List (BitVec 32 × BitVec 32) :=
  [(1,0x200|||0x400),(2,2),(4,2),(8,4),(0x10,0x100),(0x20,0x40|||0x80),(0x40,0x2000)]

/-- `_note_to_inotify` -/
def noteToInotify (note : BitVec 32) : BitVec 32 :=
  let mask := noteBits.foldl (fun mask x => if note &&& x.1=0 then mask else mask ||| x.2) 0
  if mask=0 then 2 else mask

/-- The header of a struct inotify_event. -/
structure Head where
  wd : BitVec 32
  mask : BitVec 32
  cookie : BitVec 32
  len : BitVec 32
  deriving DecidableEq

def Head.put (h : Head) : List Byte := word h.wd++word h.mask++word h.cookie++word h.len

def Head.get (bs : List Byte) : Head :=
  ⟨ofWord (bs.take 4),ofWord ((bs.drop 4).take 4),ofWord ((bs.drop 8).take 4),ofWord ((bs.drop 12).take 4)⟩

theorem Head.get_put (h : Head) : Head.get h.put=h := by
  have hput : h.put=word h.wd++(word h.mask++(word h.cookie++word h.len)) := by
    rw [Head.put,List.append_assoc,List.append_assoc]
  have h4 : h.put.drop 4=word h.mask++(word h.cookie++word h.len) := by rw [hput,drop_word]
  have h8 : h.put.drop 8=word h.cookie++word h.len := by
    rw [show 8=4+4 from rfl,← List.drop_drop,h4,drop_word]
  have h12 : h.put.drop 12=word h.len := by
    rw [show 12=8+4 from rfl,← List.drop_drop,h8,drop_word]
  have hlen : (word h.len).take 4=word h.len := List.take_of_length_le (length_word h.len).le
  unfold Head.get
  rw [h4,h8,h12,hput,take_word,take_word,take_word,hlen,ofWord_word,ofWord_word,ofWord_word,ofWord_word]

theorem Head.length_put (h : Head) : h.put.length=16 := by
  simp only [Head.put,List.length_append,length_word]

/-- struct inotify_event, as its reader takes it from the pipe. -/
def inotifyEvent : Header Head where
  size := 16
  put := Head.put
  get := Head.get
  len h := h.len.toNat
  pos := by decide
  length_put := Head.length_put
  get_put := Head.get_put

/-! ### The watches -/

/-- dpfsm_watch_t; the name is what strlen sees of it. -/
structure Slot where
  ele : Bool := false
  wd : ℤ := 0
  fd : ℤ := 0
  name : List Byte := []
  mask : BitVec 32 := 0

/-- What kqueue keeps for a file: its event data is the address of a slot. -/
structure Knote where
  fd : ℤ
  slot : ℕ
  watch : Watch

/-- A notification that kevent has returned. -/
structure Note where
  slot : ℕ
  fflags : BitVec 32
  watch : Watch

/-- History: a record, the watch whose file has changed, and whether it had not been removed. -/
structure Written where
  head : Head
  name : List Byte
  watch : Watch
  alive : Bool

/- dpfsm_iop_t, kqueue and the pipe. History: `live` are the watches that have been added and not removed. -/
structure Sys where
  watches : ℕ → Slot := fun _ => {}
  cnt : ℕ := 0
  nextWd : ℤ := 1
  knotes : List Knote := []
  batch : List Note := []
  pipe : List Byte := []
  live : List Watch := []
  written : List Written := []

/-- What follows the last slash. -/
def baseName (path : List Byte) : List Byte := (path.reverse.takeWhile (·≠47)).reverse

/-- open, which fails or gives a descriptor. -/
inductive Opened
  | fail (errno : ℕ)
  | ok (fd : ℤ)

/-- dpfsm_addev; `reg` is what _dpevp_kq_vnode_add returns. -/
def Sys.addev (s : Sys) (path : Option (List Byte)) (mask : BitVec 32) (o : Opened) (reg : Dpret) : Sys × Dpret :=
  match path with
  | none => (s,dpeInval)
  | some path =>
      if maxWatch≤ s.cnt then (s,dpeNomem)
      else
        match o with
        | .fail errno => (s,-errno)
        | .ok fd =>
            let s' := {s with
              watches := Function.update s.watches s.cnt ⟨true,s.nextWd,fd,(baseName path).take nameMax,mask⟩
              nextWd := (s.nextWd+1).bmod (2^32)}
            if dpretIserr reg then (s',reg)
            else
              let w : Watch := ⟨s.nextWd,fd,baseName path⟩
              ({s' with cnt := s.cnt+1, knotes := s.knotes++[⟨fd,s.cnt,w⟩], live := s.live++[w]},s.nextWd)

/-- dpfsm_delev -/
def Sys.delev (s : Sys) (wd : ℤ) : Sys × Dpret :=
  match (List.range s.cnt).find? fun i => (s.watches i).wd=wd with
  | some i =>
      ({s with
        knotes := s.knotes.filter fun k => k.fd≠(s.watches i).fd
        watches := if i<s.cnt-1 then Function.update s.watches i (s.watches (s.cnt-1)) else s.watches
        cnt := s.cnt-1
        live := s.live.filter fun w => w.wd≠wd},dpeOk)
  | none => (s,dpeInval)

/-- The record of a notification. -/
def record (w : Slot) (fflags : BitVec 32) : Head × List Byte :=
  (⟨BitVec.ofInt 32 w.wd,noteToInotify fflags,0,BitVec.ofNat 32 (min w.name.length nameMax)⟩,
    w.name.take (min w.name.length nameMax))

/-- `_dpfsm_kq_notify`; `ok` tells whether the pipe takes the record, which it does as a whole. -/
def Sys.notify (s : Sys) (x : Note) (ok : Bool) : Sys :=
  if (s.watches x.slot).ele=true ∧ ok=true then
    let r := record (s.watches x.slot) x.fflags
    {s with
      pipe := s.pipe++inotifyEvent.encode [r]
      written := s.written++[⟨r.1,r.2,x.watch,decide (x.watch∈s.live)⟩]}
  else s

inductive Act
  | addev (path : Option (List Byte)) (mask : BitVec 32) (o : Opened) (reg : Dpret)
  | delev (wd : ℤ)
  | fire (k : Knote) (fflags : BitVec 32)
  | notify (ok : Bool)

/-- open gives a descriptor that is not in use, and refuses a name longer than NAME_MAX. -/
def opens (s : Sys) (path : Option (List Byte)) : Opened → Prop
  | .fail errno => 0<errno
  | .ok fd => 0≤fd ∧ (∀ k∈s.knotes,k.fd≠fd) ∧ ∀ p∈path,(baseName p).length≤nameMax

instance (s : Sys) (path : Option (List Byte)) (o : Opened) : Decidable (opens s path o) := by
  unfold opens
  split <;> infer_instance

/- `fire` is kevent, which returns a notification of a file that it watches, and `notify` is what dpevp_pop does with the first
one that has been returned. -/
def step (s : Sys) : Act → Option Sys
  | .addev path mask o reg => if opens s path o then some (s.addev path mask o reg).1 else none
  | .delev wd => some (s.delev wd).1
  | .fire k fflags =>
      if ∃ j∈s.knotes,j.fd=k.fd ∧ j.slot=k.slot ∧ j.watch=k.watch then
        some {s with batch := s.batch++[⟨k.slot,fflags,k.watch⟩]}
      else none
  | .notify ok =>
      match s.batch with
      | x::batch => some ({s with batch := batch}.notify x ok)
      | [] => none

/-! ### Slots that change under their notifications -/

/-- The slot that dpfsm_addev takes is the event data of no other watch, and of no notification; dpfsm_delev removes no watch
with a notification; and the descriptors have not run out. -/
def proper (s : Sys) : Act → Prop
  | .addev (some _) _ (.ok _) _ =>
      s.cnt < maxWatch → (∀ k∈s.knotes,k.slot≠s.cnt) ∧ (∀ x∈s.batch,x.slot≠s.cnt) ∧ s.nextWd<2^31-1
  | .delev wd => ∀ x∈s.batch,x.watch.wd≠wd
  | .addev .. | .fire .. | .notify _ => True

/-- Each record has the descriptor and the name of the watch whose file has changed, which has not been removed; no two live
watches have the same descriptor; and the reader of the pipe gets the records one by one. -/
structure Right (s : Sys) : Prop where
  records : ∀ x∈s.written,x.head.wd=BitVec.ofInt 32 x.watch.wd ∧ x.name=x.watch.name ∧ x.alive=true
  distinct : (s.live.map Watch.wd).Nodup
  decodes : inotifyEvent.decode s.pipe=some (s.written.map fun x => (x.head,x.name))

/-! ### Records in the pipe -/

/-- What the pipe holds is what has been written, and each header tells the length of its name. -/
structure Stream (s : Sys) : Prop where
  pipe : s.pipe=inotifyEvent.encode (s.written.map fun x => (x.head,x.name))
  lens : ∀ x∈s.written,x.head.len.toNat=x.name.length

theorem record_len (w : Slot) (fflags : BitVec 32) : (record w fflags).1.len.toNat=(record w fflags).2.length := by
  have hmin : min w.name.length nameMax≤nameMax := Nat.min_le_right _ _
  have hsmall : nameMax<2^32 := by decide
  simp only [record,BitVec.toNat_ofNat,List.length_take]
  rw [Nat.mod_eq_of_lt (by omega)]
  omega

theorem stream_notify {s : Sys} (h : Stream s) (x : Note) (ok : Bool) : Stream (s.notify x ok) := by
  unfold Sys.notify
  split
  · refine ⟨?_,fun y hy => ?_⟩
    · simp only
      rw [h.pipe,List.map_append,encode_append]
      rfl
    · rcases List.mem_append.mp hy with hy | hy
      · exact h.lens y hy
      · rw [List.mem_singleton.mp hy]
        exact record_len _ _
  · exact h

theorem Stream.decodes {s : Sys} (h : Stream s) : inotifyEvent.decode s.pipe=some
    (s.written.map fun x => (x.head,x.name)) := by
  rw [h.pipe]
  refine decode_encode fun y hy => ?_
  obtain ⟨x,hx,rfl⟩ := List.mem_map.mp hy
  exact h.lens x hx

/-! ### Runs -/

/-- A slot has the data of a watch. -/
structure Holds (x : Slot) (w : Watch) : Prop where
  ele : x.ele=true
  wd : x.wd=w.wd
  fd : x.fd=w.fd
  name : x.name=w.name
  short : w.name.length≤nameMax

section Runs
variable {s t : Sys} {a : Act} {wd : ℤ} {x : Note}

structure Inv (s : Sys) : Prop where
  stream : Stream s
  records : ∀ x∈s.written,x.head.wd=BitVec.ofInt 32 x.watch.wd ∧ x.name=x.watch.name ∧ x.alive=true
  distinct : (s.live.map Watch.wd).Nodup
  holds : ∀ i<s.cnt,∃ w∈s.live,Holds (s.watches i) w
  once : ∀ i<s.cnt,∀ j<s.cnt,(s.watches i).wd=(s.watches j).wd → i=j
  knotes : ∀ k∈s.knotes,k.watch∈s.live ∧ k.fd=k.watch.fd ∧ Holds (s.watches k.slot) k.watch
  batch : ∀ x∈s.batch,x.watch∈s.live ∧ Holds (s.watches x.slot) x.watch
  small : 1≤ s.nextWd ∧ s.nextWd<2^31
  next : ∀ w∈s.live,w.wd<s.nextWd

theorem Inv.only (h : Inv s) {v w : Watch} (hv : v∈s.live) (hw : w∈s.live) (heq : v.wd=w.wd) : v=w :=
  List.inj_on_of_nodup_map h.distinct hv hw heq

/-- The slot that is overwritten is nobody's. -/
theorem inv_addev {path : Option (List Byte)} {mask : BitVec 32} {o : Opened} {reg : Dpret} (h : Inv s)
    (hok : proper s (.addev path mask o reg)) (ho : opens s path o) : Inv (s.addev path mask o reg).1 := by
  unfold Sys.addev
  cases path with
  | none => exact h
  | some path =>
    simp only
    split
    · exact h
    rename_i hroom
    cases o with
    | fail errno => exact h
    | ok fd =>
      obtain ⟨hknotes,hbatch,hnext⟩ := hok (not_le.mp hroom)
      have hshort := ho.2.2 path rfl
      have hwrap : (s.nextWd+1).bmod (2^32)=s.nextWd+1 := by
        have hpos := h.small.1
        rw [Int.bmod_eq_of_le (by omega) (by omega)]
      have hkeep : ∀ i≠s.cnt,Function.update s.watches s.cnt ⟨true,s.nextWd,fd,(baseName path).take nameMax,mask⟩ i=s.watches i :=
        fun i hi => Function.update_of_ne hi _ _
      simp only [hwrap]
      split
      · refine ⟨⟨h.stream.pipe,h.stream.lens⟩,h.records,h.distinct,fun i hi => ?_,fun i hi j hj => ?_,fun k hk => ?_,
          fun x hx => ?_,?_,fun w hw => ?_⟩
        · simp only
          rw [hkeep i (Nat.ne_of_lt hi)]
          exact h.holds i hi
        · simp only
          rw [hkeep i (Nat.ne_of_lt hi),hkeep j (Nat.ne_of_lt hj)]
          exact h.once i hi j hj
        · simp only
          rw [hkeep k.slot (hknotes k hk)]
          exact h.knotes k hk
        · simp only
          rw [hkeep x.slot (hbatch x hx)]
          exact h.batch x hx
        · have hsmall := h.small
          simp only
          omega
        · have hlt := h.next w hw
          simp only
          omega
      · have hfront : ∀ i<s.cnt,Function.update s.watches s.cnt ⟨true,s.nextWd,fd,(baseName path).take nameMax,mask⟩ i=s.watches i :=
          fun i hi => hkeep i (Nat.ne_of_lt hi)
        have hself : Holds (Function.update s.watches s.cnt ⟨true,s.nextWd,fd,(baseName path).take nameMax,mask⟩ s.cnt)
            ⟨s.nextWd,fd,baseName path⟩ := by
          rw [Function.update_self]
          exact ⟨rfl,rfl,rfl,List.take_of_length_le hshort,hshort⟩
        -- all descriptors in the slots so far are smaller
        have hless : ∀ i<s.cnt,(s.watches i).wd<s.nextWd := by
          intro i hi
          obtain ⟨w,hw,hholds⟩ := h.holds i hi
          rw [hholds.wd]
          exact h.next w hw
        have hcases : ∀ i<s.cnt+1,i<s.cnt ∨ i=s.cnt := fun i hi => Nat.lt_succ_iff_lt_or_eq.mp hi
        refine ⟨⟨h.stream.pipe,h.stream.lens⟩,fun x hx => ?_,?_,fun i hi => ?_,fun i hi j hj heq => ?_,fun k hk => ?_,
          fun x hx => ?_,
          ?_,fun w hw => ?_⟩
        · exact h.records x hx
        · simp only [List.map_append,List.map_singleton]
          refine List.nodup_append.mpr ⟨h.distinct,List.nodup_singleton _,fun a ha b hb hab => ?_⟩
          obtain ⟨w,hw,rfl⟩ := List.mem_map.mp ha
          rw [List.mem_singleton.mp hb] at hab
          have hlt := h.next w hw
          omega
        · rcases hcases i hi with hlt | rfl
          · obtain ⟨w,hw,hholds⟩ := h.holds i hlt
            simp only
            rw [hfront i hlt]
            exact ⟨w,List.mem_append_left _ hw,hholds⟩
          · exact ⟨_,List.mem_append_right _ List.mem_cons_self,hself⟩
        · simp only at heq
          rcases hcases i hi with hilt | rfl
          · rcases hcases j hj with hjlt | rfl
            · rw [hfront i hilt,hfront j hjlt] at heq
              exact h.once i hilt j hjlt heq
            · rw [hfront i hilt,hself.wd] at heq
              exact absurd heq (hless i hilt).ne
          · rcases hcases j hj with hjlt | rfl
            · rw [hfront j hjlt,hself.wd] at heq
              exact absurd heq.symm (hless j hjlt).ne
            · rfl
        · rcases List.mem_append.mp hk with hk | hk
          · obtain ⟨hlive,hfd,hholds⟩ := h.knotes k hk
            simp only
            rw [hkeep k.slot (hknotes k hk)]
            exact ⟨List.mem_append_left _ hlive,hfd,hholds⟩
          · rw [List.mem_singleton.mp hk]
            exact ⟨List.mem_append_right _ List.mem_cons_self,rfl,hself⟩
        · obtain ⟨hlive,hholds⟩ := h.batch x hx
          simp only
          rw [hkeep x.slot (hbatch x hx)]
          exact ⟨List.mem_append_left _ hlive,hholds⟩
        · have hsmall := h.small
          simp only
          omega
        · simp only
          rcases List.mem_append.mp hw with hw | hw
          · have hlt := h.next w hw
            omega
          · rw [List.mem_singleton.mp hw]
            exact Int.lt_succ _

/-- The last watch goes to the slot that has become free, and its own slot keeps its data. -/
theorem inv_delev (h : Inv s) (hok : proper s (.delev wd)) : Inv (s.delev wd).1 := by
  unfold Sys.delev
  cases hf : (List.range s.cnt).find? fun i => (s.watches i).wd=wd with
  | none => exact h
  | some i =>
    have hi : i<s.cnt := List.mem_range.mp (List.mem_of_find?_eq_some hf)
    have hwd : (s.watches i).wd=wd :=
      of_decide_eq_true (@List.find?_some _ (fun i => decide ((s.watches i).wd=wd)) _ _ hf)
    simp only
    generalize hW : (if i<s.cnt-1 then Function.update s.watches i (s.watches (s.cnt-1)) else s.watches)=W
    have hother : ∀ j≠i,W j=s.watches j := by
      intro j hj
      rw [← hW]
      split
      · exact Function.update_of_ne hj _ _
      · rfl
    have hstay : ∀ (slot : ℕ) (w : Watch),w.wd≠wd → Holds (s.watches slot) w → Holds (W slot) w := by
      intro slot w hne hholds
      have hslot : slot≠i := by
        rintro rfl
        exact hne (hholds.wd.symm.trans hwd)
      rw [hother slot hslot]
      exact hholds
    -- where the data of a slot come from
    have hfrom : ∀ j<s.cnt-1,∃ j'<s.cnt,W j=s.watches j' ∧ j'≠i ∧ (j≠i → j'=j) ∧ (j=i → j'=s.cnt-1) := by
      intro j hj
      rcases eq_or_ne j i with rfl | hne
      · refine ⟨s.cnt-1,by omega,?_,by omega,fun hno => (hno rfl).elim,fun _ => rfl⟩
        rw [← hW,if_pos hj,Function.update_self]
      · exact ⟨j,by omega,hother j hne,hne,fun _ => rfl,fun heq => (hne heq).elim⟩
    have hleft : ∀ w∈s.live,w.wd≠wd → w∈s.live.filter fun w => w.wd≠wd :=
      fun w hw hne => List.mem_filter.mpr ⟨hw,decide_eq_true hne⟩
    refine ⟨⟨h.stream.pipe,h.stream.lens⟩,h.records,?_,fun j hj => ?_,fun j hj k hk heq => ?_,fun k hk => ?_,fun x hx => ?_,
      h.small,fun w hw => h.next w (List.mem_filter.mp hw).1⟩
    · exact h.distinct.sublist (List.filter_sublist.map _)
    · obtain ⟨j',hj',hsame,hne,-,-⟩ := hfrom j hj
      obtain ⟨w,hw,hholds⟩ := h.holds j' hj'
      have hnot : w.wd≠wd := fun heq => hne (h.once j' hj' i hi ((hholds.wd.trans heq).trans hwd.symm))
      rw [← hsame] at hholds
      exact ⟨w,hleft w hw hnot,hholds⟩
    · obtain ⟨j',hj',hjs,-,hjo,hji⟩ := hfrom j hj
      obtain ⟨k',hk',hks,-,hko,hki⟩ := hfrom k hk
      have hsame : j'=k' := by
        refine h.once j' hj' k' hk' ?_
        rw [← hjs,← hks]
        exact heq
      have hj0 : j<s.cnt-1 := hj
      have hk0 : k<s.cnt-1 := hk
      rcases eq_or_ne j i with hj1 | hj1
      · rcases eq_or_ne k i with hk1 | hk1
        · exact hj1.trans hk1.symm
        · have hlast := hji hj1
          have hown := hko hk1
          omega
      · rcases eq_or_ne k i with hk1 | hk1
        · have hlast := hki hk1
          have hown := hjo hj1
          omega
        · exact (hjo hj1).symm.trans (hsame.trans (hko hk1))
    · obtain ⟨hk,hfd⟩ := List.mem_filter.mp hk
      obtain ⟨hlive,hkfd,hholds⟩ := h.knotes k hk
      have hne : k.watch.wd≠wd := by
        intro heq
        obtain ⟨w,hw,hw'⟩ := h.holds i hi
        have hsame := h.only hlive hw (heq.trans (hwd.symm.trans hw'.wd))
        exact of_decide_eq_true hfd (hkfd.trans ((congrArg Watch.fd hsame).trans hw'.fd.symm))
      exact ⟨hleft _ hlive hne,hkfd,hstay _ _ hne hholds⟩
    · obtain ⟨hlive,hholds⟩ := h.batch x hx
      exact ⟨hleft _ hlive (hok x hx),hstay _ _ (hok x hx) hholds⟩

theorem inv_notify {batch : List Note} (h : Inv s) (hb : s.batch=x::batch) (ok : Bool) :
    Inv ({s with batch := batch}.notify x ok) := by
  obtain ⟨hlive,hholds⟩ := h.batch x (by rw [hb]; exact List.mem_cons_self)
  have hrest : ∀ y∈batch,y.watch∈s.live ∧ Holds (s.watches y.slot) y.watch :=
    fun y hy => h.batch y (by rw [hb]; exact List.mem_cons_of_mem x hy)
  have hstream := stream_notify (s := {s with batch := batch}) ⟨h.stream.pipe,h.stream.lens⟩ x ok
  unfold Sys.notify at hstream ⊢
  split
  · rename_i hw
    rw [if_pos hw] at hstream
    refine ⟨hstream,fun y hy => ?_,h.distinct,h.holds,h.once,h.knotes,hrest,h.small,h.next⟩
    rcases List.mem_append.mp hy with hy | hy
    · exact h.records y hy
    · rw [List.mem_singleton.mp hy]
      refine ⟨?_,?_,decide_eq_true hlive⟩
      · simp only [record,hholds.wd]
      · simp only [record,hholds.name,Nat.min_eq_left hholds.short,List.take_length]
  · exact ⟨⟨h.stream.pipe,h.stream.lens⟩,h.records,h.distinct,h.holds,h.once,h.knotes,hrest,h.small,h.next⟩

theorem inv_step (h : Inv s) (hok : proper s a) (hu : step s a=some t) : Inv t := by
  cases a with
  | addev path mask o reg =>
    obtain ⟨ho,hu⟩ := Option.ite_none_right_eq_some.mp hu
    cases hu
    exact inv_addev h hok ho
  | delev wd =>
    cases hu
    exact inv_delev h hok
  | fire k fflags =>
    obtain ⟨⟨j,hj,hfd,hslot,hwatch⟩,hu⟩ := Option.ite_none_right_eq_some.mp hu
    cases hu
    refine ⟨⟨h.stream.pipe,h.stream.lens⟩,h.records,h.distinct,h.holds,h.once,h.knotes,fun x hx => ?_,h.small,h.next⟩
    rcases List.mem_append.mp hx with hx | hx
    · exact h.batch x hx
    · rw [List.mem_singleton.mp hx]
      obtain ⟨hlive,-,hholds⟩ := h.knotes j hj
      rw [hslot,hwatch] at hholds
      rw [hwatch] at hlive
      exact ⟨hlive,hholds⟩
  | notify ok =>
    simp only [step] at hu
    split at hu
    · rename_i x batch hb
      cases hu
      exact inv_notify h hb ok
    · cases hu

theorem inv_start : Inv {} :=
  ⟨⟨rfl,fun x hx => (by cases hx)⟩,fun x hx => (by cases hx),List.nodup_nil,fun i hi => (by cases hi),fun i hi =>
    (by cases hi),
    fun k hk => (by cases hk),fun x hx => (by cases hx),by decide,fun w hw => (by cases hw)⟩

theorem bsd_fsm (h : Reach step proper {} s) : Right s := by
  have hinv : Inv s := h.invariant inv_start fun _ _ _ hi hok hu => inv_step hi hok hu
  exact ⟨hinv.records,hinv.distinct,hinv.stream.decodes⟩

end Runs

instance (s : Sys) (a : Act) : Decidable (proper s a) := by
  unfold proper
  split <;> infer_instance

/-- The file a, with descriptor 3. -/
def watchA : Knote := ⟨3,0,⟨1,3,[97]⟩⟩

/-- The file b, with descriptor 4. -/
def watchB : Knote := ⟨4,1,⟨2,4,[98]⟩⟩

/-- Two files change; the second is removed, and then another one added. -/
def inTurn : List Act :=
  [.addev (some [97]) 2 (.ok 3) 0,.addev (some [47,98]) 2 (.ok 4) 0,.fire watchA 2,.fire watchB 8,.notify true,.notify true,
    .delev 2,.addev (some [99]) 2 (.ok 5) 0,.fire watchA 2,.notify true]

theorem bsd_fsm_turn : ∃ s,s.written.map (fun x => (x.head.wd,x.name))=[(1,[97]),(2,[98]),(1,[97])] ∧ Right s := by
  have hrun : ((execOk step proper {} inTurn).any fun s =>
      decide (s.written.map (fun x => (x.head.wd,x.name))=[(1,[97]),(2,[98]),(1,[97])]))=true := by
    decide +kernel
  obtain ⟨s,hs,hr⟩ := (Option.any_eq_true _ _).mp hrun
  exact ⟨s,of_decide_eq_true hr,bsd_fsm (execOk_reach hs)⟩

/-- b moves to the slot of a, and its old slot goes to c. -/
def moved : List Act :=
  [.addev (some [97]) 2 (.ok 3) 0,.addev (some [98]) 2 (.ok 4) 0,.delev 1,.addev (some [99]) 2
    (.ok 3) 0,.fire watchB 2,.notify true]

/-- A change of b is reported as one of c. -/
theorem moved_misreported : ¬∀ s,Reach step anyStep {} s → Right s := by
  intro hall
  have hrun : ((exec step {} moved).any fun s =>
      decide (s.written.map (fun x => (x.name,x.watch.name))=[([99],[98])]))=true := by
    decide +kernel
  obtain ⟨s,hs,hr⟩ := (Option.any_eq_true _ _).mp hrun
  have hnames : ∀ x∈s.written.map (fun x => (x.name,x.watch.name)),x.1=x.2 := by
    intro x hx
    obtain ⟨y,hy,rfl⟩ := List.mem_map.mp hx
    exact ((hall s (exec_reach hs)).records y hy).2.1
  rw [of_decide_eq_true hr] at hnames
  exact absurd (hnames _ List.mem_cons_self) (by decide)

end Dpapp.BsdFsm
