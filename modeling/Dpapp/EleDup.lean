import Dpapp.EfdWake
import Dpapp.EleNew

/-! # Duplicating an element (os/linux/dpevp_epoll.c)

dpele_dup with the copy functions of the types, and the deletion of the two elements. What is acquired and released is kept
in two lists. -/

namespace Dpapp.EleDup
open Dpapp.Ret Dpapp.EfdWake
open Dpapp.SocketOpen (Errno)
open Dpapp.EleNew (dpeNomem)

inductive Kind | efd | usd | ctc | tmr
  deriving DecidableEq

/-- The element that is duplicated, or the new one. -/
inductive Half | source | copy
  deriving DecidableEq

/-- What has to be released once. -/
inductive Res
  | ele (h : Half)
  | fd (n : ℤ)
  | session
  | lower
  | path (n : ℕ)
  | fifo
  | stream
  | user (n : ℕ)
  deriving DecidableEq

/- aux_data by type: of the sockets, signals and the like nothing is released; an SSL session has no copy function; a FIFO has
its path, and a QUIC stream its avatar; of a type of the user's, `hook` is whether it has a copy function. -/
inductive Aux
  | plain
  | ssl
  | pip (path : Option ℕ) (unlinkOnDel : Bool)
  | stream (avatar : Bool)
  | user (hook : Bool) (res : Option ℕ)

/-- `events` are those of the type. -/
structure Ele where
  kind : Kind
  events : Evts := evtAio
  fd : ℤ
  able : Evts := ∅
  want : Evts := ∅
  poll : Evts := ∅
  isClose : Bool := true
  doing : Bool := false
  aux : Aux

/-- `file` is what a descriptor refers to, `reg` the element that epoll reports for it. `fault` is whether freed memory has been
written. -/
structure World where
  file : ℤ → Option ℕ
  reg : ℤ → Option Half
  acquired : List Res := []
  released : List Res := []
  fault : Bool := false

def World.acquire (w : World) (l : List Res) : World := {w with acquired := w.acquired++l}
def World.release (w : World) (l : List Res) : World := {w with released := w.released++l}

/-- What the calls of dpele_dup answer: strdup with a string, dup with a descriptor, a user's copy function with what its copy
has acquired. -/
structure Answers where
  alloc : Bool := true
  strdup : Option ℕ
  hook : Except {r : Dpret // r<0} (Option ℕ)
  dup : Except Errno ℕ
  watch : Option Errno := none
  watchSelf : Option Errno := none

/-- `_dpele_new`; the bytes of toid, fromid and stat are those of fd. -/
def dpeleNew (kind : Kind) (events : Evts) : Ele where
  kind := kind
  events := events
  fd := match kind with
    | .efd => -1
    | .usd | .tmr => 0
    | .ctc => 65535
  poll := if kind=.efd then events else ∅
  aux := .plain

/-- The copy function, or memcpy: the source's aux_data, the copy's, and what has been acquired. -/
def copyAux (a : Answers) : Aux → Except Dpret (Aux × Aux × List Res)
  | .plain => .ok (.plain,.plain,[])
  | .ssl => .ok (.ssl,.ssl,[])
  -- _dppip_copy
  | .pip none u => .ok (.pip none u,.pip none false,[])
  | .pip (some p) u =>
      match a.strdup with
      | some q => .ok (.pip (some p) u,.pip (some q) false,[.path q])
      | none => .error dpeNomem
  -- _dpqic_stream_copy
  | .stream true => .error dpePerm
  | .stream false => .ok (.stream true,.stream true,[])
  | .user false res => .ok (.user false res,.user false res,[])
  | .user true res =>
      match a.hook with
      | .ok res' => .ok (.user true res,.user true res',(res'.map Res.user).toList)
      | .error r => .error r.1

/-- dpele_dup -/
def dpeleDup (self : Ele) (a : Answers) (w : World) : World × Ele × Option Ele :=
  if self.kind=.efd ∧ self.fd<0 then (w,self,none)
  else if self.doing=true then (w,self,none)
  else if a.alloc=false then (w,self,none)
  else
    let w := w.acquire [.ele .copy]
    let ele := dpeleNew self.kind self.events
    match copyAux a self.aux with
    | .error _ => (w.release [.ele .copy],self,none)
    | .ok (aux,aux',res) =>
        let w := w.acquire res
        let self := {self with aux := aux}
        let ele := {ele with aux := aux'}
        if (0 : ℤ)≤ele.fd then
          match a.dup with
          | .error _ => (w.release [.ele .copy],self,none)
          | .ok n =>
              let w := {w.acquire [.fd n] with file := Function.update w.file n (w.file self.fd)}
              let ele := {ele with fd := (n : ℤ), poll := self.poll\evtAin}
              match a.watch with
              -- ERR: the element is freed, its descriptor and aux_data are not
              | some _ => (w.release [.ele .copy],self,none)
              | none =>
                  let w := {w with reg := Function.update w.reg n (some .copy)}
                  let self := {self with poll := self.poll\{.out}}
                  let w := if a.watchSelf.isNone then {w with reg := Function.update w.reg self.fd (some .source)} else w
                  (w,self,some {ele with want := ∅, able := self.able\evtAin})
        else (w,self,some ele)

/-! ### Deleting the two -/

/-- The fini functions; `other` is the other element. -/
def fini (w : World) (other : Ele) (freed : Bool) : Aux → World × Ele
  | .plain => (w,other)
  | .ssl => (w.release [.session,.lower],other)
  | .pip path unlinkOnDel =>
      ((if unlinkOnDel=true ∧ path.isSome then w.release [.fifo] else w).release (path.map Res.path).toList,other)
  -- _dpqic_stream_clean
  | .stream true => ({w with fault := w.fault || freed},{other with aux := .stream false})
  | .stream false => (w.release [.stream],other)
  | .user _ res => (w.release (res.map Res.user).toList,other)

/-- `_dpele_del` of one of the two; `freed` is whether the other has been freed. -/
def dpeleDel (w : World) (h : Half) (e other : Ele) (freed : Bool) : World × Ele :=
  let w := if e.kind=.efd ∧ 0≤e.fd then
      let w := {w with reg := Function.update w.reg e.fd none}
      if e.isClose=true then {w.release [.fd e.fd] with file := Function.update w.file e.fd none} else w
    else w
  match fini w other freed e.aux with
  | (w,other) => (w.release [.ele h],other)

/-- Both elements are deleted, the source first or the copy. -/
def deleteBoth (w : World) (source copy : Ele) (first : Half) : World :=
  match first with
  | .source =>
      match dpeleDel w .source source copy false with
      | (w,copy) => (dpeleDel w .copy copy source true).1
  | .copy =>
      match dpeleDel w .copy copy source false with
      | (w,source) => (dpeleDel w .source source copy true).1

/-! ### A sound pair -/

/-- What a live element refers to and has to release. -/
def Ele.resources (e : Ele) (h : Half) : List Res :=
  .ele h::(if e.kind=.efd ∧ 0≤e.fd ∧ e.isClose=true then [.fd e.fd] else [])++
    match e.aux with
    | .plain | .stream true => []
    | .ssl => [.session,.lower]
    | .pip path unlinkOnDel => (if unlinkOnDel=true ∧ path.isSome then [.fifo] else [])++(path.map Res.path).toList
    | .stream false => [.stream]
    | .user _ res => (res.map Res.user).toList

/-- dpele_dup has failed: the source, the registrations and what descriptors refer to are as before, and all that has been
acquired is released once. -/
structure Failed (w w' : World) (e e' : Ele) : Prop where
  source : e'=e
  reg : w'.reg=w.reg
  once : ∀ r,w'.released.count r=w'.acquired.count r

/-- It has succeeded. -/
structure Pair (w' : World) (e e' ele : Ele) : Prop where
  fd : e.kind=.efd → 0≤ele.fd ∧ ele.fd≠e.fd ∧ e'.fd=e.fd ∧ w'.file ele.fd=w'.file e.fd
  poll : e.kind=.efd → e'.poll=e.poll\{.out} ∧ ele.poll=e.poll\evtAin
  able : e.kind=.efd → e'.able∩evtAio=e.able∩evtAin ∧ ele.able∩evtAio=e.able∩{.out}
  -- the one that is left still has all that it refers to
  left : (∀ r∈ ele.resources .copy,r∉ (dpeleDel w' .source e' ele false).1.released) ∧
    ∀ r∈ e'.resources .source,r∉ (dpeleDel w' .copy ele e' false).1.released
  once : ∀ first r,(deleteBoth w' e' ele first).released.count r=(w'.acquired++e.resources .source).count r
  valid : ∀ first,(deleteBoth w' e' ele first).fault=false

def Sound (w : World) (self : Ele) (x : World × Ele × Option Ele) : Prop :=
  match x with
  | (w',self',none) => Failed w w' self self'
  | (w',self',some ele) => Pair w' self self' ele

/-- The copy function fails. -/
def refuses (a : Answers) : Aux → Prop
  | .pip (some _) _ => a.strdup=none
  | .stream avatar => avatar=true
  | .user true _ => ∃ r,a.hook=.error r
  | .plain | .ssl | .pip none _ | .user false _ => False

/-- The copy function has acquired nothing and not changed the source. -/
def traceless (a : Answers) : Aux → Prop
  | .plain | .ssl | .pip none _ | .user false _ => True
  | .user true _ => a.hook=.ok none
  | .pip (some _) _ | .stream _ => False

/-- dpele_dup fails, and nothing has been acquired by then but the element. -/
def fails (self : Ele) (a : Answers) : Prop :=
  self.kind=.efd ∧ self.fd<0 ∨ self.doing=true ∨ a.alloc=false ∨ refuses a self.aux ∨
    self.kind≠.efd ∧ traceless a self.aux ∧ ∃ e,a.dup=.error e

section
variable {self e other : Ele} {a : Answers} {w : World} {file : ℤ → Option ℕ} {reg : ℤ → Option Half} {n : ℤ}

theorem fini_fd (freed : Bool) (x : Aux) (h : .fd n∉ w.released) : .fd n∉ (fini w other freed x).1.released := by
  have hadd {v : World} {l : List Res} (hv : .fd n∉ v.released) (hl : .fd n∉ l) : .fd n∉ (v.release l).released :=
    fun hmem => (List.mem_append.mp hmem).elim hv hl
  cases x with
  | plain => exact h
  | ssl => exact hadd h (by simp)
  | pip path unlinkOnDel =>
    have hpath : .fd n∉ (path.map Res.path).toList := by cases path <;> simp
    unfold fini
    by_cases hunlink : unlinkOnDel=true ∧ path.isSome=true
    · simp only [if_pos hunlink]
      exact hadd (hadd h (by simp)) hpath
    · simp only [if_neg hunlink]
      exact hadd h hpath
  | stream avatar =>
    cases avatar with
    | true => exact h
    | false => exact hadd h (by simp)
  | user hook res =>
    have hres : .fd n∉ (res.map Res.user).toList := by cases res <;> simp
    exact hadd h hres

theorem fini_kind (freed : Bool) (x : Aux) : (fini w other freed x).2.kind=other.kind := by
  cases x with
  | plain | ssl | pip | user => rfl
  | stream avatar => cases avatar <;> rfl

/-- Only an EFD gives its descriptor back. -/
theorem del_fd (hkind : e.kind≠.efd) (h : Half) (freed : Bool) (hn : .fd n∉ w.released) :
    .fd n∉ (dpeleDel w h e other freed).1.released ∧ (dpeleDel w h e other freed).2.kind=other.kind := by
  unfold dpeleDel
  rw [if_neg fun hefd => hkind hefd.1]
  refine ⟨fun hmem => ?_,fini_kind freed e.aux⟩
  rcases List.mem_append.mp hmem with hmem | hmem
  · exact fini_fd freed e.aux hn hmem
  · cases List.mem_singleton.mp hmem

theorem both_fd (hkind : e.kind≠.efd) (hother : other.kind≠.efd) (hn : .fd n∉ w.released) :
    .fd n∉ (deleteBoth w e other .source).released := by
  obtain ⟨hfirst,hkeep⟩ := @del_fd e other w n hkind .source false hn
  have hsecond : (dpeleDel w .source e other false).2.kind≠.efd := by
    rw [hkeep]
    exact hother
  exact (del_fd hsecond .copy true hfirst).1

theorem copyAux_refuses (a : Answers) (x : Aux) : refuses a x ∧ (∃ r,copyAux a x=.error r) ∨
    ¬refuses a x ∧ ∃ y z res,copyAux a x=.ok (y,z,res) ∧ (traceless a x ∧ y=x ∧ res=[] ∨ ¬traceless a x ∧ (y≠x ∨ res≠[])) ∧
      .ele .copy∉ res := by
  cases x with
  | plain => exact .inr ⟨id,_,_,_,rfl,.inl ⟨trivial,rfl,rfl⟩,List.not_mem_nil⟩
  | ssl => exact .inr ⟨id,_,_,_,rfl,.inl ⟨trivial,rfl,rfl⟩,List.not_mem_nil⟩
  | pip path u =>
    cases path with
    | none => exact .inr ⟨id,_,_,_,rfl,.inl ⟨trivial,rfl,rfl⟩,List.not_mem_nil⟩
    | some p =>
      simp only [copyAux,refuses,traceless]
      cases a.strdup with
      | none => exact .inl ⟨rfl,_,rfl⟩
      | some q => exact .inr ⟨fun h => (by cases h),_,_,_,rfl,.inr ⟨id,.inr (List.cons_ne_nil _ _)⟩,by simp⟩
  | stream avatar =>
    cases avatar with
    | true => exact .inl ⟨rfl,_,rfl⟩
    | false => exact .inr ⟨Bool.noConfusion,_,_,_,rfl,.inr ⟨id,.inl (by simp)⟩,List.not_mem_nil⟩
  | user hook res =>
    cases hook with
    | false => exact .inr ⟨id,_,_,_,rfl,.inl ⟨trivial,rfl,rfl⟩,List.not_mem_nil⟩
    | true =>
      simp only [copyAux,refuses,traceless]
      cases a.hook with
      | error r => exact .inl ⟨⟨r,rfl⟩,_,rfl⟩
      | ok res' =>
        refine .inr ⟨fun ⟨_,h⟩ => (by cases h),_,_,_,rfl,?_,by cases res' <;> simp⟩
        cases res' with
        | none => exact .inl ⟨rfl,rfl,rfl⟩
        | some m => exact .inr ⟨fun h => (by cases h),.inr (List.cons_ne_nil _ _)⟩

/-- dpele_dup beyond its checks, of an element other than an EFD. -/
theorem dup_late (hkind : self.kind≠.efd) (hdoing : self.doing=false) (halloc : a.alloc=true) {y z : Aux} {res : List Res}
    (hcopy : copyAux a self.aux=.ok (y,z,res)) :
    (∃ e,a.dup=.error e) ∧ dpeleDup self a {file := file, reg := reg}=
        ({file := file, reg := reg, acquired := .ele .copy::res, released := [.ele .copy]},{self with aux := y},none) ∨
      (¬∃ e,a.dup=.error e) ∧ ∃ (n : ℕ) (w' : World) (self' : Ele) (r : Option Ele),
        dpeleDup self a {file := file, reg := reg}=(w',self',r) ∧ .fd n∈ w'.acquired ∧ .fd n∉ w'.released ∧
          self'.kind≠.efd ∧ ∀ ele,r=some ele → ele.kind≠.efd := by
  have hfd : (0 : ℤ)≤(dpeleNew self.kind self.events).fd := by
    unfold dpeleNew
    cases hk : self.kind with
    | efd => exact absurd hk hkind
    | usd | tmr => exact (by decide : (0 : ℤ)≤0)
    | ctc => exact (by decide : (0 : ℤ)≤65535)
  have hnot : ¬self.doing=true := by
    rw [hdoing]
    decide
  have hyes : ¬a.alloc=false := by
    rw [halloc]
    decide
  unfold dpeleDup
  rw [if_neg fun h => hkind h.1,if_neg hnot,if_neg hyes]
  simp only [hcopy,if_pos hfd]
  cases a.dup with
  | error e => exact .inl ⟨⟨e,rfl⟩,rfl⟩
  | ok n =>
    refine .inr ⟨fun ⟨_,h⟩ => (by cases h),n,?_⟩
    cases a.watch with
    | some e =>
      refine ⟨_,_,_,rfl,List.mem_append_right _ (List.mem_singleton_self _),fun hmem => ?_,hkind,fun _ h => (by cases h)⟩
      cases List.mem_singleton.mp hmem
    | none =>
      refine ⟨_,_,_,rfl,?_,?_,hkind,fun ele h => ?_⟩
      · split <;> exact List.mem_append_right _ (List.mem_singleton_self _)
      · split <;> exact List.not_mem_nil
      · cases h
        exact hkind

theorem failed_same : Failed {file := file, reg := reg} {file := file, reg := reg} self self := ⟨rfl,rfl,fun _ => rfl⟩

theorem dup_sound (self : Ele) (a : Answers) (file : ℤ → Option ℕ) (reg : ℤ → Option Half) :
    Sound {file := file, reg := reg} self (dpeleDup self a {file := file, reg := reg}) ↔ fails self a := by
  by_cases hnofd : self.kind=.efd ∧ self.fd<0
  · rw [dpeleDup,if_pos hnofd]
    exact iff_of_true failed_same (.inl hnofd)
  by_cases hdoing : self.doing=true
  · rw [dpeleDup,if_neg hnofd,if_pos hdoing]
    exact iff_of_true failed_same (.inr (.inl hdoing))
  by_cases halloc : a.alloc=false
  · rw [dpeleDup,if_neg hnofd,if_neg hdoing,if_pos halloc]
    exact iff_of_true failed_same (.inr (.inr (.inl halloc)))
  rw [fails,or_iff_right hnofd,or_iff_right hdoing,or_iff_right halloc]
  rcases copyAux_refuses a self.aux with ⟨href,r,hcopy⟩ | ⟨href,y,z,res,hcopy,htrace,hres⟩
  · have hrun : dpeleDup self a {file := file, reg := reg}=
        ({file := file, reg := reg, acquired := [.ele .copy], released := [.ele .copy]},self,none) := by
      rw [dpeleDup,if_neg hnofd,if_neg hdoing,if_neg halloc]
      simp only [hcopy]
      rfl
    rw [hrun]
    exact iff_of_true ⟨rfl,rfl,fun _ => rfl⟩ (.inl href)
  rw [or_iff_right href]
  by_cases hkind : self.kind=.efd
  · -- the new element has no descriptor, so that none is duplicated
    refine iff_of_false ?_ fun h => h.1 hkind
    have hfd : ¬(0 : ℤ)≤(dpeleNew self.kind self.events).fd := by
      rw [hkind]
      exact (by decide : ¬(0 : ℤ)≤ -1)
    rw [dpeleDup,if_neg hnofd,if_neg hdoing,if_neg halloc]
    simp only [hcopy,if_neg hfd]
    exact fun h => hfd (h.fd hkind).1
  rw [and_iff_right hkind]
  rcases @dup_late self a file reg hkind (Bool.not_eq_true _ ▸ hdoing) (Bool.not_eq_false _ ▸ halloc) _ _ _ hcopy with
    ⟨hdup,hrun⟩ | ⟨hdup,n,w',self',r,hrun,hgot,hkept,hkind',hcopykind⟩
  · rw [hrun,and_iff_left hdup]
    rcases htrace with ⟨htrace,hy,hnil⟩ | ⟨htrace,hleft⟩
    · rw [hy,hnil]
      exact iff_of_true ⟨rfl,rfl,fun _ => rfl⟩ htrace
    · refine iff_of_false (fun h => ?_) htrace
      rcases hleft with hy | hnil
      · exact hy (congrArg Ele.aux h.source)
      · obtain ⟨x,l,rfl⟩ := List.exists_cons_of_ne_nil hnil
        have hcount : List.count x [Res.ele .copy]=List.count x (.ele .copy::x::l) := h.once x
        have hx : x≠.ele .copy := fun hx => hres (hx ▸ List.mem_cons_self)
        rw [List.count_cons_of_ne hx.symm,List.count_cons_of_ne hx.symm,List.count_nil,List.count_cons_self] at hcount
        omega
  · rw [hrun]
    refine iff_of_false (fun h => ?_) fun h => hdup h.2
    cases r with
    | none =>
      have hcount := h.once (.fd n)
      have hpos := List.count_pos_iff.mpr hgot
      rw [List.count_eq_zero.mpr hkept] at hcount
      omega
    | some ele =>
      -- deleting it does not close the descriptor
      have hcount := h.once .source (.fd n)
      have hpos := List.count_pos_iff.mpr hgot
      rw [List.count_eq_zero.mpr (both_fd hkind' (hcopykind ele rfl) hkept),List.count_append] at hcount
      omega

end

/-- A connected TCP element: the new one gets no descriptor. -/
theorem dup_sound_tcp : ¬∀ (self : Ele) (a : Answers) (file : ℤ → Option ℕ) (reg : ℤ → Option Half),
    Sound {file := file, reg := reg} self (dpeleDup self a {file := file, reg := reg}) := by
  intro h
  have hpair : Pair _ _ _ _ := h {kind := .efd, fd := 5, able := {.inp,.out}, poll := evtAio, aux := .plain}
    {strdup := none, hook := .ok none, dup := .ok 6} (fun _ => some 0) fun _ => some .source
  exact absurd (hpair.fd rfl).1 (by decide)

end Dpapp.EleDup
