import Dpapp.Keyed
import Dpapp.Machine
import Dpapp.Ret

/-! # TLS groups and their contexts (dpssl.c)

The groups of a thread, the SSL_CTX objects that they own and the sessions made from them. What OpenSSL and the allocator
answer is given. -/

namespace Dpapp.SslGroup
open Dpapp.Machine Dpapp.Ret Dpapp.Keyed

def dpeNomem : Dpret := -12
def dpeNotexists : Dpret := -157
def dpeInternalError : Dpret := -500

/-- The bytes of a C string. -/
abbrev Name := List ℕ

/-- `_DPSSL_DEFAULT_SNI` -/
def defaultSni : Name := "@default.sni.dpssl".toList.map Char.toNat

/-- dprole_e -/
inductive Role
  | client
  | server
  | unsure
  deriving DecidableEq

/-- dpssl_ctx_t; `sni` is null where strdup has failed. -/
structure Ctx where
  ctx : ℕ
  sni : Option Name

/-- dpssl_group_t -/
structure Group where
  id : ℕ
  name : Name
  role : Role
  ctxs : List Ctx := []
  defaultCtx : Option ℕ := none

/-- An SSL object: its SSL_CTX, and the one that it was made from. -/
structure Ssn where
  ctx : ℕ
  sessionCtx : ℕ

/- Groups and SSL_CTX objects are numbered by `next` as they are made. `frees` counts how often each has been released here,
`alpnArg` and `sniArg` are the groups that its two callbacks get. -/
structure Thread where
  groups : List Group := []
  ssns : List Ssn := []
  next : ℕ := 0
  frees : ℕ → ℕ := fun _ => 0
  alpnArg : ℕ → Option ℕ := fun _ => none
  sniArg : ℕ → Option ℕ := fun _ => none

/-! ### dpssl.c -/

section Calls
variable (s : Thread)

/-- SSL_CTX_new; the object is number `next`. -/
def Thread.newCtx : Thread :=
  {s with next := s.next+1, alpnArg := Function.update s.alpnArg s.next none, sniArg := Function.update s.sniArg s.next none}

/-- SSL_CTX_free, or free of a group -/
def Thread.free (l : List ℕ) : Thread := {s with frees := fun k => s.frees k+l.count k}

def Thread.setAlpn (k i : ℕ) : Thread := {s with alpnArg := Function.update s.alpnArg k (some i)}

def Thread.setSni (k i : ℕ) : Thread := {s with sniArg := Function.update s.sniArg k (some i)}

/-- The name that `_dpssl_group_find` and `_dpssl_group_unlink` look for. -/
def groupName : Option Name → Option Name
  | none => none
  | some n => if n=[] ∨ 31<n.length then none else some n

/-- `_dpssl_group_find` -/
def groupFind (group : Option Name) : Dpret × Option Group :=
  match groupName group with
  | none => (dpeInval,none)
  | some n =>
      match find Group.name n s.groups with
      | some g => (dpeOk,some g)
      | none => (dpeNotexists,none)

/-- `_dpssl_ctx_find` -/
def ctxFind (g : Group) (sni : Name) : Option Ctx := if sni=[] then none else find Ctx.sni (some sni) g.ctxs

/-- `_dpssl_group_add`; the group is number `next`. -/
def groupAdd (group : Option Name) (role : Role) (alloc : Bool) : Dpret × Thread :=
  match groupName group with
  | none => (dpeInval,s)
  | some n =>
      if role=.unsure then (dpeInval,s)
      else if alloc=false then (dpeNomem,s)
      else (dpeOk,{s with groups := {id := s.next, name := n.take 31, role := role}::s.groups, next := s.next+1})

/-- dpssl_add; `made` is whether `_dpssl_new_ori_ctx` succeeds. -/
def dpsslAdd (group : Option Name) (role : Role) (made alloc : Bool) : Thread × Dpret :=
  match groupFind s group with
  | (r,some _) => (s,r)
  | (r,none) =>
      if r≠dpeNotexists then (s,r)
      else if made=false then (s,dpeInternalError)
      else
        match groupAdd s.newCtx group role alloc with
        | (r,t) =>
            if r≠dpeOk then (t.free [s.next],r)
            else
              let t := if role=.server then (t.setAlpn s.next (s.next+1)).setSni s.next (s.next+1) else t
              match t.groups with
              | [] => (t,r)
              | g::l => ({t with groups := {g with defaultCtx := some s.next}::l},r)

/-- `_dpssl_group_del_all_ctx`, as far as it releases. -/
def Thread.freeCtxs (g : Group) : Thread := s.free (g.ctxs.map Ctx.ctx)

/-- `_dpssl_group_free` -/
def Thread.freeGroup (g : Group) : Thread := ((s.freeCtxs g).free g.defaultCtx.toList).free [g.id]

/-- dpssl_del -/
def dpsslDel (group : Option Name) : Thread × Dpret :=
  match groupName group with
  | none => (s,dpeInval)
  | some n =>
      match unlink Group.name n s.groups with
      | none => (s,dpeNotexists)
      | some (g,l) => (Thread.freeGroup {s with groups := l} g,dpeOk)

/-- dpssl_role -/
def dpsslRole (group : Option Name) : Role :=
  match (groupFind s group).2 with
  | none => .unsure
  | some g => g.role

/-- The empty name stands for the default one. -/
def ctxName (sni : Name) : Name := if sni=[] then defaultSni else sni

/-- What a group's list of contexts is set to. -/
def Thread.setCtxs (g : Group) (l : List Ctx) : Thread :=
  {s with groups := modify Group.name g.name (fun x => {x with ctxs := l}) s.groups}

/-- dpssl_del_ctx -/
def dpsslDelCtx (group name : Option Name) : Thread × Dpret :=
  match name with
  | none => (s,dpeInval)
  | some n =>
      match groupFind s group with
      | (r,none) => (s,r)
      | (_,some g) =>
          match unlink Ctx.sni (some (ctxName n)) g.ctxs with
          | none => (s,dpeNotexists)
          | some (c,l) => ((s.setCtxs g l).free [c.ctx],dpeOk)

/-- dpssl_del_all_ctx -/
def dpsslDelAllCtx (group : Option Name) : Thread × Dpret :=
  match groupFind s group with
  | (_,none) => (s,dpeOk)
  | (_,some g) => ((s.setCtxs g []).freeCtxs g,dpeOk)

/-- dpssl_add_ctx; `keyed` is what `_dpssl_use_crt_key` returns, `alloc` and `dup` are calloc and strdup of `_dpssl_ctx_add`. -/
def dpsslAddCtx (group sni : Option Name) (made : Bool) (keyed : Dpret) (alloc dup : Bool) : Thread × Dpret :=
  match sni with
  | none => (s,dpeInval)
  | some n =>
      match groupFind s group with
      | (r,none) => (s,r)
      | (_,some g) =>
          if g.role≠.server then (s,dpePerm)
          else
            match ctxFind g (ctxName n) with
            | some _ => (s,dpeOk)
            | none =>
                if made=false then (s,dpeInternalError)
                else if keyed≠dpeOk then (s.newCtx.free [s.next],keyed)
                else
                  let t := s.newCtx.setAlpn s.next g.id
                  if alloc=false then (t.free [s.next],dpeNomem)
                  else (t.setCtxs g (⟨s.next,if dup=true then some (ctxName n) else none⟩::g.ctxs),dpeOk)

/-- dpssl_get_ctx -/
def dpsslGetCtx (group sni : Option Name) : Option ℕ :=
  match groupFind s group with
  | (_,none) => none
  | (_,some g) =>
      match sni with
      | none => g.defaultCtx
      | some n =>
          if n=[] then (ctxFind g defaultSni).map Ctx.ctx
          else
            match ctxFind g n with
            | some c => some c.ctx
            | none => (ctxFind g defaultSni).map Ctx.ctx

/-- `_dpssl_sni_select`, with the name that the client has sent; none is a fatal alert. -/
def sniSelect (g : Group) (name : Option Name) : Option ℕ :=
  let n := name.getD []
  if n=[] then (ctxFind g defaultSni).map Ctx.ctx
  else
    match ctxFind g n with
    | some c => some c.ctx
    | none => (ctxFind g defaultSni).map Ctx.ctx

/-- `_dpssl_client_uinit` and `_dpssl_server_uinit` -/
def dpsslSsnUinit (role : Role) (group : Option Name) (sslNew bioNew : Bool) : Thread × Dpret :=
  match groupFind s group with
  | (r,none) => (s,r)
  | (_,some g) =>
      if g.role≠role then (s,dpeInval)
      else
        match g.defaultCtx with
        | none => (s,dpeInternalError)
        | some k =>
            -- without a BIO the new SSL is freed again
            if sslNew=false ∨ bioNew=false then (s,dpeInternalError) else ({s with ssns := ⟨k,k⟩::s.ssns},dpeOk)

/-- dpssl_thrd_exit -/
def dpsslThrdExit : List Group → Thread → Thread
  | [],s => {s with groups := []}
  | g::l,s => dpsslThrdExit l (Thread.freeGroup {s with groups := l} g)

end Calls

/-! ### Sessions -/

section Sessions
variable (s : Thread)

/-- The groups that the callbacks of an object get. -/
def args (k : ℕ) : List ℕ := (s.alpnArg k).toList++(s.sniArg k).toList

/-- The groups that the callbacks of a session can get. -/
def reach (x : Ssn) : List ℕ := args s x.ctx++args s x.sessionCtx

/-- The servername callback of a handshake: a session whose group is not there any more is not defined. -/
def handshake (x : Ssn) (name : Option Name) : Option Ssn :=
  match (s.sniArg x.ctx).or (s.sniArg x.sessionCtx) with
  | none => some x
  | some i =>
      match s.groups.find? fun g => decide (g.id=i) with
      | none => none
      | some g => some (match sniSelect g name with
          | none => x
          | some k => {x with ctx := k})

end Sessions

inductive Act
  | add (group : Option Name) (role : Role) (made alloc : Bool)
  | del (group : Option Name)
  | addCtx (group sni : Option Name) (made : Bool) (keyed : Dpret) (alloc dup : Bool)
  | delCtx (group sni : Option Name)
  | delAllCtx (group : Option Name)
  | session (role : Role) (group : Option Name) (sslNew bioNew : Bool)
  | sessionEnd (i : ℕ)
  | handshake (i : ℕ) (name : Option Name)
  | thrdExit

def step (s : Thread) : Act → Option Thread
  | .add group role made alloc => some (dpsslAdd s group role made alloc).1
  | .del group => some (dpsslDel s group).1
  | .addCtx group sni made keyed alloc dup => some (dpsslAddCtx s group sni made keyed alloc dup).1
  | .delCtx group sni => some (dpsslDelCtx s group sni).1
  | .delAllCtx group => some (dpsslDelAllCtx s group).1
  | .session role group sslNew bioNew => some (dpsslSsnUinit s role group sslNew bioNew).1
  | .sessionEnd i => some {s with ssns := s.ssns.eraseIdx i}
  | .handshake i name =>
      match s.ssns[i]? with
      | none => none
      | some x => (handshake s x name).map fun y => {s with ssns := s.ssns.set i y}
  | .thrdExit => some (dpsslThrdExit s.groups s)

/-! ### The map -/

/-- A group as a map from server names to contexts, with a default entry. -/
structure Entry where
  role : Role
  groupCtx : Option ℕ
  ctxs : Name → Option ℕ
  default : Option ℕ

abbrev Map := Name → Option Entry

def Entry.at (e : Entry) (sni : Name) : Option ℕ := if sni=[] then e.default else e.ctxs sni

def Entry.put (e : Entry) (sni : Name) (k : Option ℕ) : Entry :=
  if sni=[] then {e with default := k} else {e with ctxs := Function.update e.ctxs sni k}

/-- The context of a name; none is the group's own. -/
def Map.get (m : Map) (group sni : Option Name) : Option ℕ :=
  match group.bind m,sni with
  | none,_ => none
  | some e,none => e.groupCtx
  | some e,some n => (e.at n).or e.default

def Map.role (m : Map) (group : Option Name) : Role := ((group.bind m).map Entry.role).getD .unsure

/-- A call that succeeds changes the map; a context that it makes is `k`. -/
def mapStep (m : Map) (k : ℕ) : Act → Map
  | .add (some n) role made alloc =>
      if 1≤n.length ∧ n.length≤31 ∧ m n=none ∧ made=true ∧ role≠.unsure ∧ alloc=true then
        Function.update m n (some ⟨role,some k,fun _ => none,none⟩)
      else m
  | .del (some n) => Function.update m n none
  | .addCtx (some n) (some sni) made keyed alloc _ =>
      match m n with
      | none => m
      | some e =>
          if e.role=.server ∧ e.at sni=none ∧ made=true ∧ keyed=dpeOk ∧ alloc=true then
            Function.update m n (some (e.put sni (some k)))
          else m
  | .delCtx (some n) (some sni) =>
      match m n with
      | none => m
      | some e => Function.update m n (some (e.put sni none))
  | .delAllCtx (some n) =>
      match m n with
      | none => m
      | some e => Function.update m n (some {e with ctxs := fun _ => none, default := none})
  | .thrdExit => fun _ => none
  | _ => m

/-- The thread beside the map. -/
def both (x : Thread × Map) (a : Act) : Option (Thread × Map) := (step x.1 a).map fun t => (t,mapStep x.2 x.1.next a)

/-! ### What holds -/

/-- What a group owns. -/
def Group.held (g : Group) : List ℕ := g.id::g.defaultCtx.toList++g.ctxs.map Ctx.ctx

def held (s : Thread) : List ℕ := s.groups.flatMap Group.held

structure Sound (s : Thread) (m : Map) : Prop where
  lookup : ∀ group sni,dpsslGetCtx s group sni=m.get group sni
  role : ∀ group,dpsslRole s group=m.role group
  select : ∀ g∈ s.groups,∀ name,sniSelect g (some name)=dpsslGetCtx s (some g.name) (some name)
  released : ∀ k,k<s.next → s.frees k=if k∈held s then 0 else 1
  reaches : ∀ x∈ s.ssns,∀ i∈reach s x,∃ g∈ s.groups,g.id=i

/-- The internal name of the default entry is not used from outside, strdup does not fail, and a group is deleted when there
is no session any more whose callbacks get it. -/
def fits (s : Thread) : Act → Prop
  | .addCtx _ sni _ _ _ dup => sni≠some defaultSni ∧ dup=true
  | .delCtx _ sni => sni≠some defaultSni
  | .del group => ∀ g∈(groupFind s group).2,∀ x∈ s.ssns,g.id∉reach s x
  | .thrdExit => ∀ g∈ s.groups,∀ x∈ s.ssns,g.id∉reach s x
  | .add .. | .delAllCtx .. | .session .. | .sessionEnd .. | .handshake .. => True

/-- A group's entry in the map. -/
def Group.entry (g : Group) : Entry where
  role := g.role
  groupCtx := g.defaultCtx
  ctxs n := if n=[] ∨ n=defaultSni then none else (find Ctx.sni (some n) g.ctxs).map Ctx.ctx
  default := (find Ctx.sni (some defaultSni) g.ctxs).map Ctx.ctx

structure Inv (s : Thread) (m : Map) : Prop where
  names : (s.groups.map Group.name).Nodup
  valid : ∀ g∈ s.groups,groupName (some g.name)=some g.name
  snis : ∀ g∈ s.groups,(g.ctxs.map Ctx.sni).Nodup
  balanced : ∀ k,s.frees k+(held s).count k=if k<s.next then 1 else 0
  args : ∀ g∈ s.groups,∀ k∈ g.defaultCtx.toList++g.ctxs.map Ctx.ctx,∀ i∈args s k,i=g.id
  alive : ∀ x∈ s.ssns,∀ i∈reach s x,∃ g∈ s.groups,g.id=i
  old : ∀ x∈ s.ssns,x.ctx<s.next ∧ x.sessionCtx<s.next
  agree : ∀ n,(find Group.name n s.groups).map Group.entry=m n

section Lookups
variable {s : Thread} {m : Map} {g : Group} {n : Name} {group sni : Option Name} {k : ℕ}

theorem defaultSni_ne : defaultSni≠[] := by decide

/-- `_dpssl_group_find` by the name and what is there. -/
theorem groupFind_cases (s : Thread) (group : Option Name) :
    (∃ n g,group=some n ∧ groupName group=some n ∧ find Group.name n s.groups=some g ∧ groupFind s group=(dpeOk,some g)) ∨
    (∃ n,group=some n ∧ groupName group=some n ∧ find Group.name n s.groups=none ∧ groupFind s group=(dpeNotexists,none)) ∨
    (groupName group=none ∧ groupFind s group=(dpeInval,none)) := by
  unfold groupFind
  cases group with
  | none => exact .inr (.inr ⟨rfl,rfl⟩)
  | some n =>
    unfold groupName
    by_cases hn : n=[] ∨ 31<n.length
    · simp only [if_pos hn]
      exact .inr (.inr ⟨trivial,trivial⟩)
    · simp only [if_neg hn]
      cases hfind : find Group.name n s.groups with
      | none => exact .inr (.inl ⟨n,rfl,rfl,hfind,rfl⟩)
      | some g => exact .inl ⟨n,g,rfl,rfl,hfind,rfl⟩

/-- A name that is refused is in no map. -/
theorem agree_refused (h : Inv s m) (hn : groupName group=none) : group.bind m=none := by
  cases group with
  | none => rfl
  | some n =>
    change m n=none
    rw [← h.agree n]
    cases hfind : find Group.name n s.groups with
    | none => rfl
    | some g =>
      obtain ⟨hg,rfl⟩ := find_some hfind
      rw [h.valid g hg] at hn
      cases hn

theorem agree_none (h : Inv s m) (hfind : find Group.name n s.groups=none) : m n=none := by
  rw [← h.agree n,hfind]
  rfl

theorem agree_some (h : Inv s m) (hfind : find Group.name n s.groups=some g) : m n=some g.entry := by
  rw [← h.agree n,hfind]
  rfl

/-- The context chosen for a name, as the two functions choose it. -/
theorem choose_eq (g : Group) (n : Name) : (if n=[] then (ctxFind g defaultSni).map Ctx.ctx
    else match ctxFind g n with
      | some c => some c.ctx
      | none => (ctxFind g defaultSni).map Ctx.ctx)=(g.entry.at n).or g.entry.default := by
  have hdefault : (ctxFind g defaultSni).map Ctx.ctx=g.entry.default := by
    rw [ctxFind,if_neg defaultSni_ne]
    rfl
  rw [hdefault]
  unfold Entry.at
  by_cases hnil : n=[]
  · rw [if_pos hnil,if_pos hnil,Option.or_self]
  rw [if_neg hnil,if_neg hnil]
  by_cases hdef : n=defaultSni
  · have hat : g.entry.ctxs n=none := if_pos (.inr hdef)
    rw [hat,Option.none_or,← hdefault,hdef]
    cases ctxFind g defaultSni <;> rfl
  · have hat : g.entry.ctxs n=(ctxFind g n).map Ctx.ctx := by
      rw [ctxFind,if_neg hnil]
      exact if_neg (not_or.mpr ⟨hnil,hdef⟩)
    rw [hat]
    cases ctxFind g n <;> rfl

theorem getCtx_found {r : Dpret} (hfind : groupFind s group=(r,some g)) :
    dpsslGetCtx s group (some n)=(g.entry.at n).or g.entry.default := by
  unfold dpsslGetCtx
  rw [hfind]
  exact choose_eq g n

theorem getCtx_eq (h : Inv s m) : dpsslGetCtx s group sni=m.get group sni := by
  rcases groupFind_cases s group with ⟨n,g,rfl,-,hfind,hcall⟩ | ⟨n,rfl,-,hfind,hcall⟩ | ⟨hname,hcall⟩
  · have hm : (some n).bind m=some g.entry := agree_some h hfind
    unfold Map.get
    rw [hm]
    cases sni with
    | none =>
      unfold dpsslGetCtx
      rw [hcall]
      rfl
    | some x => exact getCtx_found hcall
  · have hm : (some n).bind m=none := agree_none h hfind
    unfold dpsslGetCtx Map.get
    rw [hm,hcall]
  · unfold dpsslGetCtx Map.get
    rw [agree_refused h hname,hcall]

theorem role_eq (h : Inv s m) : dpsslRole s group=m.role group := by
  unfold dpsslRole Map.role
  rcases groupFind_cases s group with ⟨n,g,rfl,-,hfind,hcall⟩ | ⟨n,rfl,-,hfind,hcall⟩ | ⟨hname,hcall⟩
  · have hm : (some n).bind m=some g.entry := agree_some h hfind
    rw [hm,hcall]
    rfl
  · have hm : (some n).bind m=none := agree_none h hfind
    rw [hm,hcall]
    rfl
  · rw [agree_refused h hname,hcall]
    rfl

theorem select_eq (h : Inv s m) (hg : g∈ s.groups) : sniSelect g (some n)=dpsslGetCtx s (some g.name) (some n) := by
  have hcall : groupFind s (some g.name)=(dpeOk,some g) := by
    unfold groupFind
    rw [h.valid g hg]
    simp only [find_mem h.names hg]
  rw [getCtx_found hcall]
  exact choose_eq g n

theorem lt_next (h : Inv s m) (hk : k∈held s) : k<s.next := by
  have hb := h.balanced k
  have hpos := List.count_pos_iff.mpr hk
  by_contra hno
  rw [if_neg hno] at hb
  omega

theorem sound_of_inv (h : Inv s m) : Sound s m where
  lookup _ _ := getCtx_eq h
  role _ := role_eq h
  select _ hg _ := select_eq h hg
  released k hk := by
    have hb := h.balanced k
    rw [if_pos hk] at hb
    by_cases hheld : k∈held s
    · have hpos := List.count_pos_iff.mpr hheld
      rw [if_pos hheld]
      omega
    · rw [List.count_eq_zero_of_not_mem hheld] at hb
      rw [if_neg hheld]
      exact hb
  reaches := h.alive

end Lookups

section Updates
variable {s t : Thread} {m m' : Map} {g : Group} {n : Name} {group : Option Name} {k : ℕ} {a b : List Group} {l : List Ctx}

theorem owned_mem (hg : g∈ s.groups) (hk : k∈g.defaultCtx.toList++g.ctxs.map Ctx.ctx) : k∈held s :=
  List.mem_flatMap.mpr ⟨g,hg,List.mem_cons_of_mem _ hk⟩

theorem reach_congr (hold : ∀ k,k<s.next → args t k=args s k) {x : Ssn} (hx : x.ctx<s.next ∧ x.sessionCtx<s.next) :
    reach t x=reach s x := by
  unfold reach
  rw [hold _ hx.1,hold _ hx.2]

/-- The sessions after a change of the groups. -/
theorem ssns_kept (h : Inv s m) (hssns : t.ssns=s.ssns) (hnext : s.next≤t.next) (hold : ∀ k,k<s.next → args t k=args s k)
    (hids : ∀ x∈ s.ssns,∀ i∈reach s x,∀ g∈ s.groups,g.id=i → ∃ g'∈t.groups,g'.id=i) :
    (∀ x∈t.ssns,∀ i∈reach t x,∃ g∈t.groups,g.id=i) ∧ ∀ x∈t.ssns,x.ctx<t.next ∧ x.sessionCtx<t.next := by
  rw [hssns]
  constructor
  · intro x hx i hi
    rw [reach_congr hold (h.old x hx)] at hi
    obtain ⟨g,hg,hgi⟩ := h.alive x hx i hi
    exact hids x hx i hi g hg hgi
  · intro x hx
    obtain ⟨hctx,hssn⟩ := h.old x hx
    exact ⟨by omega,by omega⟩

/-- An object that is made and released again. -/
theorem inv_waste (h : Inv s m) (hgroups : t.groups=s.groups) (hssns : t.ssns=s.ssns) (hnext : t.next=s.next+1)
    (hfrees : ∀ k,t.frees k=s.frees k+[s.next].count k) (hold : ∀ k,k<s.next → args t k=args s k) : Inv t m := by
  have hheld : held t=held s := by
    unfold held
    rw [hgroups]
  obtain ⟨halive,hbelow⟩ := ssns_kept h hssns (by omega) hold fun x _ i _ g hg hgi => ⟨g,by rw [hgroups]; exact hg,hgi⟩
  refine ⟨?_,?_,?_,fun k => ?_,?_,halive,hbelow,?_⟩
  · rw [hgroups]
    exact h.names
  · rw [hgroups]
    exact h.valid
  · rw [hgroups]
    exact h.snis
  · have hb := h.balanced k
    rw [hheld,hfrees,hnext,List.count_singleton]
    split at hb <;> split <;> split <;> simp_all <;> omega
  · rw [hgroups]
    intro g hg k hk
    rw [hold k (lt_next h (owned_mem hg hk))]
    exact h.args g hg k hk
  · rw [hgroups]
    exact h.agree

/-- A group in front of the others. -/
theorem inv_push (h : Inv s m) (hname : groupName (some n)=some n) (hfind : find Group.name n s.groups=none)
    (hgroups : t.groups=g::s.groups) (hg : g.name=n ∧ g.id=s.next+1 ∧ g.defaultCtx=some s.next ∧ g.ctxs=[])
    (hssns : t.ssns=s.ssns) (hnext : t.next=s.next+2) (hfrees : t.frees=s.frees)
    (hold : ∀ k,k<s.next → args t k=args s k) (hargs : ∀ i∈args t s.next,i=s.next+1) :
    Inv t (Function.update m n (some ⟨g.role,some s.next,fun _ => none,none⟩)) := by
  obtain ⟨rfl,hid,hdefault,hctxs⟩ := hg
  obtain ⟨halive,hbelow⟩ := ssns_kept h hssns (by omega) hold
    fun x _ i _ g hg hgi => ⟨g,by rw [hgroups]; exact List.mem_cons_of_mem _ hg,hgi⟩
  have hheld : held t=[s.next+1,s.next]++held s := by
    unfold held
    rw [hgroups,List.flatMap_cons,Group.held,hid,hdefault,hctxs]
    rfl
  refine ⟨?_,?_,?_,fun k => ?_,?_,halive,hbelow,fun x => ?_⟩
  · rw [hgroups,List.map_cons,List.nodup_cons]
    exact ⟨find_eq_none.mp hfind,h.names⟩
  · rw [hgroups]
    exact List.forall_mem_cons.mpr ⟨hname,h.valid⟩
  · rw [hgroups]
    refine List.forall_mem_cons.mpr ⟨?_,h.snis⟩
    rw [hctxs]
    exact List.nodup_nil
  · have hb := h.balanced k
    rw [hheld,hfrees,hnext,List.count_append,List.count_cons,List.count_singleton]
    split at hb <;> split <;> split <;> split <;> simp_all <;> omega
  · rw [hgroups]
    refine List.forall_mem_cons.mpr ⟨?_,fun g' hg' k hk => ?_⟩
    · rw [hdefault,hctxs,hid]
      intro k hk
      rw [List.mem_singleton.mp hk]
      exact hargs
    · rw [hold k (lt_next h (owned_mem hg' hk))]
      exact h.args g' hg' k hk
  · rw [hgroups,find_cons]
    by_cases hx : g.name=x
    · subst hx
      rw [if_pos rfl,Function.update_self]
      unfold Group.entry
      simp only [Option.map_some,hdefault,hctxs,find_nil,Option.map_none,ite_self]
    · rw [if_neg hx,Function.update_of_ne (Ne.symm hx)]
      exact h.agree x

/-- Another list of contexts of one group. -/
theorem inv_ctxs (h : Inv s m) (hfind : find Group.name n s.groups=some g)
    (hgroups : t.groups=modify Group.name g.name (fun x => {x with ctxs := l}) s.groups)
    (hssns : t.ssns=s.ssns) (hnext : s.next≤t.next) (hold : ∀ k,k<s.next → args t k=args s k)
    (hsnis : (l.map Ctx.sni).Nodup) (hargs : ∀ k∈l.map Ctx.ctx,∀ i∈args t k,i=g.id)
    (hcount : ∀ k,t.frees k+(l.map Ctx.ctx).count k+(if k<s.next then 1 else 0)=
      s.frees k+(g.ctxs.map Ctx.ctx).count k+if k<t.next then 1 else 0) :
    Inv t (Function.update m n (some (Group.entry {g with ctxs := l}))) := by
  obtain ⟨hg,rfl⟩ := find_some hfind
  obtain ⟨a,b,hsplit,ha⟩ := find_split hfind
  have hgroups : t.groups=a++{g with ctxs := l}::b := by
    rw [hgroups,hsplit]
    exact modify_split rfl ha
  have hmem (x : Group) (hx : x∈t.groups) : x={g with ctxs := l} ∨ x∈ s.groups := by
    rw [hgroups,List.mem_append,List.mem_cons] at hx
    rw [hsplit,List.mem_append,List.mem_cons]
    rcases hx with hx | hx | hx
    · exact .inr (.inl hx)
    · exact .inl hx
    · exact .inr (.inr (.inr hx))
  have hnames : t.groups.map Group.name=s.groups.map Group.name := by
    rw [hgroups,hsplit,List.map_append,List.map_append,List.map_cons,List.map_cons]
  obtain ⟨halive,hbelow⟩ := ssns_kept h hssns hnext hold fun x _ i _ g' hg' hgi => by
    rw [hsplit,List.mem_append,List.mem_cons] at hg'
    rw [hgroups]
    rcases hg' with hg' | rfl | hg'
    · exact ⟨g',List.mem_append_left _ hg',hgi⟩
    · exact ⟨_,List.mem_append_right _ List.mem_cons_self,hgi⟩
    · exact ⟨g',List.mem_append_right _ (List.mem_cons_of_mem _ hg'),hgi⟩
  refine ⟨?_,fun x hx => ?_,fun x hx => ?_,fun k => ?_,fun x hx => ?_,halive,hbelow,fun x => ?_⟩
  · rw [hnames]
    exact h.names
  · rcases hmem x hx with rfl | hx
    · exact h.valid g hg
    · exact h.valid x hx
  · rcases hmem x hx with rfl | hx
    · exact hsnis
    · exact h.snis x hx
  · have hb := h.balanced k
    have hc := hcount k
    unfold held at hb ⊢
    rw [hsplit,List.flatMap_append,List.flatMap_cons,List.count_append,List.count_append,Group.held,List.count_append] at hb
    rw [hgroups,List.flatMap_append,List.flatMap_cons,List.count_append,List.count_append,Group.held,List.count_append]
    dsimp only at hb ⊢
    omega
  · intro k hk
    rcases hmem x hx with rfl | hx
    · rcases List.mem_append.mp hk with hk | hk
      · rw [hold k (lt_next h (owned_mem hg (List.mem_append_left _ hk)))]
        exact h.args g hg k (List.mem_append_left _ hk)
      · exact hargs k hk
    · rw [hold k (lt_next h (owned_mem hx hk))]
      exact h.args x hx k hk
  · have hnd := h.names
    rw [hsplit] at hnd
    rw [hgroups,@find_modify _ _ _ Group.name x g a b {g with ctxs := l} hnd rfl,← hsplit]
    by_cases hx : x=g.name
    · rw [if_pos hx,hx,Function.update_self]
      rfl
    · rw [if_neg hx,Function.update_of_ne hx]
      exact h.agree x

/-- A group that no session's callbacks get is taken out and released. -/
theorem inv_unlink (h : Inv s m) (hfind : find Group.name n s.groups=some g) (hsplit : s.groups=a++g::b)
    (hno : ∀ x∈ s.ssns,g.id∉reach s x) (hgroups : t.groups=a++b) (hssns : t.ssns=s.ssns) (hnext : t.next=s.next)
    (hfrees : ∀ k,t.frees k=s.frees k+g.held.count k) (hold : ∀ k,args t k=args s k) :
    Inv t (Function.update m n none) := by
  obtain ⟨-,rfl⟩ := find_some hfind
  have hmem (x : Group) (hx : x∈t.groups) : x∈ s.groups := by
    rw [hgroups] at hx
    rw [hsplit]
    exact (List.mem_append.mp hx).elim (List.mem_append_left _) fun hx => List.mem_append_right _ (List.mem_cons_of_mem _ hx)
  obtain ⟨halive,hbelow⟩ := ssns_kept h hssns (by omega) (fun k _ => hold k) fun x hx i hi g' hg' hgi => by
    have hne : g'≠g := fun heq => hno x hx (by rw [← heq,hgi]; exact hi)
    rw [hsplit,List.mem_append,List.mem_cons] at hg'
    rw [hgroups]
    rcases hg' with hg' | hg' | hg'
    · exact ⟨g',List.mem_append_left _ hg',hgi⟩
    · exact absurd hg' hne
    · exact ⟨g',List.mem_append_right _ hg',hgi⟩
  have hnd := h.names
  rw [hsplit] at hnd
  refine ⟨?_,fun x hx => h.valid x (hmem x hx),fun x hx => h.snis x (hmem x hx),fun k => ?_,fun x hx k hk => ?_,halive,hbelow,
    fun x => ?_⟩
  · rw [hgroups]
    exact nodup_unlink hnd
  · have hb := h.balanced k
    unfold held at hb ⊢
    rw [hsplit,List.flatMap_append,List.flatMap_cons,List.count_append,List.count_append] at hb
    rw [hgroups,List.flatMap_append,List.count_append,hfrees,hnext]
    omega
  · rw [hold k]
    exact h.args x (hmem x hx) k hk
  · rw [hgroups,find_unlink hnd,← hsplit]
    by_cases hx : x=g.name
    · rw [if_pos hx,hx,Function.update_self]
      rfl
    · rw [if_neg hx,Function.update_of_ne hx]
      exact h.agree x

theorem thrdExit_eq (l : List Group) (s : Thread) :
    dpsslThrdExit l s={s with groups := [], frees := fun k => s.frees k+(l.flatMap Group.held).count k} := by
  induction l generalizing s with
  | nil => rfl
  | cons g l ih =>
    have hfrees : (fun k => (Thread.freeGroup {s with groups := l} g).frees k+(l.flatMap Group.held).count k)=
        fun k => s.frees k+((g::l).flatMap Group.held).count k := by
      funext k
      rw [List.flatMap_cons,List.count_append,Group.held,List.count_append,List.count_cons]
      simp only [Thread.freeGroup,Thread.freeCtxs,Thread.free,List.count_singleton]
      omega
    rw [dpsslThrdExit,ih,hfrees]
    rfl

theorem inv_exit (h : Inv s m) (hno : ∀ g∈ s.groups,∀ x∈ s.ssns,g.id∉reach s x) :
    Inv (dpsslThrdExit s.groups s) fun _ => none := by
  rw [thrdExit_eq]
  refine ⟨List.nodup_nil,fun _ hg => (by cases hg),fun _ hg => (by cases hg),fun k => ?_,fun _ hg => (by cases hg),
    fun x hx i hi => ?_,h.old,fun _ => rfl⟩
  · exact h.balanced k
  · obtain ⟨g,hg,rfl⟩ := h.alive x hx i hi
    exact absurd hi (hno g hg x hx)

/-- Other sessions, whose callbacks get live groups only. -/
theorem inv_ssns (h : Inv s m) {l : List Ssn}
    (hl : ∀ x∈l,(∀ i∈reach s x,∃ g∈ s.groups,g.id=i) ∧ x.ctx<s.next ∧ x.sessionCtx<s.next) : Inv {s with ssns := l} m :=
  ⟨h.names,h.valid,h.snis,h.balanced,h.args,fun x hx => (hl x hx).1,fun x hx => (hl x hx).2,h.agree⟩

end Updates

section Calls
variable {s t : Thread} {m : Map} {g : Group} {n : Name} {group sni : Option Name} {k : ℕ}

theorem args_newCtx (hk : k<s.next) : args s.newCtx k=args s k := by
  have hne : k≠s.next := Nat.ne_of_lt hk
  simp only [args,Thread.newCtx,Function.update_of_ne hne]

theorem args_setAlpn {j i : ℕ} (hk : k≠j) : args (s.setAlpn j i) k=args s k := by
  simp only [args,Thread.setAlpn,Function.update_of_ne hk]

theorem args_setSni {j i : ℕ} (hk : k≠j) : args (s.setSni j i) k=args s k := by
  simp only [args,Thread.setSni,Function.update_of_ne hk]

theorem groupName_iff : groupName (some n)=some n ↔ 1≤n.length ∧ n.length≤31 := by
  have hnil : n=[] ↔ n.length=0 := List.length_eq_zero_iff.symm
  have hname : groupName (some n)=if n=[] ∨ 31<n.length then none else some n := rfl
  rw [hname]
  by_cases h : n=[] ∨ 31<n.length
  · rw [if_pos h]
    rw [hnil] at h
    refine iff_of_false (fun hx => ?_) (by omega)
    cases hx
  · rw [if_neg h]
    rw [hnil] at h
    exact iff_of_true rfl (by omega)

theorem groupAdd_eq {role : Role} {alloc : Bool} (hname : groupName (some n)=some n) :
    groupAdd s (some n) role alloc=if role=.unsure then (dpeInval,s) else if alloc=false then (dpeNomem,s)
      else (dpeOk,{s with groups := {id := s.next, name := n.take 31, role := role}::s.groups, next := s.next+1}) := by
  unfold groupAdd
  rw [hname]

theorem map_add_none {role : Role} {made alloc : Bool}
    (h : ¬(1≤n.length ∧ n.length≤31 ∧ m n=none ∧ made=true ∧ role≠.unsure ∧ alloc=true)) :
    mapStep m k (.add (some n) role made alloc)=m := if_neg h

theorem map_add_some {role : Role} {made alloc : Bool}
    (h : 1≤n.length ∧ n.length≤31 ∧ m n=none ∧ made=true ∧ role≠.unsure ∧ alloc=true) :
    mapStep m k (.add (some n) role made alloc)=Function.update m n (some ⟨role,some k,fun _ => none,none⟩) := if_pos h

/-- A context that is made and released again, before its callbacks are set or after. -/
theorem inv_newCtx (h : Inv s m) : Inv (s.newCtx.free [s.next]) m :=
  inv_waste h rfl rfl rfl (fun _ => rfl) fun _ hk => args_newCtx hk

theorem inv_setAlpn (h : Inv s m) (i : ℕ) : Inv ((s.newCtx.setAlpn s.next i).free [s.next]) m :=
  inv_waste h rfl rfl rfl (fun _ => rfl) fun _ hk => (args_setAlpn (Nat.ne_of_lt hk)).trans (args_newCtx hk)

theorem inv_add (h : Inv s m) (role : Role) (made alloc : Bool) :
    Inv (dpsslAdd s group role made alloc).1 (mapStep m s.next (.add group role made alloc)) := by
  unfold dpsslAdd
  rcases groupFind_cases s group with ⟨n,g,rfl,-,hfind,hcall⟩ | ⟨n,rfl,hname,hfind,hcall⟩ | ⟨hname,hcall⟩
  · have hm : m n=some g.entry := agree_some h hfind
    rw [hcall,map_add_none fun hc => by rw [hm] at hc; cases hc.2.2.1]
    exact h
  · have hm : m n=none := agree_none h hfind
    have hlen := groupName_iff.mp hname
    rw [hcall]
    simp only
    rw [if_neg (show ¬dpeNotexists≠dpeNotexists from fun hx => hx rfl)]
    by_cases hmade : made=false
    · rw [if_pos hmade,map_add_none fun hc => by rw [hmade] at hc; cases hc.2.2.2.1]
      exact h
    rw [if_neg hmade,groupAdd_eq hname]
    by_cases hrole : role=.unsure
    · rw [if_pos hrole,map_add_none fun hc => hc.2.2.2.2.1 hrole]
      simp only
      rw [if_pos (show dpeInval≠dpeOk by decide)]
      exact inv_newCtx h
    rw [if_neg hrole]
    by_cases halloc : alloc=false
    · rw [if_pos halloc,map_add_none fun hc => by rw [halloc] at hc; cases hc.2.2.2.2.2]
      simp only
      rw [if_pos (show dpeNomem≠dpeOk by decide)]
      exact inv_newCtx h
    rw [if_neg halloc,map_add_some ⟨hlen.1,hlen.2,hm,Bool.not_eq_false _ ▸ hmade,hrole,Bool.not_eq_false _ ▸ halloc⟩]
    have htake : n.take 31=n := List.take_of_length_le hlen.2
    have hnext : s.newCtx.next=s.next+1 := rfl
    simp only [htake,hnext]
    rw [if_neg (show ¬dpeOk≠dpeOk from fun hx => hx rfl)]
    by_cases hserver : role=.server
    · rw [if_pos hserver]
      refine @inv_push s _ m ⟨s.next+1,n,role,[],some s.next⟩ n h hname hfind rfl ⟨rfl,rfl,rfl,rfl⟩ rfl rfl rfl
        (fun k hk => ?_) fun i hi => ?_
      · have hne := Nat.ne_of_lt hk
        exact (args_setSni hne).trans ((args_setAlpn hne).trans (args_newCtx hk))
      · have hargs : i∈[s.next+1]++[s.next+1] := by
          simpa [args,Thread.setSni,Thread.setAlpn] using hi
        simpa using hargs
    · rw [if_neg hserver]
      refine @inv_push s _ m ⟨s.next+1,n,role,[],some s.next⟩ n h hname hfind rfl ⟨rfl,rfl,rfl,rfl⟩ rfl rfl rfl
        (fun k hk => args_newCtx hk) fun i hi => ?_
      simp [args,Thread.newCtx] at hi
  · rw [hcall]
    simp only
    rw [if_pos (show dpeInval≠dpeNotexists by decide)]
    cases group with
    | none => exact h
    | some n =>
      rw [map_add_none fun hc => by rw [groupName_iff.mpr ⟨hc.1,hc.2.1⟩] at hname; cases hname]
      exact h

theorem inv_del (h : Inv s m) (hfits : fits s (.del group)) : Inv (dpsslDel s group).1 (mapStep m s.next (.del group)) := by
  have hsame (n : Name) (hm : m n=none) : Function.update m n none=m := by
    rw [← hm]
    exact Function.update_eq_self n m
  unfold dpsslDel
  rcases groupFind_cases s group with ⟨n,g,rfl,hname,hfind,hcall⟩ | ⟨n,rfl,hname,hfind,hcall⟩ | ⟨hname,hcall⟩
  · obtain ⟨a,b,hsplit,ha⟩ := find_split hfind
    have hgn := (find_some hfind).2
    have hun : unlink Group.name n s.groups=some (g,a++b) := by
      rw [hsplit]
      exact unlink_split hgn ha
    rw [hname]
    simp only [hun,mapStep]
    refine inv_unlink h hfind hsplit (hfits g (by rw [hcall]; rfl)) rfl rfl rfl (fun k => ?_) fun _ => rfl
    rw [Group.held,List.count_append,List.count_cons]
    simp only [Thread.freeGroup,Thread.freeCtxs,Thread.free,List.count_singleton]
    omega
  · rw [hname]
    simp only [unlink_none hfind,mapStep,hsame n (agree_none h hfind)]
    exact h
  · rw [hname]
    cases group with
    | none => exact h
    | some n =>
      simp only [mapStep,hsame n (agree_refused h hname)]
      exact h

/-! ### Contexts of a group -/

theorem at_eq (hsni : n≠defaultSni) : g.entry.at n=(find Ctx.sni (some (ctxName n)) g.ctxs).map Ctx.ctx := by
  unfold Entry.at ctxName
  by_cases hnil : n=[]
  · rw [if_pos hnil,if_pos hnil]
    rfl
  · rw [if_neg hnil,if_neg hnil]
    exact if_neg (not_or.mpr ⟨hnil,hsni⟩)

/-- Contexts in which just one name is found anew. -/
theorem entry_put {l : List Ctx} (hsni : n≠defaultSni) (v : Option ℕ)
    (hl : ∀ x,(find Ctx.sni (some x) l).map Ctx.ctx=if x=ctxName n then v else (find Ctx.sni (some x) g.ctxs).map Ctx.ctx) :
    Group.entry {g with ctxs := l}=g.entry.put n v := by
  unfold Entry.put Group.entry
  by_cases hnil : n=[]
  · have hname : ctxName n=defaultSni := if_pos hnil
    rw [if_pos hnil]
    simp only [Entry.mk.injEq,true_and]
    refine ⟨funext fun x => ?_,?_⟩
    · by_cases hx : x=[] ∨ x=defaultSni
      · rw [if_pos hx,if_pos hx]
      · rw [if_neg hx,if_neg hx,hl,hname,if_neg (not_or.mp hx).2]
    · rw [hl,hname,if_pos rfl]
  · have hname : ctxName n=n := if_neg hnil
    rw [if_neg hnil]
    simp only [Entry.mk.injEq,true_and]
    refine ⟨funext fun x => ?_,?_⟩
    · by_cases hx : x=n
      · rw [hx,Function.update_self,if_neg (not_or.mpr ⟨hnil,hsni⟩),hl,hname,if_pos rfl]
      · rw [Function.update_of_ne hx,hl,hname,if_neg hx]
    · rw [hl,hname,if_neg (Ne.symm hsni)]

theorem update_same {e : Entry} (hm : m n=some e) : Function.update m n (some e)=m := by
  rw [← hm]
  exact Function.update_eq_self n m

theorem inv_delCtx (h : Inv s m) (hsni : sni≠some defaultSni) :
    Inv (dpsslDelCtx s group sni).1 (mapStep m s.next (.delCtx group sni)) := by
  cases sni with
  | none => cases group <;> exact h
  | some x =>
    have hx : x≠defaultSni := fun hx => hsni (congrArg some hx)
    unfold dpsslDelCtx
    rcases groupFind_cases s group with ⟨n,g,rfl,-,hfind,hcall⟩ | ⟨n,rfl,-,hfind,hcall⟩ | ⟨hname,hcall⟩
    · have hm : m n=some g.entry := agree_some h hfind
      have hg := (find_some hfind).1
      rw [hcall]
      simp only [mapStep,hm]
      cases hctx : find Ctx.sni (some (ctxName x)) g.ctxs with
      | none =>
        have hput : g.entry=g.entry.put x none := by
          refine @entry_put g x g.ctxs hx none fun y => ?_
          by_cases hy : y=ctxName x
          · rw [if_pos hy,hy,hctx]
            rfl
          · rw [if_neg hy]
        rw [unlink_none hctx,← hput,update_same hm]
        exact h
      | some c =>
        have hcs := (find_some hctx).2
        obtain ⟨a,b,hsplit,ha⟩ := find_split hctx
        have hun : unlink Ctx.sni (some (ctxName x)) g.ctxs=some (c,a++b) := by
          rw [hsplit]
          exact unlink_split hcs ha
        have hnd := h.snis g hg
        rw [hsplit] at hnd
        have hput : Group.entry {g with ctxs := a++b}=g.entry.put x none := by
          refine @entry_put g x (a++b) hx none fun y => ?_
          rw [find_unlink hnd,hcs,← hsplit]
          by_cases hy : y=ctxName x
          · rw [if_pos (congrArg some hy),if_pos hy]
            rfl
          · rw [if_neg fun h => hy (Option.some.inj h),if_neg hy]
        rw [hun,← hput]
        refine inv_ctxs h hfind rfl rfl (le_refl _) (fun _ _ => rfl) (nodup_unlink hnd) (fun k hk i hi => ?_) fun k => ?_
        · refine h.args g hg k (List.mem_append_right _ ?_) i hi
          rw [hsplit]
          exact ((List.sublist_cons_self c b).append_left a |>.map Ctx.ctx).subset hk
        · have hc : ((a++b).map Ctx.ctx).count k+[c.ctx].count k=(g.ctxs.map Ctx.ctx).count k := by
            rw [hsplit]
            simp only [List.map_append,List.map_cons,List.count_append,List.count_cons,List.count_nil]
            omega
          change s.frees k+[c.ctx].count k+((a++b).map Ctx.ctx).count k+(if k<s.next then 1 else 0)=
            s.frees k+(g.ctxs.map Ctx.ctx).count k+if k<s.next then 1 else 0
          omega
    · have hm : m n=none := agree_none h hfind
      rw [hcall]
      simp only [mapStep,hm]
      exact h
    · rw [hcall]
      cases group with
      | none => exact h
      | some n =>
        have hm : m n=none := agree_refused h hname
        simp only [mapStep,hm]
        exact h

theorem inv_delAllCtx (h : Inv s m) : Inv (dpsslDelAllCtx s group).1 (mapStep m s.next (.delAllCtx group)) := by
  unfold dpsslDelAllCtx
  rcases groupFind_cases s group with ⟨n,g,rfl,-,hfind,hcall⟩ | ⟨n,rfl,-,hfind,hcall⟩ | ⟨hname,hcall⟩
  · have hm : m n=some g.entry := agree_some h hfind
    have hentry : Group.entry {g with ctxs := []}={g.entry with ctxs := fun _ => none, default := none} := by
      simp [Group.entry]
    rw [hcall]
    simp only [mapStep,hm]
    rw [← hentry]
    refine inv_ctxs h hfind rfl rfl (le_refl _) (fun _ _ => rfl) List.nodup_nil (fun k hk => by cases hk) fun k => ?_
    change s.frees k+(g.ctxs.map Ctx.ctx).count k+0+(if k<s.next then 1 else 0)=_+if k<s.next then 1 else 0
    omega
  · have hm : m n=none := agree_none h hfind
    rw [hcall]
    simp only [mapStep,hm]
    exact h
  · rw [hcall]
    cases group with
    | none => exact h
    | some n =>
      have hm : m n=none := agree_refused h hname
      simp only [mapStep,hm]
      exact h

theorem map_addCtx_none {e : Entry} {x : Name} {made alloc dup : Bool} {keyed : Dpret} (hm : m n=some e)
    (h : ¬(e.role=.server ∧ e.at x=none ∧ made=true ∧ keyed=dpeOk ∧ alloc=true)) :
    mapStep m k (.addCtx (some n) (some x) made keyed alloc dup)=m := by
  simp only [mapStep,hm]
  exact if_neg h

theorem map_addCtx_some {e : Entry} {x : Name} {made alloc dup : Bool} {keyed : Dpret} (hm : m n=some e)
    (h : e.role=.server ∧ e.at x=none ∧ made=true ∧ keyed=dpeOk ∧ alloc=true) :
    mapStep m k (.addCtx (some n) (some x) made keyed alloc dup)=Function.update m n (some (e.put x (some k))) := by
  simp only [mapStep,hm]
  exact if_pos h

theorem inv_addCtx (h : Inv s m) (hsni : sni≠some defaultSni) (made : Bool) (keyed : Dpret) (alloc : Bool) :
    Inv (dpsslAddCtx s group sni made keyed alloc true).1 (mapStep m s.next (.addCtx group sni made keyed alloc true)) := by
  cases sni with
  | none => cases group <;> exact h
  | some x =>
    have hx : x≠defaultSni := fun hx => hsni (congrArg some hx)
    unfold dpsslAddCtx
    rcases groupFind_cases s group with ⟨n,g,rfl,-,hfind,hcall⟩ | ⟨n,rfl,-,hfind,hcall⟩ | ⟨hname,hcall⟩
    · have hm : m n=some g.entry := agree_some h hfind
      have hg := (find_some hfind).1
      have hne : ctxName x≠[] := by
        unfold ctxName
        split
        · exact defaultSni_ne
        · exact ‹_›
      have hctxFind : ctxFind g (ctxName x)=find Ctx.sni (some (ctxName x)) g.ctxs := if_neg hne
      have hat : g.entry.at x=(ctxFind g (ctxName x)).map Ctx.ctx := by rw [hctxFind,at_eq hx]
      rw [hcall]
      simp only
      by_cases hrole : g.role≠.server
      · rw [if_pos hrole,map_addCtx_none hm fun hc => hrole hc.1]
        exact h
      rw [if_neg hrole]
      cases hctx : ctxFind g (ctxName x) with
      | some c =>
        rw [map_addCtx_none hm fun hc => by rw [hat,hctx] at hc; cases hc.2.1]
        exact h
      | none =>
        simp only
        by_cases hmade : made=false
        · rw [if_pos hmade,map_addCtx_none hm fun hc => by rw [hmade] at hc; cases hc.2.2.1]
          exact h
        rw [if_neg hmade]
        by_cases hkeyed : keyed≠dpeOk
        · rw [if_pos hkeyed,map_addCtx_none hm fun hc => hkeyed hc.2.2.2.1]
          exact inv_newCtx h
        rw [if_neg hkeyed]
        by_cases halloc : alloc=false
        · rw [if_pos halloc,map_addCtx_none hm fun hc => by rw [halloc] at hc; cases hc.2.2.2.2]
          exact inv_setAlpn h g.id
        have hat : g.entry.at x=none := by rw [hat,hctx]; rfl
        rw [if_neg halloc,map_addCtx_some hm ⟨not_not.mp hrole,hat,Bool.not_eq_false _ ▸ hmade,not_not.mp hkeyed,
          Bool.not_eq_false _ ▸ halloc⟩]
        have hput : Group.entry {g with ctxs := ⟨s.next,some (ctxName x)⟩::g.ctxs}=g.entry.put x (some s.next) := by
          refine @entry_put g x _ hx (some s.next) fun y => ?_
          rw [find_cons]
          by_cases hy : y=ctxName x
          · rw [if_pos (congrArg some hy.symm),if_pos hy]
            rfl
          · rw [if_neg fun h => hy (Option.some.inj h).symm,if_neg hy]
        have hold (k : ℕ) (hk : k<s.next) : args (s.newCtx.setAlpn s.next g.id) k=args s k :=
          (args_setAlpn (Nat.ne_of_lt hk)).trans (args_newCtx hk)
        rw [← hput]
        change Inv ((s.newCtx.setAlpn s.next g.id).setCtxs g (⟨s.next,some (ctxName x)⟩::g.ctxs)) _
        refine inv_ctxs h hfind rfl rfl (Nat.le_succ _) hold ?_ (fun k hk i hi => ?_) fun k => ?_
        · rw [hctxFind] at hctx
          exact List.nodup_cons.mpr ⟨find_eq_none.mp hctx,h.snis g hg⟩
        · rw [List.map_cons,List.mem_cons] at hk
          rcases hk with rfl | hk
          · change i∈args (s.newCtx.setAlpn s.next g.id) s.next at hi
            simpa [args,Thread.setAlpn,Thread.newCtx] using hi
          · have hmem : k∈g.defaultCtx.toList++g.ctxs.map Ctx.ctx := List.mem_append_right _ hk
            refine h.args g hg k hmem i ?_
            rw [← hold k (lt_next h (owned_mem hg hmem))]
            exact hi
        · change s.frees k+(s.next::g.ctxs.map Ctx.ctx).count k+(if k<s.next then 1 else 0)=
            s.frees k+(g.ctxs.map Ctx.ctx).count k+if k<s.next+1 then 1 else 0
          rw [List.count_cons]
          by_cases hk : s.next=k
          · subst hk
            simp
            omega
          · have hbeq : (s.next==k)=false := beq_false_of_ne hk
            have hlt : k<s.next+1 ↔ k<s.next := by omega
            rw [hbeq,if_congr hlt rfl rfl,if_neg Bool.false_ne_true]
            omega
    · have hm : m n=none := agree_none h hfind
      rw [hcall]
      simp only [mapStep,hm]
      exact h
    · rw [hcall]
      cases group with
      | none => exact h
      | some n =>
        have hm : m n=none := agree_refused h hname
        simp only [mapStep,hm]
        exact h

/-! ### Sessions -/

/-- The callbacks of a context of a group get this group. -/
theorem args_owned (h : Inv s m) (hg : g∈ s.groups) (hk : k∈g.defaultCtx.toList++g.ctxs.map Ctx.ctx) :
    (∀ i∈args s k,∃ g∈ s.groups,g.id=i) ∧ k<s.next :=
  ⟨fun i hi => ⟨g,hg,(h.args g hg k hk i hi).symm⟩,lt_next h (owned_mem hg hk)⟩

theorem inv_session (h : Inv s m) (role : Role) (sslNew bioNew : Bool) :
    Inv (dpsslSsnUinit s role group sslNew bioNew).1 m := by
  unfold dpsslSsnUinit
  rcases groupFind_cases s group with ⟨n,g,rfl,-,hfind,hcall⟩ | ⟨n,rfl,-,hfind,hcall⟩ | ⟨hname,hcall⟩
  · have hg := (find_some hfind).1
    rw [hcall]
    simp only
    by_cases hrole : g.role≠role
    · rw [if_pos hrole]
      exact h
    rw [if_neg hrole]
    cases hdefault : g.defaultCtx with
    | none => exact h
    | some k =>
      simp only
      by_cases hfail : sslNew=false ∨ bioNew=false
      · rw [if_pos hfail]
        exact h
      rw [if_neg hfail]
      have hk : k∈g.defaultCtx.toList++g.ctxs.map Ctx.ctx := by
        rw [hdefault]
        exact List.mem_cons_self
      obtain ⟨hargs,hlt⟩ := args_owned h hg hk
      refine inv_ssns h (List.forall_mem_cons.mpr ⟨⟨fun i hi => ?_,hlt,hlt⟩,fun x hx => ⟨h.alive x hx,h.old x hx⟩⟩)
      exact (List.mem_append.mp hi).elim (hargs i) (hargs i)
  · rw [hcall]
    exact h
  · rw [hcall]
    exact h

/-- What is selected is a context of the group. -/
theorem select_mem {name : Option Name} (hsel : sniSelect g name=some k) : k∈g.ctxs.map Ctx.ctx := by
  have hfound (n : Name) (c : Ctx) (hc : ctxFind g n=some c) : c.ctx∈g.ctxs.map Ctx.ctx := by
    unfold ctxFind at hc
    split at hc
    · cases hc
    · exact List.mem_map_of_mem (find_some hc).1
  have hdefault (hd : (ctxFind g defaultSni).map Ctx.ctx=some k) : k∈g.ctxs.map Ctx.ctx := by
    obtain ⟨c,hc,rfl⟩ := Option.map_eq_some_iff.mp hd
    exact hfound _ c hc
  unfold sniSelect at hsel
  simp only at hsel
  split at hsel
  · exact hdefault hsel
  · split at hsel
    · rename_i c hc
      cases hsel
      exact hfound _ c hc
    · exact hdefault hsel

theorem inv_handshake (h : Inv s m) {i : ℕ} {x y : Ssn} {name : Option Name} (hx : s.ssns[i]?=some x)
    (hy : handshake s x name=some y) : Inv {s with ssns := s.ssns.set i y} m := by
  have hmem : x∈ s.ssns := List.mem_of_getElem? hx
  have hnew : (∀ i∈reach s y,∃ g∈ s.groups,g.id=i) ∧ y.ctx<s.next ∧ y.sessionCtx<s.next := by
    have hsame := And.intro (h.alive x hmem) (h.old x hmem)
    unfold handshake at hy
    split at hy
    · cases hy
      exact hsame
    · split at hy
      · cases hy
      · rename_i g hfound
        have hg := List.mem_of_find?_eq_some hfound
        cases hsel : sniSelect g name with
        | none =>
          rw [hsel] at hy
          cases hy
          exact hsame
        | some k =>
          rw [hsel] at hy
          cases hy
          obtain ⟨hargs,hlt⟩ := args_owned h hg (List.mem_append_right _ (select_mem hsel))
          refine ⟨fun i hi => ?_,hlt,(h.old x hmem).2⟩
          rcases List.mem_append.mp hi with hi | hi
          · exact hargs i hi
          · exact h.alive x hmem i (List.mem_append_right _ hi)
  refine inv_ssns h fun z hz => ?_
  rcases List.mem_or_eq_of_mem_set hz with hz | rfl
  · exact ⟨h.alive z hz,h.old z hz⟩
  · exact hnew

theorem inv_start : Inv {} fun _ => none :=
  ⟨List.nodup_nil,fun _ hg => (by cases hg),fun _ hg => (by cases hg),fun _ => rfl,fun _ hg => (by cases hg),
    fun _ hx => (by cases hx),fun _ hx => (by cases hx),fun _ => rfl⟩

theorem step_inv (h : Inv s m) {a : Act} (hfits : fits s a) (hu : step s a=some t) : Inv t (mapStep m s.next a) := by
  cases a with
  | add group role made alloc =>
    cases hu
    exact inv_add h role made alloc
  | del group =>
    cases hu
    exact inv_del h hfits
  | addCtx group sni made keyed alloc dup =>
    cases hu
    obtain ⟨hsni,rfl⟩ := hfits
    exact inv_addCtx h hsni made keyed alloc
  | delCtx group sni =>
    cases hu
    exact inv_delCtx h hfits
  | delAllCtx group =>
    cases hu
    exact inv_delAllCtx h
  | session role group sslNew bioNew =>
    cases hu
    exact inv_session h role sslNew bioNew
  | sessionEnd i =>
    cases hu
    refine inv_ssns h fun x hx => ?_
    have hx := List.mem_of_mem_eraseIdx hx
    exact ⟨h.alive x hx,h.old x hx⟩
  | handshake i name =>
    unfold step at hu
    simp only at hu
    split at hu
    · cases hu
    · rename_i x hx
      obtain ⟨y,hy,rfl⟩ := Option.map_eq_some_iff.mp hu
      exact inv_handshake h hx hy
  | thrdExit =>
    cases hu
    exact inv_exit h hfits

theorem groups_sound (h : Reach both (fun x a => fits x.1 a) ({},fun _ => none) (s,m)) : Sound s m := by
  have hinv : Inv (s,m).1 (s,m).2 := h.invariant (I := fun x => Inv x.1 x.2) inv_start fun x a y hi hok hu => by
    obtain ⟨t,ht,rfl⟩ := Option.map_eq_some_iff.mp hu
    exact step_inv hi hok ht
  exact sound_of_inv hinv

end Calls

instance (s : Thread) : (a : Act) → Decidable (fits s a)
  | .addCtx _ sni _ _ _ dup => inferInstanceAs (Decidable (sni≠some defaultSni ∧ dup=true))
  | .delCtx _ sni => inferInstanceAs (Decidable (sni≠some defaultSni))
  | .del group =>
      match hg : (groupFind s group).2 with
      | none => .isTrue fun _ h => by cases hg.symm.trans h
      | some g => decidable_of_iff (∀ x∈ s.ssns,g.id∉reach s x)
          ⟨fun hall _ h => by cases hg.symm.trans h; exact hall,fun hall => hall g hg⟩
  | .thrdExit => inferInstanceAs (Decidable (∀ g∈ s.groups,∀ x∈ s.ssns,g.id∉reach s x))
  | .add .. => .isTrue trivial
  | .delAllCtx _ => .isTrue trivial
  | .session .. => .isTrue trivial
  | .sessionEnd _ => .isTrue trivial
  | .handshake .. => .isTrue trivial

/-- A session takes the context of its server name, which is deleted while the session lives; the group follows when it has
ended. -/
def outlived : List Act :=
  [.add (some [97]) .server true true,.addCtx (some [97]) (some [120]) true 0 true true,.session .server (some [97]) true true,
    .handshake 0 (some [120]),.delCtx (some [97]) (some [120]),.sessionEnd 0,.del (some [97])]

theorem groups_sound_outlived : ∃ s m,s.next=3 ∧ Sound s m := by
  have hrun : ((execOk both (fun x a => fits x.1 a) ({},fun _ => none) outlived).any fun x => decide (x.1.next=3))=true := by
    decide +kernel
  obtain ⟨⟨s,m⟩,hs,hr⟩ := (Option.any_eq_true _ _).mp hrun
  exact ⟨s,m,of_decide_eq_true hr,groups_sound (execOk_reach hs)⟩

/-- A group is deleted before the session that has been made from it. -/
def dangling : List Act := [.add (some [97]) .server true true,.session .server (some [97]) true true,.del (some [97])]

theorem groups_dangling : ¬∀ s m,Reach both anyStep ({},fun _ => none) (s,m) → Sound s m := by
  intro hall
  have hrun : ((exec both ({},fun _ => none) dangling).any fun x =>
      x.1.groups.isEmpty && x.1.ssns.any fun y => decide (1∈reach x.1 y))=true := by decide +kernel
  obtain ⟨⟨s,m⟩,hs,hr⟩ := (Option.any_eq_true _ _).mp hrun
  obtain ⟨hempty,hany⟩ := (Bool.and_eq_true_iff).mp hr
  obtain ⟨x,hx,hi⟩ := List.any_eq_true.mp hany
  obtain ⟨g,hg,-⟩ := (hall s m (exec_reach hs)).reaches x hx 1 (of_decide_eq_true hi)
  have hnil : s.groups=[] := List.isEmpty_iff.mp hempty
  rw [hnil] at hg
  cases hg

end Dpapp.SslGroup
