import Dpapp.Instances
import Dpapp.Ret
import Dpapp.Dpbuf
import Mathlib.Algebra.BigOperators.Group.List.Basic

/-! # The thread layout (dpapp.c, os/dpevp_pri.c)

From the argument vector to the table of counts, from the table to the ids of each thread type, and from a `toid` to an
id of the layout. -/

namespace Dpapp.ThreadLayout
open Dpapp.Ret
open Dpapp.Dpbuf (wrap)

def dpeNomem : Dpret := -12

/-! ### Arguments -/

def dpappTypeMax : ℕ := 64

def fitsInt (x : ℤ) : Prop := -2^31≤x ∧ x<2^31

instance (x : ℤ) : Decidable (fitsInt x) := inferInstanceAs (Decidable (_ ∧ _))

theorem wrap_fits (x : ℤ) : fitsInt (wrap x) := by
  unfold fitsInt wrap
  have hlow := Int.le_bmod (x := x) (m := 2^32) (by decide)
  have hhigh := Int.bmod_lt (x := x) (m := 2^32) (by decide)
  omega

theorem wrap_of_fits {x : ℤ} (h : fitsInt x) : wrap x=x := by
  unfold fitsInt at h
  unfold wrap
  exact Int.bmod_eq_of_le (by omega) (by omega)

/-- `dpapp_arg_t`. The table has an entry for each of the 64 types, and the modules that set `type_count` check that it
is no more than that (dpcwc.c, dpcpp.cc, dplua.c). -/
structure DpappArg where
  argv : List String := []
  machineId : ℤ := 0
  typeCount : ℤ := 1
  eachCount : List ℤ
  cpuoff : ℤ := 0
  logLevel : ℤ := 2
  logTsacc : ℤ := 0
  rootDir : Option String := none
  logFile : Option String := none
  binFile : Option String := none
  sized : eachCount.length=dpappTypeMax
  ints : ∀ c∈eachCount,fitsInt c
  typeMax : typeCount≤dpappTypeMax

def dpappArgInit : DpappArg where
  eachCount := List.replicate dpappTypeMax 1
  logFile := some "/dev/stdout"
  sized := List.length_replicate
  ints := fun c hc => by
    cases List.eq_of_mem_replicate hc
    decide
  typeMax := by decide

/-- What the program asks of the system. `alloc` tells which of the allocations of `dpapp_init` succeed. -/
inductive Site
  | eachCount | eachIds | master | ids (i : ℕ) | evps | threads | rootDir | binFile

structure Host where
  findExecutable : String → Option String
  isDir : String → Bool
  absolutePath : String → String
  dirname : String → String
  alloc : Site → Bool

def isSpace (c : Char) : Bool := c.toNat=32 || (9≤c.toNat && c.toNat≤13)

def digits (v : List Char) : ℕ := (v.takeWhile Char.isDigit).foldl (fun n c => n*10+(c.toNat-48)) 0

/-- strtol, which stops at the ends of long, cast to int. -/
def atoi (v : List Char) : ℤ :=
  let long (x : ℤ) : ℤ := max (-2^63) (min (2^63-1) x)
  match v.dropWhile isSpace with
  | '-'::v => wrap (long (-digits v))
  | '+'::v => wrap (long (digits v))
  | v => wrap (long (digits v))

theorem atoi_fits (v : List Char) : fitsInt (atoi v) := by
  unfold atoi
  split <;> exact wrap_fits _

def dplogNamel (n : String) : ℤ :=
  match n.toLower with
  | "debug" => 0
  | "info" => 1
  | "notice" => 2
  | "warning" => 3
  | "error" => 4
  | _ => 5

/-- `oarg->each_count[n]=c` -/
def DpappArg.setCount (oarg : DpappArg) (n : ℕ) (c : ℤ) (hc : fitsInt c) : DpappArg :=
  {oarg with
    eachCount := oarg.eachCount.set n c
    sized := (List.length_set ..).trans oarg.sized
    ints := fun d hd => (List.mem_or_eq_of_mem_set hd).elim (oarg.ints d) fun h => h▸hc}

def takesValue (arg : String) : Bool :=
  arg∈["-m","--machine","-u","--cpu_off","-d","--root_dir","-l","--log_level","-o","--log_file","-t","--log_tsacc"] ||
    arg.toList.take 2=['-','n']

/-- One option with its value; the error is the text of ARGUMENT_THROW. -/
def parseOption (host : Host) (oarg : DpappArg) (arg : String) (v : Option String) : Except String DpappArg :=
  let minus : Bool := v.all fun v => v.toList.head?=some '-'
  let v := v.getD ""
  if arg="-m" ∨ arg="--machine" then
    if minus then .error "machine id error"
    else
      let m := atoi v.toList
      if m<0 ∨ m>31 then .error "machine id invalid" else .ok {oarg with machineId := m}
  else if arg.toList.take 2=['-','n'] then
    if minus ∧ v.toList[1]?≠some '1' then .error "-n<t> argument error"
    else
      let n := atoi (arg.toList.drop 2)
      let c := atoi v.toList
      if n<1 ∨ n>63 ∨ c>255 then .error "invalid type id or count" else .ok (oarg.setCount n.toNat c (atoi_fits _))
  else if arg="-u" ∨ arg="--cpu_off" then
    if minus then .error "cpu_off error" else .ok {oarg with cpuoff := atoi v.toList}
  else if arg="-d" ∨ arg="--root_dir" then
    if minus then .error "root_dir error"
    else if host.isDir v then .ok {oarg with rootDir := some (host.absolutePath v)}
    else .error "root_dir not exists"
  else if arg="-l" ∨ arg="--log_level" then
    if minus then .error "log_level error"
    else if dplogNamel v<0 then .error "log_level invalid" else .ok {oarg with logLevel := dplogNamel v}
  else if arg="-o" ∨ arg="--log_file" then
    if minus then .error "log_file error"
    else if host.isDir v ∨ host.isDir (host.dirname v)=false then .error "log_file invalid"
    else .ok {oarg with logFile := some v}
  else
    if minus then .error "log_tsacc error"
    else
      let ta := atoi v.toList
      if ta<0 ∨ ta>2 then .error "log_tsacc invalid, must be 0, 1, or 2" else .ok {oarg with logTsacc := ta}

/-- The loop over argv. It stops at the help and the version option, and at an argument that is none of its own. -/
def parseLoop (host : Host) : DpappArg → List String → Except String (Dpret×DpappArg)
  | oarg, [] => .ok (0,{oarg with argv := []})
  | oarg, arg::argv =>
      if arg="-h" ∨ arg="--help" then .ok (1,{oarg with argv := arg::argv})
      else if arg="-V" ∨ arg="--version" then .ok (2,{oarg with argv := arg::argv})
      else if takesValue arg then
        match argv with
        | [] => (parseOption host oarg arg none).map fun oarg => (0,oarg)
        | v::argv => (parseOption host oarg arg (some v)).bind fun oarg => parseLoop host oarg argv
      else .ok (0,{oarg with argv := arg::argv})

def dpappArgParse (host : Host) (oarg : DpappArg) : List String → Except (Dpret×String) (Dpret×DpappArg)
  | [] => .error (dpeInval,"")
  | prog::argv =>
      match host.findExecutable prog with
      | none => .error (dpeInval,"Get self path error")
      | some bin =>
          match parseLoop host {oarg with binFile := some bin} argv with
          | .error e => .error (dpeInval,e)
          | .ok (ret,oarg) => .ok (ret,{oarg with rootDir := oarg.rootDir.or (some (host.dirname (host.dirname bin)))})

/-! ### The layout -/

/-- `_dpevp_set_t`, an array as the list of its entries, NULL as the empty one. -/
structure Evps where
  count : ℤ
  typeCount : ℤ
  eachCount : List ℤ
  eachIds : List (List ℤ)
deriving DecidableEq

/-- The inner loop: `n` ids from `count`, and the count after them. -/
def fillIds : ℕ → ℤ → List ℤ×ℤ
  | 0, count => ([],count)
  | n+1, count =>
      let r := fillIds n (wrap (count+1))
      (count::r.1,r.2)

/-- The outer loop, from type `i` on. -/
def layTypes (host : Host) : ℕ → List ℤ → Evps → Except Dpret Evps
  | _, [], s => .ok s
  | i, pc::pcs, s =>
      if 0<pc then
        if host.alloc (.ids i) then
          let (ids,count) := fillIds pc.toNat s.count
          layTypes host (i+1) pcs {s with count := count, eachCount := s.eachCount++[pc], eachIds := s.eachIds++[ids]}
        else .error dpeNomem
      else layTypes host (i+1) pcs {s with eachCount := s.eachCount++[0], eachIds := s.eachIds++[[]]}

/-- The entries of the table that are in use. -/
def DpappArg.counts (args : DpappArg) : List ℤ := args.eachCount.take args.typeCount.toNat

/-- The check adds the entries up as ints. -/
def threadCount (counts : List ℤ) : ℤ := counts.foldl (fun t c => wrap (t+c)) 0

def dpappInit (host : Host) (started : Bool) (args : DpappArg) : Except Dpret Evps :=
  if started then .error dpeRepeat
  else if args.rootDir=none then .error dpeInval
  else if args.typeCount≤0 then .error dpeInval
  else if threadCount args.counts>255 then .error dpeInval
  else if (host.alloc .eachCount && host.alloc .eachIds)=false then .error dpeNomem
  else if host.alloc .master=false then .error dpeNomem
  else
    (layTypes host 1 args.counts.tail ⟨1,args.typeCount,[1],[[0]]⟩).bind fun s =>
      if host.alloc .evps=false then .error dpeNomem
      else if host.alloc .threads=false then .error dpeNomem
      else if host.alloc .rootDir=false then .error dpeNomem
      else if args.binFile≠none ∧ host.alloc .binFile=false then .error dpeNomem
      else .ok s

/-! ### Where a call is sent to -/

/-- The bytes of a pointer, the lowest first. -/
def bytes (key : BitVec 64) : List (BitVec 8) := (List.range 8).map fun i => (key >>> (8*i)).setWidth 8

def dpctcHashPtr (key : BitVec 64) (range : ℕ) : ℕ :=
  ((bytes key).foldl (fun v b => v*31+b.setWidth 32) (0 : BitVec 32)).toNat%range

/-- An entry of an array by an int, none outside of it. -/
def entry {α : Type*} (l : List α) (i : ℤ) : Option α := if i<0 then none else l[i.toNat]?

/-- None where the code would read outside the tables. -/
def dpctcResolveToid (s : Evps) (key : BitVec 64) (toid : ℤ) : Option Dpret :=
  if 0≤toid ∧ toid<s.count then some toid
  else if toid<0 then
    let t := wrap (-toid)
    if t≥s.typeCount then some dpeInval
    else
      (entry s.eachCount t).bind fun count =>
        if count=0 then some dpeInval
        else (entry s.eachIds t).bind fun ids => entry ids (dpctcHashPtr key count.toNat)
  else some dpeInval

/-- A call element: its type, its address and the fields the two ends of the call are named by. -/
structure Dpctc where
  isCtc : Bool
  key : BitVec 64
  toid : BitVec 8
  fromid : BitVec 8
deriving DecidableEq

def dpctcSetToid (s : Evps) (self : Option Dpctc) (toid : ℤ) : Option (Dpret×Option Dpctc) :=
  match self with
  | none => some (dpeInval,self)
  | some ctc =>
      if ctc.isCtc=false then some (dpeInval,self)
      else
        (dpctcResolveToid s ctc.key toid).map fun toid =>
          if dpretIserr toid then (toid,self) else (dpeOk,some {ctc with toid := BitVec.ofInt 8 toid})

/-! ### What a layout is for -/

/-- The ids a type asks for; type 0 is the master, and a type with no more than 0 is disabled. -/
def requested (args : DpappArg) : List ℕ := 1::args.counts.tail.map Int.toNat

/-- The ranges one after the other are 0, 1, .. count-1, the first of them the master's, and each as long as its type
asks for; the ids fit in the `fromid` and the `toid` of a call. -/
structure Laid (args : DpappArg) (s : Evps) : Prop where
  master : s.eachIds.head?=some [0]
  ranges : ∃ n : ℕ,s.count=n ∧ s.eachIds.flatten=(List.range n).map (Nat.cast : ℕ → ℤ)
  requests : s.eachIds.map List.length=requested args
  fits : s.count≤256

/-- What `toid` asks for: the thread of this id, or one of the type of this number, negated. -/
def asked (s : Evps) (toid : ℤ) (id : ℤ) : Prop :=
  if 0≤toid then id=toid ∧ toid<s.count else ∃ ids,s.eachIds[(-toid).toNat]?=some ids ∧ id∈ids

/-- The tables are not left, what is resolved is what has been asked for, and a call element keeps exactly that. -/
structure Resolved (s : Evps) (ctc : Dpctc) (toid : ℤ) : Prop where
  resolve : ∃ r,dpctcResolveToid s ctc.key toid=some r ∧ (dpretIserr r ∨ asked s toid r)
  store : ∃ r ctc',dpctcSetToid s (some ctc) toid=some (r,some ctc') ∧ (dpretIserr r ∧ ctc'=ctc ∨
    r=dpeOk ∧ dpctcResolveToid s ctc.key toid=some (ctc'.toid.toNat : ℤ) ∧ asked s toid ctc'.toid.toNat ∧
      ctc'={ctc with toid := ctc'.toid})

section Layout
variable {host : Host} {started : Bool} {args : DpappArg} {s t : Evps} {toid : ℤ} {pcs : List ℤ} {i k n : ℕ}

theorem fillIds_length (n : ℕ) (count : ℤ) : (fillIds n count).1.length=n := by
  induction n generalizing count with
  | zero => rfl
  | succ n ih => rw [fillIds,List.length_cons,ih]

theorem fillIds_range (hfit : k+n<2^31) : fillIds n k=((List.range' k n).map Nat.cast,((k+n : ℕ) : ℤ)) := by
  induction n generalizing k with
  | zero => rfl
  | succ n ih =>
    have hnext : wrap ((k : ℤ)+1)=((k+1 : ℕ) : ℤ) := by
      rw [wrap_of_fits (by unfold fitsInt; omega),Nat.cast_succ]
    rw [fillIds,hnext,ih (by omega),List.range'_succ,List.map_cons,Nat.add_right_comm,Nat.add_assoc]

theorem layTypes_spec (h : layTypes host i pcs s=.ok t) :
    t.typeCount=s.typeCount ∧ t.eachCount=s.eachCount++pcs.map (fun pc => (pc.toNat : ℤ)) ∧
      ∃ l,t.eachIds=s.eachIds++l ∧ l.map List.length=pcs.map Int.toNat := by
  induction pcs generalizing i s with
  | nil =>
    cases h
    simp
  | cons pc pcs ih =>
    rw [layTypes] at h
    split at h
    · rename_i hpos
      split at h
      · obtain ⟨htypes,hcount,l,hids,hlen⟩ := ih h
        refine ⟨htypes,?_,(fillIds pc.toNat s.count).1::l,hids.trans (List.append_cons ..).symm,?_⟩
        · rw [List.map_cons,Int.toNat_of_nonneg hpos.le]
          exact hcount.trans (List.append_cons ..).symm
        · rw [List.map_cons,List.map_cons,fillIds_length,hlen]
      · cases h
    · rename_i hpos
      obtain ⟨htypes,hcount,l,hids,hlen⟩ := ih h
      have hzero : pc.toNat=0 := Int.toNat_of_nonpos (not_lt.mp hpos)
      refine ⟨htypes,?_,[]::l,hids.trans (List.append_cons ..).symm,?_⟩
      · rw [List.map_cons,hzero]
        exact hcount.trans (List.append_cons ..).symm
      · rw [List.map_cons,List.map_cons,hlen,hzero]
        rfl

/-- The ranges follow one another as long as the count is an int. -/
theorem layTypes_ranges (h : layTypes host i pcs s=.ok t) (hcount : s.count=k)
    (hids : s.eachIds.flatten=(List.range k).map Nat.cast) (hfit : k+(pcs.map Int.toNat).sum<2^31) :
    t.count=((k+(pcs.map Int.toNat).sum : ℕ) : ℤ) ∧
      t.eachIds.flatten=(List.range (k+(pcs.map Int.toNat).sum)).map Nat.cast := by
  induction pcs generalizing i s k with
  | nil =>
    cases h
    exact ⟨hcount,hids⟩
  | cons pc pcs ih =>
    rw [List.map_cons,List.sum_cons] at hfit ⊢
    rw [layTypes] at h
    split at h
    · split at h
      · rw [hcount,fillIds_range (by omega)] at h
        rw [← Nat.add_assoc] at hfit ⊢
        refine ih h rfl ?_ hfit
        simp only
        rw [List.flatten_append,hids,List.flatten_singleton,← List.map_append,List.range_add,List.range'_eq_map_range]
      · cases h
    · rename_i hpos
      rw [Int.toNat_of_nonpos (not_lt.mp hpos),Nat.zero_add] at hfit ⊢
      refine ih h hcount ?_ hfit
      simpa using hids

theorem parseOption_counts {oarg o : DpappArg} {arg : String} {v : Option String}
    (h : parseOption host oarg arg v=.ok o) : ∀ c∈o.eachCount,c∈oarg.eachCount ∨ c≤255 := by
  unfold parseOption at h
  simp only at h
  repeat' split at h
  all_goals cases h
  all_goals try exact fun c hc => .inl hc
  rename_i hn
  intro c hc
  rcases List.mem_or_eq_of_mem_set hc with hc | rfl
  · exact .inl hc
  · omega

theorem parseLoop_counts {oarg o : DpappArg} {argv : List String} {ret : Dpret}
    (h : parseLoop host oarg argv=.ok (ret,o)) : ∀ c∈o.eachCount,c∈oarg.eachCount ∨ c≤255 := by
  fun_induction parseLoop host oarg argv with
  | case1 | case2 | case3 | case6 =>
    cases h
    exact fun c hc => .inl hc
  | case4 oarg arg =>
    cases ho : parseOption host oarg arg none with
    | error e =>
      rw [ho] at h
      cases h
    | ok o' =>
      rw [ho] at h
      cases h
      exact parseOption_counts ho
  | case5 oarg arg _ _ _ v argv ih =>
    cases ho : parseOption host oarg arg (some v) with
    | error e =>
      rw [ho] at h
      cases h
    | ok o' =>
      rw [ho] at h
      intro c hc
      exact (ih o' h c hc).elim (parseOption_counts ho c) .inr

/-- What the parser puts into the table is no more than 255, but it may be negative. -/
theorem parse_counts {oarg o : DpappArg} {argv : List String} {ret : Dpret}
    (h : dpappArgParse host oarg argv=.ok (ret,o)) : ∀ c∈o.eachCount,c∈oarg.eachCount ∨ c≤255 := by
  unfold dpappArgParse at h
  split at h
  · cases h
  · split at h
    · cases h
    · split at h
      · cases h
      · rename_i hl
        cases h
        have hcounts := parseLoop_counts hl
        exact hcounts

theorem dpappInit_ok (h : dpappInit host started args=.ok s) :
    0<args.typeCount ∧ threadCount args.counts≤255 ∧ layTypes host 1 args.counts.tail ⟨1,args.typeCount,[1],[[0]]⟩=.ok s := by
  unfold dpappInit at h
  split at h; · cases h
  split at h; · cases h
  split at h; · cases h
  split at h; · cases h
  rename_i htypes hsum
  split at h; · cases h
  split at h; · cases h
  cases hl : layTypes host 1 args.counts.tail ⟨1,args.typeCount,[1],[[0]]⟩ with
  | error e =>
    rw [hl] at h
    cases h
  | ok u =>
    rw [hl] at h
    simp only [Except.bind] at h
    split at h; · cases h
    split at h; · cases h
    split at h; · cases h
    split at h; · cases h
    cases h
    exact ⟨not_le.mp htypes,not_lt.mp hsum,rfl⟩

theorem requested_length (h : 0<args.typeCount) : ((requested args).length : ℤ)=args.typeCount := by
  have hsized := args.sized
  have hmax := args.typeMax
  simp only [requested,DpappArg.counts,List.length_cons,List.length_map,List.length_tail,List.length_take]
  omega

theorem init_requests (h : dpappInit host started args=.ok s) :
    s.eachIds.head?=some [0] ∧ s.eachIds.map List.length=requested args ∧ s.typeCount=args.typeCount ∧
      s.eachCount=(requested args).map Nat.cast := by
  obtain ⟨-,-,hl⟩ := dpappInit_ok h
  obtain ⟨htypes,hcount,l,hids,hlen⟩ := layTypes_spec hl
  refine ⟨?_,?_,htypes,?_⟩
  · rw [hids]
    rfl
  · rw [hids,List.map_append,hlen]
    rfl
  · rw [hcount,requested,List.map_cons,List.map_map]
    rfl

/-- Not more than 256 ids are asked for. -/
theorem init_laid (h : dpappInit host started args=.ok s) (hsum : (requested args).sum≤256) : Laid args s := by
  obtain ⟨-,-,hl⟩ := dpappInit_ok h
  obtain ⟨hmaster,hrequests,-,-⟩ := init_requests h
  rw [requested,List.sum_cons] at hsum
  obtain ⟨hcount,hflat⟩ := layTypes_ranges (k := 1) hl rfl rfl (by omega)
  refine ⟨hmaster,⟨_,hcount,hflat⟩,hrequests,?_⟩
  rw [hcount]
  omega

theorem threadCount_eq (t : ℤ) (counts : List ℤ) (hc : ∀ c∈counts,0≤ c ∧ c≤255) (ht : 0≤ t)
    (hfit : t+255*counts.length<2^31) : counts.foldl (fun t c => wrap (t+c)) t=t+((counts.map Int.toNat).sum : ℕ) := by
  induction counts generalizing t with
  | nil => simp
  | cons c counts ih =>
    obtain ⟨hlow,hhigh⟩ := hc c List.mem_cons_self
    rw [List.length_cons,Nat.cast_succ] at hfit
    have hwrap : wrap (t+c)=t+c := wrap_of_fits (by unfold fitsInt; omega)
    rw [List.foldl_cons,hwrap,ih _ (fun d hd => hc d (List.mem_cons_of_mem _ hd)) (by omega) (by omega),List.map_cons,
      List.sum_cons]
    omega

/-- Without a negative entry the sum that the check reads is the number of the threads. -/
theorem nonneg_sum (h : dpappInit host started args=.ok s) (hc : ∀ c∈args.counts,0≤ c ∧ c≤255) :
    (requested args).sum≤256 := by
  obtain ⟨-,hsum,-⟩ := dpappInit_ok h
  have hlen : args.counts.length≤64 := (List.length_take_le' ..).trans_eq args.sized
  have hcount := threadCount_eq 0 args.counts hc le_rfl (by omega)
  rw [threadCount,hcount] at hsum
  rw [requested,List.sum_cons]
  cases hcs : args.counts with
  | nil => simp
  | cons c counts =>
    rw [hcs,List.map_cons,List.sum_cons] at hsum
    rw [List.tail_cons]
    omega

theorem laid_sum (h : Laid args s) : (requested args).sum≤256 := by
  obtain ⟨n,hcount,hflat⟩ := h.ranges
  have hlen : (requested args).sum=n := by
    rw [← h.requests,← List.length_flatten,hflat,List.length_map,List.length_range]
  have hfits := h.fits
  omega

theorem hash_lt (key : BitVec 64) {range : ℕ} (h : 0<range) : dpctcHashPtr key range<range := Nat.mod_lt _ h

theorem entry_nat {α : Type*} (l : List α) (j : ℕ) : entry l (j : ℤ)=l[j]? := by
  rw [entry,if_neg (by omega),Int.toNat_natCast]

theorem laid_id {id : ℤ} (h : Laid args s) (hid : id∈s.eachIds.flatten) : 0≤ id ∧ id<256 := by
  obtain ⟨n,hcount,hflat⟩ := h.ranges
  have hfits := h.fits
  rw [hflat] at hid
  obtain ⟨j,hj,rfl⟩ := List.mem_map.mp hid
  have hj := List.mem_range.mp hj
  omega

/-- An id of a layout with no more than 256 of them. -/
theorem resolve_spec (h : dpappInit host started args=.ok s) (hl : Laid args s) (key : BitVec 64) (ht : fitsInt toid)
    (hmin : toid≠-2^31) :
    ∃ r,dpctcResolveToid s key toid=some r ∧ (r=dpeInval ∨ asked s toid r ∧ 0≤r ∧ r<256) := by
  obtain ⟨-,hrequests,htypes,hcounts⟩ := init_requests h
  obtain ⟨hpos,-,-⟩ := dpappInit_ok h
  have hlen := requested_length hpos
  unfold dpctcResolveToid
  by_cases hid : 0≤toid ∧ toid<s.count
  · rw [if_pos hid]
    refine ⟨toid,rfl,.inr ⟨?_,hid.1,hid.2.trans_le hl.fits⟩⟩
    rw [asked,if_pos hid.1]
    exact ⟨rfl,hid.2⟩
  · rw [if_neg hid]
    by_cases hneg : toid<0
    · rw [if_pos hneg]
      obtain ⟨t,rfl⟩ : ∃ t : ℕ,toid=-t := ⟨(-toid).toNat,by omega⟩
      have hwrap : wrap (-(-(t : ℤ)))=t := by
        rw [neg_neg]
        unfold fitsInt at ht
        exact wrap_of_fits (by unfold fitsInt; omega)
      simp only [hwrap]
      by_cases hge : (t : ℤ)≥s.typeCount
      · rw [if_pos hge]
        exact ⟨_,rfl,.inl rfl⟩
      · rw [if_neg hge]
        have hlt : t<(requested args).length := by omega
        have hids : t<s.eachIds.length := by
          rw [← List.length_map (f := List.length),hrequests]
          exact hlt
        have hsize : (s.eachIds[t]).length=(requested args)[t] := by
          rw [← List.getElem_map List.length (h := by rw [List.length_map]; exact hids)]
          simp only [hrequests]
        rw [entry_nat,entry_nat,hcounts,List.getElem?_map,List.getElem?_eq_getElem hlt,List.getElem?_eq_getElem hids]
        simp only [Option.map_some,Option.bind_some]
        by_cases hzero : (((requested args)[t] : ℕ) : ℤ)=0
        · rw [if_pos hzero]
          exact ⟨_,rfl,.inl rfl⟩
        · rw [if_neg hzero,Int.toNat_natCast,entry_nat]
          have hidx : dpctcHashPtr key (requested args)[t]<(s.eachIds[t]).length := by
            rw [hsize]
            exact hash_lt key (by omega)
          rw [List.getElem?_eq_getElem hidx]
          have hmem := List.getElem_mem hidx
          refine ⟨_,rfl,.inr ⟨?_,laid_id hl (List.mem_flatten_of_mem (List.getElem_mem hids) hmem)⟩⟩
          rw [asked,if_neg (by omega),neg_neg,Int.toNat_natCast]
          exact ⟨_,List.getElem?_eq_getElem hids,hmem⟩
    · rw [if_neg hneg]
      exact ⟨_,rfl,.inl rfl⟩

theorem resolved (h : dpappInit host started args=.ok s) (hl : Laid args s) (ctc : Dpctc) (ht : fitsInt toid)
    (hmin : toid≠-2^31) : Resolved s ctc toid := by
  obtain ⟨r,hr,hcase⟩ := resolve_spec h hl ctc.key ht hmin
  refine ⟨⟨r,hr,hcase.imp (fun hi => ?_) And.left⟩,?_⟩
  · subst hi
    decide
  unfold dpctcSetToid
  by_cases hc : ctc.isCtc=false
  · simp only [if_pos hc]
    exact ⟨_,_,rfl,.inl ⟨by decide,rfl⟩⟩
  · simp only [if_neg hc,hr,Option.map_some]
    rcases hcase with rfl | ⟨hasked,hlow,hhigh⟩
    · exact ⟨_,_,rfl,.inl ⟨by decide,rfl⟩⟩
    · have hok : ¬dpretIserr r := not_lt.mpr hlow
      have hstore : ((BitVec.ofInt 8 r).toNat : ℤ)=r := by
        rw [BitVec.toNat_ofInt,Int.emod_eq_of_lt hlow (show r<((2^8 : ℕ) : ℤ) from hhigh)]
        exact Int.toNat_of_nonneg hlow
      rw [if_neg hok]
      refine ⟨_,_,rfl,.inr ⟨rfl,?_,?_,rfl⟩⟩
      · rw [hstore]
      · rw [hstore]
        exact hasked

/-- The least int has no negation, and the table is read before its start. -/
theorem resolve_min (h : dpappInit host started args=.ok s) (key : BitVec 64) :
    dpctcResolveToid s key (-2^31)=none := by
  obtain ⟨-,-,htypes,-⟩ := init_requests h
  obtain ⟨hpos,-,-⟩ := dpappInit_ok h
  have hwrap : wrap (-(-2^31))=-2^31 := by decide
  unfold dpctcResolveToid
  rw [if_neg (by omega),if_pos (by omega)]
  simp only [hwrap]
  rw [if_neg (by omega),entry,if_pos (by omega)]
  rfl

theorem thread_layout (h : dpappInit host started args=.ok s) (ht : fitsInt toid) (ctc : Dpctc) :
    (Laid args s ∧ Resolved s ctc toid) ↔ ((requested args).sum≤256 ∧ toid≠-2^31) := by
  constructor
  · rintro ⟨hl,hr⟩
    refine ⟨laid_sum hl,fun hmin => ?_⟩
    obtain ⟨r,hr,-⟩ := hr.resolve
    subst hmin
    rw [resolve_min h] at hr
    cases hr
  · rintro ⟨hsum,hmin⟩
    have hl := init_laid h hsum
    exact ⟨hl,resolved h hl ctc ht hmin⟩

end Layout

/-- A module with `n` thread types has been loaded. -/
def DpappArg.load (oarg : DpappArg) (n : ℤ) (h : n≤dpappTypeMax) : DpappArg := {oarg with typeCount := n, typeMax := h}

/-- The command line can only go wrong with a negative number of threads. -/
theorem nonneg_laid {host : Host} {started : Bool} {argv : List String} {ret : Dpret} {oarg : DpappArg} {s : Evps} {n : ℤ}
    (hn : n≤dpappTypeMax) (hp : dpappArgParse host dpappArgInit argv=.ok (ret,oarg)) (hc : ∀ c∈oarg.eachCount,0≤ c)
    (hi : dpappInit host started (oarg.load n hn)=.ok s) : Laid (oarg.load n hn) s := by
  refine init_laid hi (nonneg_sum hi fun c hin => ?_)
  have hin : c∈oarg.eachCount := List.mem_of_mem_take hin
  refine ⟨hc c hin,(parse_counts hp c hin).elim (fun h => ?_) id⟩
  rw [List.eq_of_mem_replicate h]
  decide

/-- A system on which nothing fails. -/
def host : Host where
  findExecutable := some
  isDir _ := true
  absolutePath := id
  dirname _ := "/"
  alloc _ := true

theorem thread_layout_workers : ∃ oarg s,dpappArgParse host dpappArgInit ["dpapp","-n1","3","-n2","-1"]=.ok (0,oarg) ∧
    dpappInit host false (oarg.load 3 (by decide))=.ok s ∧ s.count=4 ∧
      Laid (oarg.load 3 (by decide)) s ∧ Resolved s ⟨true,0xdeadbeef,255,255⟩ (-1) := by
  obtain ⟨oarg,hp,hi,hsum⟩ : ∃ oarg,dpappArgParse host dpappArgInit ["dpapp","-n1","3","-n2","-1"]=.ok (0,oarg) ∧
      dpappInit host false (oarg.load 3 (by decide))=.ok ⟨4,3,[1,3,0],[[0],[1,2,3],[]]⟩ ∧
      (requested (oarg.load 3 (by decide))).sum≤256 := ⟨_,rfl,rfl,by decide⟩
  exact ⟨oarg,_,hp,hi,rfl,(thread_layout hi (by decide) _).mpr ⟨hsum,by decide⟩⟩

/-- 255 threads of one type, 255 of another, and a disabled type that takes them off the sum. -/
def cancels : List String := ["dpapp","-n1","255","-n2","255","-n3","-1255"]

theorem thread_layout_cancels : ¬∀ (argv : List String) (n : ℤ) (hn : n≤dpappTypeMax) (oarg : DpappArg) (s : Evps)
    (toid : ℤ) (ctc : Dpctc),dpappArgParse host dpappArgInit argv=.ok (0,oarg) →
      dpappInit host false (oarg.load n hn)=.ok s → fitsInt toid → Laid (oarg.load n hn) s ∧ Resolved s ctc toid := by
  intro hall
  have hlaid := (hall cancels 4 (by decide) _ _ 0 ⟨true,0,0,0⟩ rfl rfl (by decide)).1
  have hsum := laid_sum hlaid
  revert hsum
  decide

end Dpapp.ThreadLayout
