import Dpapp.DpbufSpec
import Dpapp.ThreadLayout

/-! # The configuration of the Lua threads (dplua.c)

The main chunk fills a table of headers, which is iterated by `lua_next` with its key on the stack; the helpers work on
the same stack. A stack is a list, its top first. Where the code reads a value that is no table as one, or where an
error is raised outside of a pcall, the model is none. -/

namespace Dpapp.LuaConfig
open Dpapp.Ret Dpapp.Dpbuf Dpapp.DpbufSpec
open Dpapp.ThreadLayout (dpappTypeMax)

/-! ### Lua -/

inductive Num | fin (x : ℚ) | inf (neg : Bool) | nan
deriving DecidableEq

inductive Kind | table | function | userdata | thread | cdata
deriving DecidableEq

inductive Value
  | nil | boolean (b : Bool) | number (x : Num) | string (s : List Byte) | object (k : Kind) (a : ℕ)
deriving DecidableEq

def Value.isTable : Value → Bool
  | .object .table _ => true
  | _ => false

/-- `lua_tolstring`, NULL for what is neither a string nor a number. -/
def Value.text (numText : Num → List Byte) : Value → Option (List Byte)
  | .string s => some s
  | .number x => some (numText x)
  | _ => none

/-- What the configuration asks of a state: the entries of a table in the order of `lua_next`, a field (none where the
access raises an error), `require` of the string.buffer module and the `encode` of a module, both by pcall. -/
structure Lua where
  toInteger : Num → ℤ
  integral : ∀ n : ℤ,-2^53≤n → n≤2^53 → toInteger (.fin n)=n
  numText : Num → List Byte
  entries : ℕ → List (Value×Value)
  distinct : ∀ a,((entries a).map Prod.fst).Nodup
  keyed : ∀ a,Value.nil∉(entries a).map Prod.fst
  getfield : Value → String → Option Value
  require : Option Value
  encode : Value → Value → Option Value
  short : ∀ m v r s,encode m v=some r → r.text numText=some s → s.length<2^31

/-- The state of a thread: `require`, and `new`, `set` and `decode` of the module and its buffers. -/
structure Thread where
  require : Option Value
  new : Value → Option Value
  set : Value → List Byte → Bool
  decode : Value → List Byte → Option Value

/-- The entry after `key`, the first one for nil; none where the table has no such key. -/
def nextEntry (l : List (Value×Value)) (key : Value) : Option (Option (Value×Value)) :=
  if key=.nil then some l.head?
  else
    match l.dropWhile fun e => e.1≠key with
    | [] => none
    | _::l => some l.head?

/-- `lua_next(L,-2)` -/
def luaNext (lua : Lua) : List Value → Option (List Value×Bool)
  | key::.object .table a::s =>
      (nextEntry (lua.entries a) key).map fun
        | none => (.object .table a::s,false)
        | some (k,v) => (v::k::.object .table a::s,true)
  | _ => none

/-! ### The helpers -/

/-- What is pushed, and what the registry holds after it. -/
def ensureSb (require : Option Value) (sb : Value) : Value×Value :=
  if sb.isTable then (sb,sb)
  else
    match require with
    | none => (.nil,sb)
    | some m => (m,m)

/-- The value is on the top (`idx` is -1). -/
def encodeValue (lua : Lua) (mem : Mem) (sb : Value) (b : Buf Unit) (d : Data) :
    List Value → Option (List Value×Value×Buf Unit×Data×Dpret)
  | [] => none
  | v::s =>
      if v=.nil then some (v::s,sb,b,d,dpeInval)
      else
        let (m,sb) := ensureSb lua.require sb
        if m.isTable=false then some (m::v::s,sb,b,d,dpeInval)
        else
          match lua.encode m v with
          | none => some (m::v::s,sb,b,d,dpeInval)
          | some r =>
              match r.text lua.numText with
              | none | some [] => some ((r::m::v::s).drop 2,sb,b,d,dpeInval)
              | some data =>
                  (wdata b d (some data) (wrap data.length) mem).map fun (b,d,ret) => ((r::m::v::s).drop 2,sb,b,d,ret)

/-- A slot of a thread's stack: its table of the runtime header, or a value. -/
inductive Slot | hdr | val (v : Value)
deriving DecidableEq

/-- `lua_setfield(L,-2,k)`; `f` are the fields of the header. -/
def setfield (f : List (String×Value)) (k : String) : List Slot → Option (List Slot×List (String×Value))
  | .val w::.hdr::s => some (.hdr::s,f++[(k,w)])
  | .val _::.val m::s => if m.isTable then some (.val m::s,f) else none
  | _ => none

/-- The state is new, and its registry has no module yet. What is returned is how far the size of the buffer object has
moved, which is fixed. -/
def decodeValue (thr : Thread) (x : List Byte) (s : List Slot) : List Slot×Dpret :=
  if x=[] then (.val .nil::s,dpeInval)
  else
    let m := (ensureSb thr.require .nil).1
    let s := .val m::s
    if m.isTable=false then (.val .nil::s,dpeInval)
    else
      match thr.new m with
      | none => (.val .nil::s,dpeInval)
      | some buf =>
          let s := .val buf::s
          if thr.set buf x=false then (.val .nil::s.drop 1,dpeInval)
          else
            match thr.decode buf x with
            | none => (.val .nil::s.drop 1,dpeInval)
            | some w => (.val w::s.drop 2,0)

/-! ### The table of headers -/

def dpluaHdrNameMax : ℕ := 64

/-- snprintf of `%s` into `n` bytes -/
def snprintf (n : ℕ) (s : List Byte) : List Byte := (s.takeWhile (·≠0)).take (n-1)

/-- `dplua_hdr_t`; a buffer of zeros is none. -/
structure Hdr where
  initName : List Byte := []
  argBuf : Option (Buf Unit×Data) := none

/-- The stack, the module in the registry and the headers. The rest is the history: the keys visited, the height of the
stack before each `lua_next`, the headers initialised, each with the key of its entry, and the buffers made. -/
structure Conf where
  stack : List Value
  sb : Value
  hdrs : ℕ → Hdr := fun _ => {}
  visits : List Value := []
  heights : List ℕ := []
  inits : List (Value×ℕ) := []
  made : List ℕ := []

/-- The type of an entry: its key as an int, if that is in range. -/
def typeOf (lua : Lua) : Value → Option ℕ
  | .number x =>
      let t := wrap (lua.toInteger x)
      if 0≤t ∧ t<dpappTypeMax then some t.toNat else none
  | _ => none

/-- `dpbuf_init` of the header's buffer, and the args on the top of the stack into it. -/
def loadArgs (lua : Lua) (mem : Mem×Mem) (key : Value) (t : ℕ) (c : Conf) : Option Conf :=
  let name := (c.hdrs t).initName
  let c := {c with inits := c.inits++[(key,t)]}
  match dataNew 256 mem.1 with
  | none => some {c with hdrs := Function.update c.hdrs t {initName := name}}
  | some d =>
      (encodeValue lua mem.2 c.sb {data := (), size := 256} d c.stack).bind fun (s,sb,b,d,_) =>
        (eseek b d 0 .end_).map fun (b,d,_) =>
          {c with
            stack := s
            sb := sb
            hdrs := Function.update c.hdrs t ⟨name,some (b,d)⟩
            made := c.made++[t]}

/-- The name of the header, if there is a string. -/
def setName (t : ℕ) (init : Option (List Byte)) (c : Conf) : Conf :=
  match init with
  | some s => {c with hdrs := Function.update c.hdrs t {c.hdrs t with initName := snprintf dpluaHdrNameMax s}}
  | none => c

/-- The body for an entry of type `t`, the value on the top. -/
def loadHdr (lua : Lua) (mem : Mem×Mem) (key val : Value) (t : ℕ) (c : Conf) : Option Conf :=
  (lua.getfield val "init").bind fun init =>
    let c := setName t (init.text lua.numText) c
    (lua.getfield val "args").bind fun args =>
      (loadArgs lua mem key t {c with stack := args::c.stack}).map fun c => {c with stack := c.stack.drop 1}

/-- The body of the loop. `mem` is what malloc and realloc return while the entry of this key is visited. -/
def visit (lua : Lua) (mem : Value → Mem×Mem) (c : Conf) : Option Conf :=
  match c.stack with
  | val::key::_ =>
      let c := {c with visits := c.visits++[key]}
      match typeOf lua key with
      | some t => (loadHdr lua (mem key) key val t c).map fun c => {c with stack := c.stack.drop 1}
      | none => some {c with stack := c.stack.drop 1}
  | _ => none

def loop (lua : Lua) (mem : Value → Mem×Mem) : ℕ → Conf → Option Conf
  | 0, _ => none
  | fuel+1, c =>
      (luaNext lua c.stack).bind fun (s,more) =>
        let c := {c with heights := c.heights++[c.stack.length], stack := s}
        if more then (visit lua mem c).bind (loop lua mem fuel) else some c

/-- From the run of the main chunk on, which has returned `typeCount` and left the table `a` in the registry. Inner none
is NULL. -/
def loadConfig (lua : Lua) (mem : Value → Mem×Mem) (calloc : Bool) (typeCount : ℤ) (a : ℕ) (base : List Value)
    (sb : Value) (fuel : ℕ) : Option (Option Conf) :=
  if typeCount<1 ∨ typeCount>dpappTypeMax then some none
  else if calloc=false then some none
  else
    (loop lua mem fuel {stack := .nil::.object .table a::base, sb := sb}).map fun c =>
      some {c with stack := c.stack.drop 1}

/-- The buffers that are finished. -/
def freeConfig (typeCount : ℤ) (hdrs : ℕ → Hdr) : List ℕ :=
  (List.range (min typeCount dpappTypeMax).toNat).filter fun i => (hdrs i).argBuf.isSome

/-- The header of a thread of type `tid`: the stack, the fields of the new table, and the headers after it. -/
def pushRuntimeHdr (thr : Thread) (typeCount : ℤ) (hdrs : ℕ → Hdr) (tid : ℕ) (s : List Slot) :
    Option (List Slot×List (String×Value)×(ℕ → Hdr)) :=
  if tid<typeCount ∧ (hdrs tid).initName≠[] then
    let f := [("init",.string (hdrs tid).initName)]
    match (hdrs tid).argBuf with
    | none => (setfield f "args" (.val .nil::.hdr::s)).map fun (s,f) => (s,f,hdrs)
    | some (b,d) =>
        (rseek b d 0 .set).bind fun (b,d,_) =>
          let hdrs := Function.update hdrs tid {hdrs tid with argBuf := some (b,d)}
          if b.crsize>0 then
            (d.load b.rbeg b.crsize).bind fun x =>
              (setfield f "args" (decodeValue thr x (.hdr::s)).1).map fun (s,f) => (s,f,hdrs)
          else (setfield f "args" (.val .nil::.hdr::s)).map fun (s,f) => (s,f,hdrs)
  else some (.hdr::s,[],hdrs)

/-! ### The buffer of an argument -/

/-- The bytes have room in a buffer of 256, or in a larger one. -/
def room (mem : Mem) (x : List Byte) : Prop :=
  x.length≤256 ∨ (powMinValue (x.length+1) : ℤ)≤dpbufMaxSize ∧ mem.isSome

instance (mem : Mem) (x : List Byte) : Decidable (room mem x) := inferInstanceAs (Decidable (_ ∨ _ ∧ _))

/-- All that is in the buffer is `x`. -/
structure Holds (b : Buf Unit) (d : Data) (x : List Byte) : Prop where
  rbeg : b.rbeg=0
  rend : b.rend=x.length
  load : d.load 0 x.length=some x

section Buffers
variable {b : Buf Unit} {d : Data} {x : List Byte} {mem mem' : Mem}

/-- A buffer from `dpbuf_init`. -/
structure Fresh (b : Buf Unit) (d : Data) : Prop where
  cursors : b={data := (), size := 256}
  maxs : d.maxs=256
  length : d.data.length=257
  const : d.const=false

theorem fresh_init (h : dataNew 256 mem=some d) : Fresh {data := (), size := 256} d := by
  obtain ⟨f,-,rfl⟩ := Option.map_eq_some_iff.mp ((if_neg (by decide)).symm.trans h)
  exact ⟨rfl,rfl,by simp,rfl⟩

/-- dpbuf_eseek to the end makes all that has been written readable. -/
theorem eseek_end (hbeg : b.rbeg=0) (hw : b.wbeg=x.length) (hlen : x.length<2^31) (hload : d.load 0 x.length=some x) :
    ∃ b' n,eseek b d 0 .end_=some (b',d,n) ∧ Holds b' d x := by
  have hwrap : wrap ((x.length : ℤ)+0)=x.length := by
    rw [add_zero]
    exact (wrap_cases _).2.2.1 (by omega) (by omega)
  refine ⟨_,_,rfl,hbeg,?_,hload⟩
  simp only [hbeg,hw,hwrap,iclamp]
  split <;> split <;> omega

theorem load_nil (d : Data) : d.load 0 ([] : List Byte).length=some [] := by
  rw [List.length_nil,Nat.cast_zero,load_some le_rfl le_rfl (by omega)]
  rfl

theorem holds_nil (h : Fresh b d) : ∃ b' n,eseek b d 0 .end_=some (b',d,n) ∧ Holds b' d [] := by
  obtain rfl := h.cursors
  exact eseek_end rfl rfl (by decide) (load_nil d)

/-- The bytes go to the start of the storage. -/
theorem append_holds (hbeg : b.rbeg=0) (hw : b.wbeg=0) (hfit : x.length≤d.data.length) (hlen : x.length<2^31) :
    ∃ b' d' r,append b d x x.length=some (b',d',r) ∧ ∃ b'' n,eseek b' d' 0 .end_=some (b'',d',n) ∧ Holds b'' d' x := by
  have hstore : d.store 0 x=some {d with data := Segment.put d.data (0 : ℤ).toNat x} := store_some le_rfl (by omega)
  unfold append
  rw [hw,hstore]
  refine ⟨_,_,_,rfl,eseek_end hbeg (zero_add _) hlen ?_⟩
  rw [load_some (by omega) le_rfl]
  · have hself := Segment.seg_put_self (l := d.data) (p := 0) (x := x) (by omega)
    simpa using hself
  · rw [length_store le_rfl (by omega)]
    omega

/-- dpbuf_recycle moves nothing in a buffer that is empty, and ends it with a zero. -/
theorem recycleData_empty (hb : b.rbeg=b.wbeg) (h0 : b.wbeg=0) (hs : 0≤b.size ∧ b.size<d.data.length) :
    ∃ b' d',recycleData b d=some (b',d') ∧ b'.rbeg=0 ∧ b'.wbeg=0 ∧ d'.maxs=d.maxs ∧
      d'.data.length=d.data.length ∧ d'.const=d.const := by
  have hfits : b.size+([0] : List Byte).length≤d.data.length := by
    rw [List.length_singleton]
    omega
  unfold recycleData
  rw [if_pos hb]
  simp only [h0,Int.sub_zero,store_some hs.1 hfits,Option.map_some]
  exact ⟨_,_,rfl,rfl,rfl,rfl,length_store hs.1 hfits,rfl⟩

/-- Storage that is too small is as large as asked for after it, if there is room. -/
theorem dataResize_room (mem : Mem) (hmaxs : d.maxs=256) (hconst : d.const=false) (hbig : 256<x.length)
    (hlen : x.length<2^31) : ∃ d' r,dataResize d x.length mem=some (d',r) ∧ (r=true ↔ room mem x) ∧
      (r=true → x.length≤d'.data.length) := by
  have hpow := le_powMinValue (n := x.length+1) (by omega)
  have hmax : (powMinValue (x.length+1) : ℤ)≤dpbufMaxSize → (x.length : ℤ)< intMax := by
    unfold dpbufMaxSize intMax
    omega
  have hnot : ¬x.length≤256 := by omega
  unfold dataResize room
  rw [if_neg (by omega)]
  simp only [hconst,Bool.false_eq_true,if_false,Int.toNat_natCast,hnot,false_or]
  by_cases hroom : (powMinValue (x.length+1) : ℤ)≤dpbufMaxSize
  · have hint := hmax hroom
    rw [if_neg (by omega),if_neg (by omega)]
    cases mem with
    | none => exact ⟨d,false,rfl,by simp,nofun⟩
    | some f =>
      have hgrow := length_grow d (powMinValue (x.length+1)) f
      have hfits : (x.length : ℤ)+([0] : List Byte).length≤(d.grow (powMinValue (x.length+1)) f).data.length := by
        rw [List.length_singleton]
        omega
      simp only [store_some (by omega) hfits,Option.map_some]
      refine ⟨_,true,rfl,by simp [hroom],fun _ => ?_⟩
      rw [length_store (by omega) hfits]
      omega
  · rw [if_pos (not_le.mp hroom),ite_self]
    exact ⟨d,false,rfl,by simp [hroom],nofun⟩

/-- What dpbuf_resizew makes of a buffer that is empty. -/
theorem resizew_fresh (mem : Mem) (h : Fresh b d) (hbig : 256<x.length) (hlen : x.length<2^31) :
    ∃ b' d' r,resizew b d x.length mem=some (b',d',r) ∧ b'.rbeg=0 ∧ b'.wbeg=0 ∧ (r=true ↔ room mem x) ∧
      (r=true → x.length≤d'.data.length) := by
  have hrbeg : b.rbeg=0 := by rw [h.cursors]
  have hwbeg : b.wbeg=0 := by rw [h.cursors]
  have hsize : b.size=256 := by rw [h.cursors]
  have hrecycle : b.norecycle=false := by rw [h.cursors]
  have hlength := h.length
  obtain ⟨b',d',hd,hr,hw,hm,hl,hc⟩ := recycleData_empty (d := d) (hrbeg.trans hwbeg.symm) hwbeg ⟨by omega,by omega⟩
  obtain ⟨d'',r,hd',hiff,hfit⟩ := dataResize_room mem (hm.trans h.maxs) (hc.trans h.const) hbig hlen
  have hwrap : wrap (b'.wbeg+(x.length : ℤ))=x.length := by
    rw [hw,zero_add]
    exact (wrap_cases _).2.2.1 (by omega) (by omega)
  unfold resizew resize
  rw [if_pos (by omega),hrecycle,if_neg Bool.false_ne_true,hd,Option.bind_some]
  simp only [hwrap]
  rw [if_neg (by omega),hd']
  refine ⟨_,_,_,rfl,?_,?_,hiff,hfit⟩
  · cases r <;> exact hr
  · cases r <;> exact hw

theorem wdata_fresh (mem : Mem) (h : Fresh b d) (hx : x≠[]) (hlen : x.length<2^31) :
    ∃ b' d' r,wdata b d (some x) (wrap x.length) mem=some (b',d',r) ∧
      ∃ b'' n,eseek b' d' 0 .end_=some (b'',d',n) ∧ Holds b'' d' (if room mem x then x else []) := by
  have hwrap : wrap x.length=x.length := (wrap_cases _).2.2.1 (by omega) (by omega)
  have hpos : (x.length : ℤ)≠0 := by
    have := List.length_pos_iff.mpr hx
    omega
  have hbytes : bytes x x.length=some x := by
    rw [bytes,if_pos ⟨by omega,le_rfl⟩,Int.toNat_natCast,List.take_length]
  unfold wdata wcheck
  simp only [hwrap,if_neg hpos]
  by_cases hsmall : x.length≤256
  · have hroom : room mem x := .inl hsmall
    obtain rfl := h.cursors
    rw [if_neg (by simp only; omega),if_pos hroom]
    simp only [Option.bind_some,if_true,hbytes]
    exact append_holds rfl rfl (by rw [h.length]; omega) hlen
  · obtain ⟨b',d',r,hres,hbeg,hw,hiff,hfit⟩ := resizew_fresh mem h (by omega) hlen
    rw [if_pos (by rw [h.cursors]; simp only; omega),hres,Option.bind_some]
    cases r with
    | true =>
      simp only [if_true,hbytes,Option.bind_some,if_pos (hiff.mp rfl)]
      exact append_holds hbeg hw (hfit rfl) hlen
    | false =>
      have hno : ¬room mem x := fun hroom => Bool.false_ne_true (hiff.mpr hroom)
      simp only [if_neg hno,Bool.false_eq_true,if_false]
      exact ⟨_,_,_,rfl,eseek_end hbeg (by rw [hw]; rfl) (by decide) (load_nil d')⟩

end Buffers

/-! ### One entry -/

/-- The key of a type. -/
def typeKey (t : ℕ) : Value := .number (.fin t)

/-- The module that the state of the main chunk works with. -/
def bufferOf (lua : Lua) (sb : Value) : Value := (ensureSb lua.require sb).1

/-- The bytes of an encoded value. -/
def encoding (lua : Lua) (sb a : Value) : Option (List Byte) :=
  (lua.encode (bufferOf lua sb) a).bind (·.text lua.numText)

/-- There is no value, or there is a module that encodes it. -/
def encodes (lua : Lua) (sb a : Value) : Prop :=
  a=.nil ∨ (bufferOf lua sb).isTable ∧ (lua.encode (bufferOf lua sb) a).isSome

/-- What is left in the buffer of a value. -/
def kept (lua : Lua) (mem : Mem) (sb a : Value) : List Byte :=
  if a=.nil then [] else ((encoding lua sb a).filter fun x => decide (room mem x)).getD []

/-- The fields of an entry can be read, and if there is a buffer, its args can be encoded. -/
def Runs (lua : Lua) (mem : Value → Mem×Mem) (sb : Value) (e : Value×Value) : Prop :=
  ∀ t∈typeOf lua e.1,∃ i a,lua.getfield e.2 "init"=some i ∧ lua.getfield e.2 "args"=some a ∧
    ((mem e.1).1.isSome → encodes lua sb a)

/-- A buffer with these bytes, if it could be made. -/
def Stored (mem : Mem×Mem) (x : List Byte) (o : Option (Buf Unit×Data)) : Prop :=
  o=none ∧ mem.1=none ∨ ∃ b d,o=some (b,d) ∧ mem.1.isSome ∧ Holds b d x

section Entry
variable {lua : Lua} {mem : Mem×Mem} {sb key val a : Value} {c : Conf} {t : ℕ} {tl : List Value}

theorem ensureSb_again (require : Option Value) (sb : Value) :
    (ensureSb require (ensureSb require sb).2).1=(ensureSb require sb).1 := by
  by_cases hsb : sb.isTable
  · simp [ensureSb,hsb]
  · cases require with
    | none => simp [ensureSb,hsb]
    | some m => by_cases hm : m.isTable <;> simp [ensureSb,hsb,hm]

/-- The stack as it was, and the bytes in the buffer, if the value can be encoded; otherwise the module is left on it. -/
theorem encodeValue_spec (mem : Mem×Mem) (a : Value) (tl : List Value) {b : Buf Unit} {d : Data} (hf : Fresh b d)
    (hsb : bufferOf lua c.sb=bufferOf lua sb) :
    ∃ s sb' b' d' ret,encodeValue lua mem.2 c.sb b d (a::tl)=some (s,sb',b',d',ret) ∧ bufferOf lua sb'=bufferOf lua sb ∧
      ∃ b'' n,eseek b' d' 0 .end_=some (b'',d',n) ∧
        (encodes lua sb a → s=a::tl ∧ Holds b'' d' (kept lua mem.2 sb a)) ∧
        (¬encodes lua sb a → s=bufferOf lua sb::a::tl) := by
  obtain ⟨b0,n0,hseek,hnil⟩ := holds_nil hf
  have hsb' : bufferOf lua (ensureSb lua.require c.sb).2=bufferOf lua sb := (ensureSb_again ..).trans hsb
  unfold encodeValue kept encodes
  by_cases ha : a=.nil
  · simp only [if_pos ha]
    exact ⟨_,_,_,_,_,rfl,hsb,_,_,hseek,fun _ => ⟨rfl,hnil⟩,fun hno => (hno (.inl ha)).elim⟩
  have hm : (ensureSb lua.require c.sb).1=bufferOf lua sb := hsb
  simp only [hm,ha,false_or,if_false]
  by_cases htable : (bufferOf lua sb).isTable=false
  · rw [if_pos htable]
    exact ⟨_,_,_,_,_,rfl,hsb',_,_,hseek,fun h => absurd h.1 (by simp [htable]),fun _ => rfl⟩
  rw [if_neg htable]
  have htable : (bufferOf lua sb).isTable=true := Bool.eq_true_of_not_eq_false htable
  unfold encoding
  cases henc : lua.encode (bufferOf lua sb) a with
  | none => exact ⟨_,_,_,_,_,rfl,hsb',_,_,hseek,fun h => absurd h.2 (by simp),fun _ => rfl⟩
  | some r =>
    simp only [Option.bind_some,List.drop_succ_cons,List.drop_zero,Option.isSome_some,htable,and_self]
    cases htext : r.text lua.numText with
    | none => exact ⟨_,_,_,_,_,rfl,hsb',_,_,hseek,fun _ => ⟨rfl,hnil⟩,fun h => (h trivial).elim⟩
    | some x =>
      cases x with
      | nil =>
        have hroom : room mem.2 [] := .inl (by decide)
        exact ⟨_,_,_,_,_,rfl,hsb',_,_,hseek,fun _ => ⟨rfl,by simpa [Option.filter,hroom] using hnil⟩,fun h => (h trivial).elim⟩
      | cons y x =>
        obtain ⟨b',d',r',hw,b'',n,hs,hh⟩ := wdata_fresh mem.2 hf (List.cons_ne_nil y x) (lua.short _ _ _ _ henc htext)
        simp only [hw,Option.map_some]
        refine ⟨_,_,_,_,_,rfl,hsb',_,_,hs,fun _ => ⟨rfl,?_⟩,fun h => (h trivial).elim⟩
        by_cases hroom : room mem.2 (y::x)
        · simpa [hroom,Option.filter] using hh
        · simpa [hroom,Option.filter] using hh

/-- What the entry of a header leaves, with its value `val` (an entry of no type has none). -/
structure Entered (lua : Lua) (mem : Mem×Mem) (sb key val : Value) (t : Option ℕ) (c c' : Conf) : Prop where
  cached : bufferOf lua c'.sb=bufferOf lua sb
  visits : c'.visits=c.visits++[key]
  heights : c'.heights=c.heights
  inits : c'.inits=c.inits++t.toList.map (key,·)
  made : c'.made=c.made++if mem.1.isSome then t.toList else []
  others : ∀ u,u∉t → c'.hdrs u=c.hdrs u
  hdr : ∀ u∈t,∃ i a,lua.getfield val "init"=some i ∧ lua.getfield val "args"=some a ∧
    (c'.hdrs u).initName=((i.text lua.numText).map (snprintf dpluaHdrNameMax)).getD (c.hdrs u).initName ∧
      Stored mem (kept lua mem.2 sb a) (c'.hdrs u).argBuf

theorem loadArgs_spec (mem : Mem×Mem) (key : Value) (t : ℕ) (hsb : bufferOf lua c.sb=bufferOf lua sb)
    (hs : c.stack=a::tl) :
    ∃ c',loadArgs lua mem key t c=some c' ∧
      ((mem.1.isSome → encodes lua sb a) → c'.stack=a::tl ∧ bufferOf lua c'.sb=bufferOf lua sb ∧ c'.visits=c.visits ∧
        c'.heights=c.heights ∧ c'.inits=c.inits++[(key,t)] ∧ c'.made=c.made++(if mem.1.isSome then [t] else []) ∧
          ∃ o,c'.hdrs=Function.update c.hdrs t ⟨(c.hdrs t).initName,o⟩ ∧ Stored mem (kept lua mem.2 sb a) o) ∧
      (¬(mem.1.isSome → encodes lua sb a) → c'.stack=bufferOf lua sb::a::tl) := by
  unfold loadArgs
  cases hd : dataNew 256 mem.1 with
  | none =>
    have hnone : mem.1=none := by
      cases hm : mem.1 with
      | none => rfl
      | some f =>
        rw [hm] at hd
        cases hd
    simp only [hnone]
    exact ⟨_,rfl,fun _ => ⟨hs,hsb,rfl,rfl,rfl,(List.append_nil _).symm,_,rfl,.inl ⟨rfl,hnone⟩⟩,fun h => (h nofun).elim⟩
  | some d =>
    have hsome : mem.1.isSome=true := by
      cases hm : mem.1 with
      | none =>
        rw [hm] at hd
        cases hd
      | some f => rfl
    obtain ⟨s,sb',b',d',ret,henc,hsb',b'',n,hseek,hok,hbad⟩ :=
      encodeValue_spec mem a tl (fresh_init hd) hsb
    simp only [hs,henc,Option.bind_some,hseek,Option.map_some,hsome,forall_const,if_true]
    refine ⟨_,rfl,fun h => ?_,hbad⟩
    obtain ⟨hstack,hholds⟩ := hok h
    exact ⟨hstack,hsb',rfl,rfl,rfl,rfl,_,rfl,.inr ⟨_,_,rfl,hsome,hholds⟩⟩

/-- The name is set, if there is one. -/
theorem setName_spec (c : Conf) (t : ℕ) (o : Option (List Byte)) :
    ∃ c',setName t o c=c' ∧ c'.stack=c.stack ∧ c'.sb=c.sb ∧ c'.visits=c.visits ∧ c'.heights=c.heights ∧ c'.inits=c.inits ∧
      c'.made=c.made ∧
        c'.hdrs=Function.update c.hdrs t ⟨(o.map (snprintf dpluaHdrNameMax)).getD (c.hdrs t).initName,(c.hdrs t).argBuf⟩ := by
  cases o with
  | none => exact ⟨c,rfl,rfl,rfl,rfl,rfl,rfl,rfl,(Function.update_eq_self t c.hdrs).symm⟩
  | some s => exact ⟨_,rfl,rfl,rfl,rfl,rfl,rfl,rfl,rfl⟩

theorem loadHdr_spec (mem : Mem×Mem) (key : Value) (t : ℕ) {i : Value} (hsb : bufferOf lua c.sb=bufferOf lua sb)
    (hinit : lua.getfield val "init"=some i) (hargs : lua.getfield val "args"=some a) : ∃ c',loadHdr lua mem key val t c=some c' ∧
      ((mem.1.isSome → encodes lua sb a) → c'.stack=c.stack ∧ bufferOf lua c'.sb=bufferOf lua sb ∧ c'.visits=c.visits ∧
        c'.heights=c.heights ∧ c'.inits=c.inits++[(key,t)] ∧ c'.made=c.made++(if mem.1.isSome then [t] else []) ∧
          ∃ o,c'.hdrs=Function.update c.hdrs t
            ⟨((i.text lua.numText).map (snprintf dpluaHdrNameMax)).getD (c.hdrs t).initName,o⟩ ∧
              Stored mem (kept lua mem.2 sb a) o) ∧
      (¬(mem.1.isSome → encodes lua sb a) → c'.stack=a::c.stack) := by
  obtain ⟨c1,hc1,hstack,hsb1,hvisits,hheights,hinits,hmade,hhdrs⟩ := setName_spec c t (i.text lua.numText)
  unfold loadHdr
  simp only [hinit,hargs,Option.bind_some,hc1]
  obtain ⟨c',hload,hok,hbad⟩ := loadArgs_spec mem key t (c := {c1 with stack := a::c1.stack})
    ((congrArg (bufferOf lua) hsb1).trans hsb) rfl
  rw [hload]
  refine ⟨_,rfl,fun h => ?_,fun h => ?_⟩
  · obtain ⟨h1,h2,h3,h4,h5,h6,o,h7,h8⟩ := hok h
    refine ⟨?_,h2,h3.trans hvisits,h4.trans hheights,?_,?_,o,?_,h8⟩
    · simp only [h1,hstack,List.drop_succ_cons,List.drop_zero]
    · simp only [h5,hinits]
    · simp only [h6,hmade]
    · simp only [h7,hhdrs,Function.update_idem,Function.update_self]
  · simp only [hbad h,hstack,List.drop_succ_cons,List.drop_zero]

theorem typeOf_number (h : t∈typeOf lua key) : ∃ x,key=.number x := by
  cases key with
  | number x => exact ⟨x,rfl⟩
  | _ => cases h

/-- An entry that runs leaves its key on the stack; after one that does not, the loop is at its end or the value has taken
the place of the key. -/
theorem visit_spec (mem : Value → Mem×Mem) (hsb : bufferOf lua c.sb=bufferOf lua sb) (hs : c.stack=val::key::tl) :
    (Runs lua mem sb (key,val) → ∃ c',visit lua mem c=some c' ∧ c'.stack=key::tl ∧
      Entered lua (mem key) sb key val (typeOf lua key) c c') ∧
    (¬Runs lua mem sb (key,val) → ∀ c',visit lua mem c=some c' → c'.stack=val::key::tl ∧ ∃ x,key=.number x) := by
  unfold visit Runs
  rw [hs]
  simp only
  cases ht : typeOf lua key with
  | none =>
    refine ⟨fun _ => ⟨_,rfl,rfl,hsb,rfl,rfl,?_,?_,fun _ _ => rfl,fun _ h => (by cases h)⟩,fun h => ?_⟩
    · exact (List.append_nil _).symm
    · simp
    · exact (h fun _ h => (by cases h)).elim
  | some t =>
    obtain ⟨x,hx⟩ := typeOf_number ht
    cases hinit : lua.getfield val "init" with
    | none =>
      refine ⟨fun h => ?_,fun _ c' hc' => ?_⟩
      · obtain ⟨i,a,h,-⟩ := h t rfl
        cases h
      · simp only [loadHdr,hinit] at hc'
        cases hc'
    | some i =>
      cases hargs : lua.getfield val "args" with
      | none =>
        refine ⟨fun h => ?_,fun _ c' hc' => ?_⟩
        · obtain ⟨i,a,-,h,-⟩ := h t rfl
          cases h
        · simp only [loadHdr,hinit,hargs] at hc'
          cases hc'
      | some a =>
        obtain ⟨c',hload,hok,hbad⟩ := loadHdr_spec (mem key) key t
          (c := {c with stack := val::key::tl, visits := c.visits++[key]}) hsb hinit hargs
        have hruns : (∀ u∈some t,∃ i' a',some i=some i' ∧ some a=some a' ∧ ((mem key).1.isSome → encodes lua sb a')) ↔
            ((mem key).1.isSome → encodes lua sb a) := by
          constructor
          · intro h
            obtain ⟨i',a',-,ha,h⟩ := h t rfl
            cases ha
            exact h
          · exact fun h u _ => ⟨i,a,rfl,rfl,h⟩
        simp only [hload,Option.map_some,hruns]
        refine ⟨fun h => ?_,fun h d hd => ?_⟩
        · obtain ⟨h1,h2,h3,h4,h5,h6,o,h7,h8⟩ := hok h
          refine ⟨_,rfl,by rw [h1]; rfl,h2,h3,h4,h5,h6,fun u hu => ?_,fun u hu => ?_⟩
          · have hne : u≠t := fun he => hu (he▸rfl)
            simp only [h7,Function.update_of_ne hne]
          · cases hu
            refine ⟨i,a,hinit,hargs,?_,?_⟩
            · simp only [h7,Function.update_self]
            · simp only [h7,Function.update_self]
              exact h8
        · cases hd
          exact ⟨by rw [hbad h]; rfl,x,hx⟩

end Entry

/-! ### The whole table -/

/-- The key that is on the stack after `pre`. -/
def cursor (pre : List (Value×Value)) : Value := (pre.getLast?.map Prod.fst).getD .nil

/-- The history of the entries `pre`. A header is the one of its type's entry as long as no other has been taken for it. -/
structure Done (lua : Lua) (mem : Value → Mem×Mem) (sb : Value) (pre : List (Value×Value)) (c : Conf) : Prop where
  cached : bufferOf lua c.sb=bufferOf lua sb
  visits : c.visits=pre.map Prod.fst
  inits : c.inits=pre.flatMap fun e => (typeOf lua e.1).toList.map (e.1,·)
  made : c.made=pre.flatMap fun e => if (mem e.1).1.isSome then (typeOf lua e.1).toList else []
  none : ∀ t,(∀ e∈pre,t∉typeOf lua e.1) → c.hdrs t={}
  hdr : ∀ t,∀ e∈pre,t∈typeOf lua e.1 → (∀ d∈pre,t∈typeOf lua d.1 → d=e) →
    ∃ i a,lua.getfield e.2 "init"=some i ∧ lua.getfield e.2 "args"=some a ∧
      (c.hdrs t).initName=((i.text lua.numText).map (snprintf dpluaHdrNameMax)).getD [] ∧
        Stored (mem e.1) (kept lua (mem e.1).2 sb a) (c.hdrs t).argBuf

section Table
variable {lua : Lua} {mem : Value → Mem×Mem} {sb : Value} {c c' : Conf} {a : ℕ} {base : List Value}
  {pre post : List (Value×Value)} {e : Value×Value}

theorem done_snoc (h : Done lua mem sb pre c) (he : e∉pre)
    (hn : Entered lua (mem e.1) sb e.1 e.2 (typeOf lua e.1) c c') : Done lua mem sb (pre++[e]) c' := by
  refine ⟨hn.cached,?_,?_,?_,fun t ht => ?_,fun t d hd ht honly => ?_⟩
  · rw [hn.visits,h.visits,List.map_append]
    rfl
  · rw [hn.inits,h.inits,List.flatMap_append,List.flatMap_singleton]
  · rw [hn.made,h.made,List.flatMap_append,List.flatMap_singleton]
  · rw [hn.others t (ht e (List.mem_append_right _ List.mem_cons_self))]
    exact h.none t fun d hd => ht d (List.mem_append_left _ hd)
  · rcases List.mem_append.mp hd with hin | hlast
    · -- the new entry is of another type
      have hother : t∉typeOf lua e.1 := fun hte => by
        have := honly e (List.mem_append_right _ List.mem_cons_self) hte
        exact he (this▸hin)
      rw [hn.others t hother]
      exact h.hdr t d hin ht fun d' hd' => honly d' (List.mem_append_left _ hd')
    · cases List.mem_singleton.mp hlast
      have hfirst : c.hdrs t={} := h.none t fun d hd htd => he (honly d (List.mem_append_left _ hd) htd▸hd)
      have hhdr := hn.hdr t ht
      rw [hfirst] at hhdr
      exact hhdr

/-- The key on the stack is the one of the last entry that has been visited. -/
theorem nextEntry_cursor (hk : ((pre++post).map Prod.fst).Nodup) (hnil : .nil∉(pre++post).map Prod.fst) :
    nextEntry (pre++post) (cursor pre)=some post.head? := by
  rcases pre.eq_nil_or_concat with rfl | ⟨l,e,rfl⟩
  · rfl
  · rw [List.concat_eq_append] at hk hnil ⊢
    have hkey : cursor (l++[e])=e.1 := by simp [cursor]
    have hne : e.1≠.nil := fun he => hnil (he▸List.mem_map_of_mem (by simp))
    have hl : ∀ d∈l,d.1≠e.1 := by
      intro d hd he
      rw [List.append_assoc,List.map_append,List.nodup_append] at hk
      exact hk.2.2 d.1 (List.mem_map_of_mem hd) e.1 (List.mem_map_of_mem (by simp)) he
    unfold nextEntry
    rw [hkey,if_neg hne,List.append_assoc,List.dropWhile_append_of_pos (fun d hd => by simpa using hl d hd)]
    simp

theorem luaNext_cursor (base : List Value) (hpost : lua.entries a=pre++post) :
    luaNext lua (cursor pre::.object .table a::base)=some (match post.head? with
      | none => (.object .table a::base,false)
      | some (k,v) => (v::k::.object .table a::base,true)) := by
  have hk := lua.distinct a
  have hnil := lua.keyed a
  rw [hpost] at hk hnil
  unfold luaNext
  simp only [hpost,nextEntry_cursor hk hnil,Option.map_some]

/-- An iteration: the entry runs and the next one is before it, or the loop has no end. -/
theorem loop_step (hpost : lua.entries a=pre++e::post) (hd : Done lua mem sb pre c)
    (hs : c.stack=cursor pre::.object .table a::base) :
    (Runs lua mem sb e → ∃ c',(∀ fuel,loop lua mem (fuel+1) c=loop lua mem fuel c') ∧ Done lua mem sb (pre++[e]) c' ∧
      c'.stack=cursor (pre++[e])::.object .table a::base ∧ c'.heights=c.heights++[base.length+2]) ∧
    (¬Runs lua mem sb e → ∀ fuel,loop lua mem fuel c=none) := by
  obtain ⟨k,v⟩ := e
  have hnext := luaNext_cursor base hpost
  have hnew : (k,v)∉pre := by
    have hk := lua.distinct a
    rw [hpost,List.map_append,List.nodup_append] at hk
    exact fun hin => hk.2.2 k (List.mem_map_of_mem hin) k (List.mem_map_of_mem List.mem_cons_self) rfl
  obtain ⟨hok,hbad⟩ := visit_spec mem
    (c := {c with heights := c.heights++[c.stack.length], stack := v::k::.object .table a::base}) hd.cached rfl
  constructor
  · intro hruns
    obtain ⟨c',hvisit,hstack,hentered⟩ := hok hruns
    refine ⟨c',fun fuel => ?_,?_,?_,?_⟩
    · rw [loop,hs,hnext]
      rw [hs] at hvisit
      simp only [List.head?_cons,Option.bind_some,if_true,hvisit]
    · have hd' : Done lua mem sb pre
          {c with heights := c.heights++[c.stack.length], stack := v::k::.object .table a::base} :=
        ⟨hd.cached,hd.visits,hd.inits,hd.made,hd.none,hd.hdr⟩
      exact done_snoc hd' hnew hentered
    · rw [hstack]
      simp [cursor]
    · rw [hentered.heights,hs]
      rfl
  · intro hruns fuel
    cases fuel with
    | zero => rfl
    | succ fuel =>
      rw [loop,hs,hnext]
      simp only [List.head?_cons,Option.bind_some,if_true]
      rw [← hs]
      cases hvisit : visit lua mem
        {c with heights := c.heights++[c.stack.length], stack := v::k::.object .table a::base} with
      | none => rfl
      | some c' =>
        obtain ⟨hstack,x,hx⟩ := hbad hruns c' hvisit
        rw [Option.bind_some]
        cases fuel with
        | zero => rfl
        | succ fuel =>
          -- lua_next is called with the key in the place of the table
          rw [loop,hstack,hx]
          rfl

theorem loop_last (hpost : lua.entries a=pre) (hs : c.stack=cursor pre::.object .table a::base) (fuel : ℕ) :
    loop lua mem (fuel+1) c=
      some {c with heights := c.heights++[base.length+2], stack := .object .table a::base} := by
  rw [loop,hs,luaNext_cursor base (hpost.trans (List.append_nil pre).symm)]
  rfl

theorem loop_ends (hpost : lua.entries a=pre++post) (hd : Done lua mem sb pre c)
    (hs : c.stack=cursor pre::.object .table a::base) (hruns : ∀ e∈post,Runs lua mem sb e) :
    ∃ c',loop lua mem (post.length+1) c=some c' := by
  induction post generalizing pre c with
  | nil => exact ⟨_,loop_last (hpost.trans (List.append_nil _)) hs 0⟩
  | cons e post ih =>
    obtain ⟨c1,hloop,hd1,hs1,-⟩ := (loop_step hpost hd hs).1 (hruns e List.mem_cons_self)
    obtain ⟨c',hc'⟩ := ih (hpost.trans (List.append_cons ..)) hd1 hs1 fun d hin => hruns d (List.mem_cons_of_mem e hin)
    exact ⟨c',(hloop _).trans hc'⟩

/-- What holds where the loop has come to its end. -/
theorem loop_runs (hpost : lua.entries a=pre++post) (hd : Done lua mem sb pre c)
    (hs : c.stack=cursor pre::.object .table a::base) {fuel : ℕ} (hloop : loop lua mem fuel c=some c') :
    (∀ e∈post,Runs lua mem sb e) ∧ Done lua mem sb (lua.entries a) c' ∧ c'.stack=.object .table a::base ∧
      c'.heights=c.heights++List.replicate (post.length+1) (base.length+2) := by
  induction post generalizing pre c fuel with
  | nil =>
    rw [List.append_nil] at hpost
    cases fuel with
    | zero => cases hloop
    | succ fuel =>
      rw [loop_last hpost hs] at hloop
      cases hloop
      refine ⟨nofun,?_,rfl,rfl⟩
      rw [hpost]
      exact ⟨hd.cached,hd.visits,hd.inits,hd.made,hd.none,hd.hdr⟩
  | cons e post ih =>
    obtain ⟨hok,hbad⟩ := loop_step hpost hd hs
    by_cases hruns : Runs lua mem sb e
    · obtain ⟨c1,hstep,hd1,hs1,hh1⟩ := hok hruns
      cases fuel with
      | zero => cases hloop
      | succ fuel =>
        rw [hstep] at hloop
        obtain ⟨hall,hdone,hstack,hheights⟩ := ih (hpost.trans (List.append_cons ..)) hd1 hs1 hloop
        refine ⟨List.forall_mem_cons.mpr ⟨hruns,hall⟩,hdone,hstack,?_⟩
        rw [hheights,hh1,List.append_assoc]
        rfl
    · rw [hbad hruns] at hloop
      cases hloop

end Table

/-! ### The header of a thread -/

/-- The bytes of the arguments. -/
def Hdr.args (h : Hdr) : List Byte :=
  match h.argBuf with
  | none => []
  | some (b,d) => readable b d

/-- The module of a thread makes a buffer of the bytes and decodes it. -/
def reads (thr : Thread) (x : List Byte) : Prop :=
  (ensureSb thr.require .nil).1.isTable ∧
    ∃ buf,thr.new (ensureSb thr.require .nil).1=some buf ∧ thr.set buf x ∧ (thr.decode buf x).isSome

section Header
variable {thr : Thread} {mem : Mem×Mem} {x : List Byte} {s : List Slot} {hdrs : ℕ → Hdr} {t : ℕ} {typeCount : ℤ}

theorem holds_readable {b : Buf Unit} {d : Data} (h : Holds b d x) : readable b d=x := by
  have hload := h.load
  unfold Data.load at hload
  split at hload
  · have hseg := Option.some.inj hload
    unfold readable
    rw [h.rbeg,h.rend]
    simpa using hseg
  · cases hload

theorem stored_args {h : Hdr} (hs : Stored mem x h.argBuf) : h.args=[] ∧ mem.1=none ∨ h.args=x ∧ mem.1.isSome := by
  unfold Hdr.args
  rcases hs with ⟨ho,hm⟩ | ⟨b,d,ho,hm,hh⟩
  · rw [ho]
    exact .inl ⟨rfl,hm⟩
  · rw [ho]
    exact .inr ⟨holds_readable hh,hm⟩

theorem decode_reads (hx : x≠[]) (h : reads thr x) : ∃ buf w ret,decodeValue thr x s=(.val w::s,ret) ∧
    thr.new (ensureSb thr.require .nil).1=some buf ∧ thr.decode buf x=some w := by
  obtain ⟨htable,buf,hnew,hset,hdec⟩ := h
  obtain ⟨w,hw⟩ := Option.isSome_iff_exists.mp hdec
  refine ⟨buf,w,0,?_,hnew,hw⟩
  unfold decodeValue
  simp [hx,htable,hnew,hset,hw]

/-- The exits of an error leave the module below the nil. -/
theorem decode_fails (hx : x≠[]) (h : ¬reads thr x) :
    (decodeValue thr x s).1=.val .nil::.val (ensureSb thr.require .nil).1::s := by
  unfold decodeValue
  rw [if_neg hx]
  simp only
  split
  · rfl
  · rename_i htable
    cases hnew : thr.new (ensureSb thr.require .nil).1 with
    | none => rfl
    | some buf =>
      simp only
      split
      · rfl
      · rename_i hset
        cases hdec : thr.decode buf x with
        | none => rfl
        | some w =>
          refine (h ⟨Bool.eq_true_of_not_eq_false htable,buf,hnew,Bool.eq_true_of_not_eq_false hset,?_⟩).elim
          rw [hdec]
          rfl

/-- dpbuf_rseek to the start of a buffer that has not been read. -/
theorem rseek_start {b : Buf Unit} {d : Data} (h : Holds b d x) : rseek b d 0 .set=some (b,d,0) := by
  have hrend := h.rend
  have hclamp : iclamp (wrap (0+0)) 0 b.rend=0 := by
    rw [show wrap (0+0)=0 from by decide]
    unfold iclamp
    simp only
    split <;> split <;> omega
  unfold rseek
  simp only [hclamp,h.rbeg,sub_self]
  rw [← h.rbeg]

theorem push_empty (hname : (hdrs t).initName=[]) :
    pushRuntimeHdr thr typeCount hdrs t s=some (.hdr::s,[],hdrs) := if_neg fun h => h.2 hname

theorem push_spec (ht : t<typeCount) (hname : (hdrs t).initName≠[]) (hs : Stored mem x (hdrs t).argBuf) :
    pushRuntimeHdr thr typeCount hdrs t s=
      (setfield [("init",.string (hdrs t).initName)] "args"
        (if (hdrs t).args=[] then .val .nil::.hdr::s else (decodeValue thr (hdrs t).args (.hdr::s)).1)).map
          fun (s,f) => (s,f,hdrs) := by
  unfold pushRuntimeHdr
  rw [if_pos ⟨ht,hname⟩]
  rcases hs with ⟨ho,-⟩ | ⟨b,d,ho,-,hh⟩
  · have hargs : (hdrs t).args=[] := by
      unfold Hdr.args
      rw [ho]
    simp only [ho,hargs,if_true]
  · have hargs : (hdrs t).args=x := by
      unfold Hdr.args
      rw [ho]
      exact holds_readable hh
    have hsame : Function.update hdrs t {hdrs t with argBuf := some (b,d)}=hdrs := by
      rw [← ho]
      exact Function.update_eq_self t hdrs
    have hsize : b.crsize=x.length := by rw [Buf.crsize,hh.rend,hh.rbeg,sub_zero]
    simp only [ho,rseek_start hh,Option.bind_some,hsame,hargs,hsize]
    by_cases hx : x=[]
    · rw [if_neg (by simp [hx]),if_pos hx]
    · have hpos := List.length_pos_iff.mpr hx
      rw [if_pos (by omega),if_neg hx,hh.rbeg,hh.load,Option.bind_some]

end Header

/-! ### What is asked for -/

section Config
variable {ι : Type*} (lua : Lua) (mem : Value → Mem×Mem) (thr : ℕ → ι → Thread) (same : Value → Value → Prop)
  (typeCount : ℤ) (a : ℕ) (base : List Value) (sb : Value)

/-- What the configuration has to be when it is done, and what the threads (`thr t n` of type `t`) make of it; `same` is
a value that is equal in another state. -/
structure Right (c : Conf) : Prop where
  visits : c.visits=(lua.entries a).map Prod.fst
  heights : c.heights=List.replicate ((lua.entries a).length+1) (base.length+2)
  stack : c.stack=base
  own : ∀ p∈c.inits,p.1=typeKey p.2
  once : (c.inits.map Prod.snd).Nodup
  freed : ∀ t,c.made.count t=(freeConfig typeCount c.hdrs).count t
  names : ∀ t<dpappTypeMax,∀ v,(typeKey t,v)∈lua.entries a →
    ∃ i,lua.getfield v "init"=some i ∧ (c.hdrs t).initName=(i.text lua.numText).getD []
  args : ∀ t<dpappTypeMax,∀ v,(typeKey t,v)∈lua.entries a → ∃ x,lua.getfield v "args"=some x ∧
    ((c.hdrs t).args=[] ∨ encoding lua sb x=some (c.hdrs t).args)
  threads : ∀ t : ℕ,t<typeCount → ∀ n s,∃ f,
    pushRuntimeHdr (thr t n) typeCount c.hdrs t s=some (.hdr::s,f,c.hdrs) ∧
      ((c.hdrs t).initName=[] ∧ f=[] ∨
       (c.hdrs t).initName≠[] ∧ ∃ w,f=[("init",.string (c.hdrs t).initName),("args",w)] ∧
        ((c.hdrs t).args=[] ∧ w=.nil ∨ (c.hdrs t).args≠[] ∧
          ∃ v x,(typeKey t,v)∈lua.entries a ∧ lua.getfield v "args"=some x ∧ same x w))

/-- An entry of type `t`: the key is the number of the type, which is one of the module's if there is a buffer; the two
fields can be read; the name has no zero and is below 64 bytes; the args can be encoded, and what is kept of them is
decoded by the threads of the type, if they have a name to start with. -/
structure EntryFits (e : Value×Value) (t : ℕ) : Prop where
  key : e.1=typeKey t
  owned : (mem e.1).1.isSome → t<typeCount
  init : ∃ i,lua.getfield e.2 "init"=some i ∧ ∀ s∈i.text lua.numText,0∉s ∧ s.length<dpluaHdrNameMax
  args : ∃ x,lua.getfield e.2 "args"=some x ∧ ((mem e.1).1.isSome → encodes lua sb x)
  threads : ∀ i∈lua.getfield e.2 "init",∀ s∈i.text lua.numText,s≠[] → ∀ x∈lua.getfield e.2 "args",x≠.nil →
    (mem e.1).1.isSome → ∀ b∈encoding lua sb x,b≠[] → room (mem e.1).2 b → ∀ n,reads (thr t n) b

def fits : Prop := ∀ e∈lua.entries a,∀ t∈typeOf lua e.1,EntryFits lua mem thr typeCount sb e t

end Config

section Entries
variable {ι : Type*} {lua : Lua} {mem : Value → Mem×Mem} {thr : ℕ → ι → Thread} {same : Value → Value → Prop}
  {typeCount : ℤ} {a t : ℕ} {base : List Value} {sb k v x : Value} {c : Conf} {e : Value×Value} {l : List (Value×Value)}

theorem typeOf_lt (h : t∈typeOf lua k) : t<dpappTypeMax := by
  cases k with
  | number x =>
    simp only [typeOf] at h
    split at h
    · rename_i hr
      cases h
      omega
    · cases h
  | _ => cases h

theorem typeOf_typeKey (h : t<dpappTypeMax) : typeOf lua (typeKey t)=some t := by
  unfold dpappTypeMax at h
  have hint : lua.toInteger (.fin ((t : ℤ) : ℚ))=t := lua.integral t (by omega) (by omega)
  have hwrap : wrap (t : ℤ)=t := (wrap_cases _).2.2.1 (by omega) (by omega)
  rw [Int.cast_natCast] at hint
  simp only [typeOf,typeKey,hint,hwrap]
  rw [if_pos ⟨by omega,by unfold dpappTypeMax; omega⟩,Int.toNat_natCast]

theorem snprintf_eq (s : List Byte) : snprintf dpluaHdrNameMax s=s ↔ 0∉s ∧ s.length<dpluaHdrNameMax := by
  unfold snprintf dpluaHdrNameMax
  constructor
  · intro h
    have hlen := congrArg List.length h
    rw [List.length_take] at hlen
    have hle := (List.takeWhile_prefix (p := fun b : Byte => b≠0) (l := s)).length_le
    have hall : s.takeWhile (·≠0)=s := (List.takeWhile_prefix _).eq_of_length_le (by omega)
    refine ⟨fun h0 => ?_,by omega⟩
    simpa using List.takeWhile_eq_self_iff.mp hall 0 h0
  · rintro ⟨h0,hlen⟩
    have hall : s.takeWhile (·≠0)=s := List.takeWhile_eq_self_iff.mpr fun b hb => by
      simpa using fun hb0 : b=0 => h0 (hb0▸hb)
    rw [hall,List.take_of_length_le (by omega)]

/-- Where each key is the one of its type, no type comes up twice. -/
theorem types_nodup (p : Value×Value → Bool) (hkey : ∀ e∈l,∀ t∈typeOf lua e.1,e.1=typeKey t)
    (hk : (l.map Prod.fst).Nodup) : (l.flatMap fun e => if p e then (typeOf lua e.1).toList else []).Nodup := by
  induction l with
  | nil => exact List.nodup_nil
  | cons e l ih =>
    rw [List.map_cons,List.nodup_cons] at hk
    rw [List.flatMap_cons,List.nodup_append]
    refine ⟨?_,ih (fun d hd => hkey d (List.mem_cons_of_mem e hd)) hk.2,fun t ht u hu htu => ?_⟩
    · cases hp : p e <;> cases ht : typeOf lua e.1 <;> simp
    · subst htu
      obtain ⟨d,hd,hdt⟩ := List.mem_flatMap.mp hu
      have he : t∈typeOf lua e.1 := by
        split at ht
        · exact Option.mem_toList.mp ht
        · cases ht
      have hd' : t∈typeOf lua d.1 := by
        split at hdt
        · exact Option.mem_toList.mp hdt
        · cases hdt
      have hsame := (hkey e List.mem_cons_self t he).trans (hkey d (List.mem_cons_of_mem e hd) t hd').symm
      exact hk.1 (hsame▸List.mem_map_of_mem hd)

/-- A type has one entry at most. -/
theorem entry_unique (hkey : ∀ e∈lua.entries a,∀ t∈typeOf lua e.1,e.1=typeKey t) (he : e∈lua.entries a)
    (ht : t∈typeOf lua e.1) :
    ∀ d∈lua.entries a,t∈typeOf lua d.1 → d=e := fun d hd htd =>
  List.inj_on_of_nodup_map (lua.distinct a) hd he ((hkey d hd t htd).trans (hkey e he t ht).symm)

theorem mem_inits (hd : Done lua mem sb l c) (he : e∈l) (ht : t∈typeOf lua e.1) : (e.1,t)∈c.inits := by
  rw [hd.inits]
  exact List.mem_flatMap.mpr ⟨e,he,List.mem_map_of_mem (Option.mem_toList.mpr ht)⟩

theorem mem_made (hd : Done lua mem sb l c) : t∈c.made ↔ ∃ e∈l,t∈typeOf lua e.1 ∧ (mem e.1).1.isSome := by
  rw [hd.made,List.mem_flatMap]
  refine exists_congr fun e => and_congr_right fun _ => ?_
  split
  · rename_i h
    rw [Option.mem_toList]
    exact (and_iff_left h).symm
  · rename_i h
    exact ⟨nofun,fun ⟨_,h'⟩ => (h h').elim⟩

theorem mem_freeConfig (h64 : typeCount≤dpappTypeMax) (hdrs : ℕ → Hdr) :
    t∈freeConfig typeCount hdrs ↔ t<typeCount ∧ (hdrs t).argBuf.isSome := by
  unfold freeConfig
  rw [List.mem_filter,List.mem_range,min_eq_left h64]
  exact and_congr_left fun _ => by omega

theorem done_start (s : List Value) : Done lua mem sb [] {stack := s, sb := sb} :=
  ⟨rfl,rfl,rfl,rfl,fun _ _ => rfl,nofun⟩

theorem loadConfig_loop (h1 : 1≤typeCount) (h64 : typeCount≤dpappTypeMax) (fuel : ℕ) :
    loadConfig lua mem true typeCount a base sb fuel=
      (loop lua mem fuel {stack := .nil::.object .table a::base, sb := sb}).map fun c =>
        some {c with stack := c.stack.drop 1} := by
  unfold loadConfig
  rw [if_neg (by omega),if_neg (by decide)]

/-- The configuration comes to an end if and only if all entries run, and then it is this. -/
theorem loadConfig_iff (h1 : 1≤typeCount) (h64 : typeCount≤dpappTypeMax) (P : Conf → Prop) :
    (∃ fuel c,loadConfig lua mem true typeCount a base sb fuel=some (some c) ∧ P c) ↔
      (∀ e∈lua.entries a,Runs lua mem sb e) ∧
        ∃ fuel c,loadConfig lua mem true typeCount a base sb fuel=some (some c) ∧ Done lua mem sb (lua.entries a) c ∧
          c.stack=base ∧ c.heights=List.replicate ((lua.entries a).length+1) (base.length+2) ∧ P c := by
  constructor
  · rintro ⟨fuel,c,hc,hp⟩
    have hload := hc
    rw [loadConfig_loop h1 h64] at hc
    obtain ⟨c',hloop,hcc⟩ := Option.map_eq_some_iff.mp hc
    cases hcc
    obtain ⟨hall,hd,hs,hh⟩ := loop_runs (List.nil_append _).symm (done_start _) rfl hloop
    refine ⟨hall,fuel,_,hload,⟨hd.cached,hd.visits,hd.inits,hd.made,hd.none,hd.hdr⟩,?_,hh,hp⟩
    simp only [hs,List.drop_succ_cons,List.drop_zero]
  · rintro ⟨-,fuel,c,hc,-,-,-,hp⟩
    exact ⟨fuel,c,hc,hp⟩

theorem loadConfig_ends (base : List Value) (h1 : 1≤typeCount) (h64 : typeCount≤dpappTypeMax)
    (hall : ∀ e∈lua.entries a,Runs lua mem sb e) :
    ∃ fuel c,loadConfig lua mem true typeCount a base sb fuel=some (some c) := by
  obtain ⟨c,hc⟩ := loop_ends (List.nil_append _).symm (done_start (.nil::.object .table a::base)) rfl hall
  refine ⟨(lua.entries a).length+1,{c with stack := c.stack.drop 1},?_⟩
  rw [loadConfig_loop h1 h64]
  exact congrArg (Option.map _) hc

/-- Whatever is right of a configuration is a fact about its entries. -/
theorem fits_of_right (h64 : typeCount≤dpappTypeMax) (hall : ∀ e∈lua.entries a,Runs lua mem sb e)
    (hd : Done lua mem sb (lua.entries a) c) (hr : Right lua thr same typeCount a base sb c) :
    fits lua mem thr typeCount a sb := by
  intro e he t ht
  have hkey : ∀ e∈lua.entries a,∀ t∈typeOf lua e.1,e.1=typeKey t := fun e he t ht => hr.own _ (mem_inits hd he ht)
  have hlt := typeOf_lt ht
  have hmem : (typeKey t,e.2)∈lua.entries a := by
    rw [← hkey e he t ht]
    exact he
  obtain ⟨i,x,hinit,hargs,hname,hstored⟩ := hd.hdr t e he ht (entry_unique hkey he ht)
  have howned : (mem e.1).1.isSome → t<typeCount := fun hsome => by
    have hmade : t∈c.made := (mem_made hd).mpr ⟨e,he,ht,hsome⟩
    have hfree : t∈freeConfig typeCount c.hdrs := List.count_pos_iff.mp (hr.freed t▸List.count_pos_iff.mpr hmade)
    exact ((mem_freeConfig h64 _).mp hfree).1
  have htext : (c.hdrs t).initName=(i.text lua.numText).getD [] := by
    obtain ⟨i',hi',h⟩ := hr.names t hlt e.2 hmem
    cases hinit.symm.trans hi'
    exact h
  refine ⟨hkey e he t ht,howned,⟨i,hinit,fun s hs => ?_⟩,?_,?_⟩
  · rw [Option.mem_def] at hs
    rw [hs] at hname htext
    exact (snprintf_eq s).mp (hname.symm.trans htext)
  · obtain ⟨i',x',-,hx',henc⟩ := hall e he t ht
    exact ⟨x',hx',henc⟩
  · intro i' hi' s hs hne x' hx' hnil hsome b hb hbne hroom n
    cases hinit.symm.trans hi'
    cases hargs.symm.trans hx'
    rw [Option.mem_def] at hs hb
    rw [hs] at htext
    have hkept : kept lua (mem e.1).2 sb x=b := by
      unfold kept
      simp [hnil,hb,hroom,Option.filter]
    have hbytes : (c.hdrs t).args=b := by
      rcases stored_args hstored with ⟨-,hm⟩ | ⟨h,-⟩
      · rw [hm] at hsome
        cases hsome
      · exact h.trans hkept
    by_contra hreads
    obtain ⟨f,hpush,-⟩ := hr.threads t (howned hsome) n []
    rw [push_spec (howned hsome) (by rw [htext]; exact hne) hstored,hbytes,if_neg hbne,decode_fails hbne hreads] at hpush
    simp only [setfield] at hpush
    split at hpush <;> simp at hpush

theorem runs_of_fits (h : fits lua mem thr typeCount a sb) : ∀ e∈lua.entries a,Runs lua mem sb e := fun e he t ht => by
  obtain ⟨-,-,⟨i,hi,-⟩,⟨x,hx,henc⟩,-⟩ := h e he t ht
  exact ⟨i,x,hi,hx,henc⟩

/-- What is kept of a value is its encoding, or nothing. -/
theorem kept_cases (mem : Mem) (x : Value) : kept lua mem sb x=[] ∨
    x≠.nil ∧ encoding lua sb x=some (kept lua mem sb x) ∧ room mem (kept lua mem sb x) := by
  unfold kept
  by_cases hx : x=.nil
  · exact .inl (if_pos hx)
  · rw [if_neg hx]
    cases henc : encoding lua sb x with
    | none => exact .inl rfl
    | some b =>
      by_cases hroom : room mem b
      · exact .inr ⟨hx,by simp [Option.filter,hroom],by simp [Option.filter,hroom]⟩
      · exact .inl (by simp [Option.filter,hroom])

theorem right_of_fits (h64 : typeCount≤dpappTypeMax)
    (hround : ∀ t n x w b buf,encoding lua sb x=some b → (thr t n).decode buf b=some w → same x w)
    (h : fits lua mem thr typeCount a sb) (hd : Done lua mem sb (lua.entries a) c) (hs : c.stack=base)
    (hh : c.heights=List.replicate ((lua.entries a).length+1) (base.length+2)) :
    Right lua thr same typeCount a base sb c := by
  have hkey : ∀ e∈lua.entries a,∀ t∈typeOf lua e.1,e.1=typeKey t := fun e he t ht => (h e he t ht).key
  have hmade : c.made.Nodup := by
    rw [hd.made]
    exact types_nodup (fun e => (mem e.1).1.isSome) hkey (lua.distinct a)
  have hfree : (freeConfig typeCount c.hdrs).Nodup := List.nodup_range.filter _
  have hentry (t : ℕ) (e) (he : e∈lua.entries a) (ht : t∈typeOf lua e.1) := hd.hdr t e he ht (entry_unique hkey he ht)
  refine ⟨hd.visits,hh,hs,fun p hp => ?_,?_,fun t => ?_,fun t ht v hv => ?_,fun t ht v hv => ?_,fun t ht n s => ?_⟩
  · rw [hd.inits,List.mem_flatMap] at hp
    obtain ⟨e,he,hp⟩ := hp
    obtain ⟨t,ht,rfl⟩ := List.mem_map.mp hp
    exact hkey e he t (Option.mem_toList.mp ht)
  · have hnodup := types_nodup (fun _ => true) hkey (lua.distinct a)
    rw [hd.inits,List.map_flatMap]
    simpa [Function.comp_def] using hnodup
  · refine List.Perm.count_eq ((List.perm_ext_iff_of_nodup hmade hfree).mpr fun u => ?_) t
    rw [mem_made hd,mem_freeConfig h64]
    constructor
    · rintro ⟨e,he,hu,hsome⟩
      obtain ⟨i,x,-,-,-,hstored⟩ := hentry u e he hu
      refine ⟨(h e he u hu).owned hsome,?_⟩
      rcases hstored with ⟨-,hm⟩ | ⟨b,d,ho,-⟩
      · rw [hm] at hsome
        cases hsome
      · rw [ho]
        rfl
    · rintro ⟨hu,hsome⟩
      by_contra hno
      have hnone : (c.hdrs u).argBuf=none := by
        by_cases hex : ∃ e∈lua.entries a,u∈typeOf lua e.1
        · obtain ⟨e,he,hue⟩ := hex
          obtain ⟨i,x,-,-,-,⟨ho,-⟩ | ⟨b,d,-,hm,-⟩⟩ := hentry u e he hue
          · exact ho
          · exact (hno ⟨e,he,hue,hm⟩).elim
        · rw [hd.none u fun e he hue => hex ⟨e,he,hue⟩]
      rw [hnone] at hsome
      cases hsome
  · obtain ⟨i,x,hinit,-,hname,-⟩ := hentry t _ hv (typeOf_typeKey ht)
    refine ⟨i,hinit,?_⟩
    obtain ⟨i',hi',htext⟩ := (h _ hv t (typeOf_typeKey ht)).init
    cases hinit.symm.trans hi'
    rw [hname]
    cases hi : i.text lua.numText with
    | none => rfl
    | some s => exact (snprintf_eq s).mpr (htext s hi)
  · obtain ⟨i,x,-,hargs,-,hstored⟩ := hentry t _ hv (typeOf_typeKey ht)
    refine ⟨x,hargs,?_⟩
    rcases stored_args hstored with ⟨h,-⟩ | ⟨h,-⟩
    · exact .inl h
    · rw [h]
      exact (kept_cases _ x).imp_right fun h => h.2.1
  · by_cases hname : (c.hdrs t).initName=[]
    · exact ⟨[],push_empty hname,.inl ⟨hname,rfl⟩⟩
    have hex : ∃ e∈lua.entries a,t∈typeOf lua e.1 := by
      by_contra hno
      rw [hd.none t fun e he hte => hno ⟨e,he,hte⟩] at hname
      exact hname rfl
    obtain ⟨e,he,hte⟩ := hex
    obtain ⟨i,x,hinit,hargs,hini,hstored⟩ := hentry t e he hte
    have hfit := h e he t hte
    rw [push_spec ht hname hstored]
    by_cases hempty : (c.hdrs t).args=[]
    · rw [if_pos hempty]
      exact ⟨_,rfl,.inr ⟨hname,.nil,rfl,.inl ⟨hempty,rfl⟩⟩⟩
    rw [if_neg hempty]
    rcases stored_args hstored with ⟨h,-⟩ | ⟨hkept,hsome⟩
    · exact (hempty h).elim
    rcases kept_cases (mem e.1).2 x with hnone | ⟨hnil,henc,hroom⟩
    · exact (hempty (hkept.trans hnone)).elim
    rw [← hkept] at henc hroom
    have htext : ∃ s,i.text lua.numText=some s ∧ s≠[] := by
      cases hi : i.text lua.numText with
      | none =>
        rw [hi] at hini
        exact (hname hini).elim
      | some s =>
        refine ⟨s,rfl,fun hnil => hname ?_⟩
        rw [hini,hi,hnil]
        rfl
    obtain ⟨s',hs',hne⟩ := htext
    have hreads := hfit.threads i hinit s' hs' hne x hargs hnil hsome _ henc hempty hroom n
    obtain ⟨buf,w,ret,hdec,-,hw⟩ := decode_reads (s := .hdr::s) hempty hreads
    rw [hdec]
    refine ⟨_,rfl,.inr ⟨hname,w,rfl,.inr ⟨hempty,e.2,x,?_,hargs,hround t n x w _ buf henc hw⟩⟩⟩
    rw [← hkey e he t hte]
    exact he

theorem config_right (h1 : 1≤typeCount) (h64 : typeCount≤dpappTypeMax)
    (hround : ∀ t n x w b buf,encoding lua sb x=some b → (thr t n).decode buf b=some w → same x w) :
    (∃ fuel c,loadConfig lua mem true typeCount a base sb fuel=some (some c) ∧ Right lua thr same typeCount a base sb c) ↔
      fits lua mem thr typeCount a sb := by
  refine (loadConfig_iff h1 h64 _).trans ⟨fun h => ?_,fun h => ?_⟩
  · obtain ⟨hall,fuel,c,-,hd,-,-,hr⟩ := h
    exact fits_of_right h64 hall hd hr
  · have hall := runs_of_fits h
    obtain ⟨fuel,c,hc⟩ := loadConfig_ends base h1 h64 hall
    obtain ⟨-,fuel,c,hc,hd,hs,hh,-⟩ := (loadConfig_iff h1 h64 fun _ => True).mp ⟨fuel,c,hc,trivial⟩
    exact ⟨hall,fuel,c,hc,hd,hs,hh,right_of_fits h64 hround h hd hs hh⟩

end Entries

/-- One type, with the name of a function and these args; string.buffer knows the number 7. -/
def oneType (args : Value) : Lua where
  toInteger
    | .fin x => x.num.tdiv x.den
    | _ => 0
  integral n _ _ := by simp
  numText _ := [55]
  entries _ := [(typeKey 0,.object .table 1)]
  distinct _ := by simp
  keyed _ := by simp [typeKey]
  getfield
    | .object .table 1, "init" => some (.string [102])
    | .object .table 1, "args" => some args
    | _, _ => some .nil
  require := some (.object .table 2)
  encode _ v := if v=.number (.fin 7) then some (.string [1,7]) else none
  short m v r s h hs := by
    split at h
    · cases h
      cases hs
      decide
    · cases h

def oneThread : Thread where
  require := some (.object .table 2)
  new _ := some (.object .userdata 3)
  set _ _ := true
  decode _ x := if x=[1,7] then some (.number (.fin 7)) else none

theorem oneType_round (args : Value) : ∀ (_ : ℕ) (_ : Unit) (x w : Value) (b : List Byte) (buf : Value),
    encoding (oneType args) .nil x=some b → oneThread.decode buf b=some w → x=w := by
  intro _ _ x w b buf henc hdec
  by_cases hx : x=.number (.fin 7)
  · simp only [oneThread] at hdec
    split at hdec
    · cases hdec
      exact hx
    · cases hdec
  · simp [encoding,oneType,hx] at henc

theorem config_right_number : ∃ fuel c,
    loadConfig (oneType (.number (.fin 7))) (fun _ => (some fun _ => 0,none)) true 1 0 [] .nil fuel=some (some c) ∧
      Right (oneType (.number (.fin 7))) (fun _ (_ : Unit) => oneThread) Eq 1 0 [] .nil c := by
  refine (config_right (by decide) (by decide) fun t n => oneType_round _ t n).mpr fun e he t ht => ?_
  cases List.mem_singleton.mp he
  rw [typeOf_typeKey (by decide)] at ht
  cases ht
  refine ⟨rfl,fun _ => by decide,⟨_,rfl,fun s hs => ?_⟩,⟨_,rfl,fun _ => .inr ⟨rfl,rfl⟩⟩,
    fun i _ s _ _ x hx _ _ b hb _ _ n => ?_⟩
  · cases hs
    decide
  · cases hx
    cases hb
    exact ⟨rfl,_,rfl,rfl,rfl⟩

/-- A function as args: string.buffer does not encode it, the module stays on the stack, and lua_next is called with the
key in the place of the table. -/
theorem config_function : ¬∀ (lua : Lua) (mem : Value → Mem×Mem) (thr : ℕ → Unit → Thread) (same : Value → Value → Prop)
    (typeCount : ℤ) (a : ℕ) (base : List Value) (sb : Value),1≤typeCount → typeCount≤dpappTypeMax →
      (∀ t n x w b buf,encoding lua sb x=some b → (thr t n).decode buf b=some w → same x w) →
        ∃ fuel c,loadConfig lua mem true typeCount a base sb fuel=some (some c) ∧
          Right lua thr same typeCount a base sb c := by
  intro hall
  have hright := hall (oneType (.object .function 4)) (fun _ => (some fun _ => 0,none)) (fun _ _ => oneThread) Eq 1 0 [] .nil
    (by decide) (by decide) fun t n => oneType_round _ t n
  obtain ⟨hruns,-⟩ := (loadConfig_iff (by decide) (by decide) _).mp hright
  obtain ⟨i,x,-,hx,henc⟩ := hruns (typeKey 0,.object .table 1) (List.mem_singleton.mpr rfl) 0 (typeOf_typeKey (by decide))
  cases hx
  rcases henc rfl with h | ⟨-,h⟩
  · cases h
  · simp [oneType] at h

end Dpapp.LuaConfig
