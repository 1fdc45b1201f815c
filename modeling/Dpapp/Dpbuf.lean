import Dpapp.Segment

/-! # dpbuf (dpbuf.c)

Cursors are C ints; an operation is none where it would touch memory outside
the storage. The type and the user flags of a buffer are left out. -/

namespace Dpapp.Dpbuf
open Dpapp.Segment

abbrev Byte := UInt8

def intMax : ℤ := 2147483647
def dpbufMaxSize : ℤ := 0x4fffffff
def dpbufSSize : ℤ := 1024

/-- An int after an overflow. -/
def wrap (x : ℤ) : ℤ := x.bmod (2^32)

def eperm : ℤ := -1
def enomem : ℤ := -12
def einval : ℤ := -22
def enodata : ℤ := -61

def iclamp (v l h : ℤ) : ℤ :=
  let t := if v<l then l else v
  if t<h then t else h

/-- What malloc or realloc returns: NULL, or memory with this in it. -/
abbrev Mem := Option (ℕ → Byte)

/-! ### Storage -/

/-- dpbuf_data_t; `const` is DPBUF_CONSTDATA. -/
structure Data where
  data : List Byte
  maxs : ℤ
  const : Bool := false
  refc : ℕ := 1

def Data.store (d : Data) (pos : ℤ) (x : List Byte) : Option Data :=
  if 0≤pos ∧ pos+x.length≤d.data.length then some {d with data := put d.data pos.toNat x} else none

/-- A length goes through size_t: a negative one is out of bounds. -/
def Data.load (d : Data) (pos len : ℤ) : Option (List Byte) :=
  if 0≤len ∧ 0≤pos ∧ pos+len≤d.data.length then some (seg d.data pos.toNat (pos+len).toNat) else none

/-- The first `len` bytes behind a pointer of the caller's. -/
def bytes (p : List Byte) (len : ℤ) : Option (List Byte) :=
  if 0≤len ∧ len≤p.length then some (p.take len.toNat) else none

/-- strlen, stored in an int. -/
def strlen (p : List Byte) : Option ℤ := if 0∈p then some (wrap (p.takeWhile (·≠0)).length) else none

/-- `_dpbuf_data_new` -/
def dataNew (size : ℤ) (mem : Mem) : Option Data :=
  if size<0 ∨ size≥intMax then none
  else mem.map fun f => {
    data := (((List.range (size.toNat+1)).map f).set 0 0).set size.toNat 0
    maxs := size}

/-- `_dpbuf_data_new_d`; inner none is NULL. -/
def dataNewD (data : Option (List Byte)) (size : ℤ) (dup const : Bool) (mem : Mem) : Option (Option Data) :=
  match data with
  | none => some none
  | some p =>
      (if size<0 then strlen p else some size).bind fun size =>
        if dup then
          -- malloc(size + 1) overflows for INT_MAX
          if size≥intMax ∨ mem.isNone then some none
          else (bytes p size).map fun x => some {data := x++[0], maxs := size}
        else some (some {data := p, maxs := size, const := const})

def powMinValue (value : ℕ) : ℕ :=
  if value=0 then 1
  else
    let v := value-1
    let v := v ||| v>>>1
    let v := v ||| v>>>2
    let v := v ||| v>>>4
    let v := v ||| v>>>8
    v+1

/-- realloc to a larger block. -/
def Data.grow (d : Data) (newsz : ℕ) (f : ℕ → Byte) : Data :=
  {d with data := d.data.take newsz++(List.range (newsz-d.data.length)).map f, maxs := newsz}

/-- `_dpbuf_data_resize`; where the power overflows, realloc is asked for a negative size and fails. -/
def dataResize (d : Data) (size : ℤ) (mem : Mem) : Option (Data × Bool) :=
  if d.maxs>size then (d.store size [0]).map fun d => (d,true)
  else if d.const then some (d,false)
  else if size<0 ∨ size≥intMax then some (d,false)
  else
    let newsz := powMinValue (size.toNat+1)
    if dpbufMaxSize<newsz then some (d,false)
    else match mem with
      | none => some (d,false)
      | some f => ((d.grow newsz f).store size [0]).map fun d => (d,true)

/-! ### Cursors -/

/-- dpbuf_t; `data` names its storage. -/
structure Buf (σ : Type*) where
  data : σ
  norecycle : Bool := false
  rbeg : ℤ := 0
  rend : ℤ := 0
  wbeg : ℤ := 0
  size : ℤ := 0

variable {σ : Type*}

def Buf.crsize (b : Buf σ) : ℤ := b.rend-b.rbeg
def Buf.cwsize (b : Buf σ) : ℤ := b.size-b.wbeg
def Buf.cesize (b : Buf σ) : ℤ := b.wbeg-b.rend

inductive Whence | set | cur | end_ | other
  deriving DecidableEq

/-- `_dpbuf_resize` -/
def resize (b : Buf σ) (d : Data) (size : ℤ) (mem : Mem) : Option (Buf σ × Data × Bool) :=
  if size≤0 then some (b,d,false)
  else (dataResize d size mem).map fun (d,r) => (if r then {b with size := size} else b,d,r)

/-- `_dpbuf_recycle_data` moves the bytes. -/
def compacts (b : Buf σ) (d : Data) : Prop :=
  b.rbeg≠b.wbeg ∧ b.rbeg>dpbufSSize ∧ d.maxs.tdiv b.rbeg<4

instance (b : Buf σ) (d : Data) : Decidable (compacts b d) := inferInstanceAs (Decidable (_ ∧ _))

/-- `_dpbuf_recycle_data` -/
def recycleData (b : Buf σ) (d : Data) : Option (Buf σ × Data) :=
  if b.rbeg=b.wbeg then
    let b := {b with size := b.size-b.wbeg, rbeg := 0, rend := 0, wbeg := 0}
    (d.store b.size [0]).map fun d => (b,d)
  else if compacts b d then
    (d.load b.rbeg (b.wbeg-b.rbeg)).bind fun x =>
      (d.store 0 x).bind fun d =>
        let b := {b with size := b.size-b.rbeg, rbeg := 0, rend := b.rend-b.rbeg, wbeg := b.wbeg-b.rbeg}
        (d.store b.size [0]).map fun d => (b,d)
  else some (b,d)

def resizew (b : Buf σ) (d : Data) (s : ℤ) (mem : Mem) : Option (Buf σ × Data × Bool) :=
  if s≥0 then
    (if b.norecycle then some (b,d) else recycleData b d).bind fun (b,d) => resize b d (wrap (b.wbeg+s)) mem
  else some (b,d,false)

/-- `_dpbuf_wcheck` -/
def wcheck (b : Buf σ) (d : Data) (len : ℤ) (mem : Mem) : Option (Buf σ × Data × Bool) :=
  if b.size-b.wbeg<len then resizew b d len mem else some (b,d,true)

abbrev Step (σ : Type*) := Option (Buf σ × Data × ℤ)

def recycle (b : Buf σ) (d : Data) (force : Bool) : Step σ :=
  if force || !b.norecycle then
    (recycleData b d).bind fun (b,d) => (resize b d 0 none).map fun (b,d,_) => (b,d,0)
  else some (b,d,0)

def setRecycle (b : Buf σ) (d : Data) (on : Bool) : Step σ := some ({b with norecycle := !on},d,0)

/-- `initR` and `initW` are the bits of mode. -/
def reset (b : Buf σ) (d : Data) (initR initW : Bool) : Step σ :=
  if initR then some ({b with rend := b.size, wbeg := b.size, rbeg := 0},d,0)
  else if initW then some ({b with rbeg := 0, rend := 0, wbeg := 0},d,0)
  else some ({b with rbeg := 0, rend := 0, wbeg := 0, size := 0},d,0)

def rseek (b : Buf σ) (d : Data) (offset : ℤ) (w : Whence) : Step σ :=
  let rbeg := match w with
    | .set => iclamp (wrap (0+offset)) 0 b.rend
    | .cur => iclamp (wrap (b.rbeg+offset)) 0 b.rend
    | .end_ => iclamp (wrap (b.rend+offset)) 0 b.rend
    | .other => b.rbeg
  some ({b with rbeg := rbeg},d,rbeg-b.rbeg)

def wseek (b : Buf σ) (d : Data) (offset : ℤ) (w : Whence) : Step σ :=
  let wbeg := match w with
    | .set => iclamp (wrap (b.rend+offset)) b.rend b.size
    | .cur => iclamp (wrap (b.wbeg+offset)) b.rend b.size
    | .end_ => iclamp (wrap (b.size+offset)) b.rend b.size
    | .other => b.wbeg
  some ({b with wbeg := wbeg},d,wbeg-b.wbeg)

def eseek (b : Buf σ) (d : Data) (offset : ℤ) (w : Whence) : Step σ :=
  let rend := match w with
    | .set => iclamp (wrap (b.rbeg+offset)) b.rbeg b.wbeg
    | .cur => iclamp (wrap (b.rend+offset)) b.rbeg b.wbeg
    | .end_ => iclamp (wrap (b.wbeg+offset)) b.rbeg b.wbeg
    | .other => b.rend
  some ({b with rend := rend},d,rend-b.rend)

/-! ### Reading -/

def isws (c : Byte) : Bool := c=32 || c=13 || c=10

def rws (b : Buf σ) (d : Data) : Step σ :=
  let b := {b with rbeg := b.rend}
  (d.load b.rend b.cesize).map fun x =>
    let n : ℤ := (x.takeWhile isws).length
    ({b with rend := b.rend+n},d,n)

def rdata (b : Buf σ) (d : Data) (len : ℤ) : Step σ :=
  let b := {b with rbeg := b.rend}
  let slen := b.cesize
  let len := if len<0 then slen else len
  let len := min len slen
  some ({b with rend := b.rend+len},d,len)

def rmust (b : Buf σ) (d : Data) (len : ℤ) : Step σ :=
  let b := {b with rbeg := b.rend}
  let slen := b.cesize
  if len<0 ∨ len>slen then some ({b with rend := b.rbeg},d,enodata)
  else some ({b with rend := b.rend+len},d,len)

/-- dpbuf_cfind; `pat` is what the pointer leads to. -/
def cfind (b : Buf σ) (d : Data) (pat : Option (List Byte)) (len left : ℤ) : Option ℤ :=
  match pat with
  | none => some einval
  | some p =>
      (if len<0 then strlen p else some len).bind fun len =>
        let rsz := b.crsize
        if len=0 ∨ rsz<len then some enodata
        else
          (bytes p len).bind fun n =>
            (d.load (b.rbeg+left) (rsz-left)).map fun h =>
              match find n h with
              | none => eperm
              | some i => left+i

def runtil (b : Buf σ) (d : Data) (until_ : Option (List Byte)) (untilSz : ℤ) : Step σ :=
  let b := {b with rbeg := b.rend, rend := b.wbeg}
  (cfind b d until_ untilSz 0).map fun idx =>
    if idx<0 then ({b with rend := b.rbeg},d,enodata)
    else ({b with rend := b.rbeg+(idx+untilSz)},d,idx+untilSz)

def rcstr (b : Buf σ) (d : Data) : Step σ :=
  let b := {b with rbeg := b.rend}
  let el := b.wbeg-b.rend
  (d.load b.rend el).map fun x =>
    let len : ℤ := (x.takeWhile (·≠0)).length
    let len := if 0<len ∧ len<el then len+1 else len
    ({b with rend := b.rend+len},d,len)

def rall (b : Buf σ) (d : Data) : Step σ :=
  let b := {b with rbeg := b.rend, rend := b.wbeg}
  some (b,d,b.rend-b.rbeg)

/-! ### Looking -/

def cequalc (b : Buf σ) (d : Data) (sub : List Byte) (len : ℤ) : Step σ :=
  (if len<0 then strlen sub else some len).bind fun len =>
    if len=0 ∨ b.crsize<len then some (b,d,0)
    else (bytes sub len).bind fun x => (d.load b.rbeg len).map fun y => (b,d,if x=y then 1 else 0)

def cstrlen (b : Buf σ) (d : Data) : Step σ :=
  (d.load b.rbeg b.crsize).map fun x => (b,d,(x.takeWhile (·≠0)).length)

def cbegwith (b : Buf σ) (d : Data) (sub : Option (List Byte)) (len : ℤ) (skip : Bool) : Step σ :=
  let s := b.crsize
  match sub with
  | none => some (b,d,0)
  | some p =>
      if s=0 then some (b,d,0)
      else
        (if len<0 then strlen p else some len).bind fun len =>
          if s<len then some (b,d,0)
          else
            (if skip then (d.load b.rbeg s).map fun x => ((x.takeWhile isws).length : ℤ) else some 0).bind fun n =>
              if s-n<len then some (b,d,0)
              else (bytes p len).bind fun x => (d.load (b.rbeg+n) len).map fun y => (b,d,if x=y then 1 else 0)

/-! ### Writing -/

/-- memcpy to the write cursor, which moves by `len`. -/
def append (b : Buf σ) (d : Data) (x : List Byte) (len : ℤ) : Step σ :=
  (d.store b.wbeg x).map fun d => ({b with wbeg := b.wbeg+len},d,len)

def wfill (b : Buf σ) (d : Data) (len : ℤ) (v : Byte) (mem : Mem) : Step σ :=
  (wcheck b d len mem).bind fun (b,d,ok) =>
    if ok then
      if len<0 then none else append b d (List.replicate len.toNat v) len
    else some (b,d,enomem)

def wdata (b : Buf σ) (d : Data) (data : Option (List Byte)) (len : ℤ) (mem : Mem) : Step σ :=
  match data with
  | none => some (b,d,einval)
  | some p =>
      if len=0 then some (b,d,einval)
      else
        (wcheck b d len mem).bind fun (b,d,ok) =>
          if ok then (bytes p len).bind fun x => append b d x len else some (b,d,enomem)

/-- `text` is the formatted text, none for a NULL format; vsnprintf ends it with a NUL. -/
def wstrv (b : Buf σ) (d : Data) (text : Option (List Byte)) (mem : Mem) : Step σ :=
  match text with
  | none => some (b,d,einval)
  | some x =>
      let rsz : ℤ := x.length
      if rsz≤0 then some (b,d,0)
      else
        (wcheck b d (wrap (rsz+1)) mem).bind fun (b,d,ok) =>
          if ok then append b d (x++[0]) rsz else some (b,d,enomem)

/-! ### Several buffers -/

variable {β : Type*} [DecidableEq β] [DecidableEq σ]

/-- The buffers that are live, and the storage that is allocated. -/
structure Heap (β σ : Type*) where
  buf : β → Option (Buf σ) := fun _ => none
  store : σ → Option Data := fun _ => none

def Heap.on {γ : Type*} (h : Heap β σ) (i : β) (f : Buf σ → Data → Option (Buf σ × Data × γ)) : Option (Heap β σ × γ) :=
  (h.buf i).bind fun b => (h.store b.data).bind fun d => (f b d).map fun (b',d',r) =>
    ({buf := Function.update h.buf i (some b'), store := Function.update h.store b.data (some d')},r)

/-- dpbuf_crdata, and `len` bytes from there. -/
def Heap.read (h : Heap β σ) (i : β) (len : ℤ) : Option (List Byte) :=
  (h.buf i).bind fun b => (h.store b.data).bind fun d => d.load b.rbeg len

/-- dpbuf_wbuf, and dpbuf_wbuf_r with `consume`. -/
def wbuf (h : Heap β σ) (i j : β) (len : ℤ) (consume : Bool) (mem : Mem) : Option (Heap β σ × ℤ) :=
  (h.buf j).bind fun o =>
    let alen := o.crsize
    let len := if len≤0 then alen else min alen len
    (h.on i fun b d => wcheck b d len mem).bind fun (h,ok) =>
      if ok then
        (h.read j len).bind fun x =>
          (h.on i fun b d => append b d x len).bind fun (h,r) =>
            if consume then h.on j fun b d => some ({b with rbeg := b.rbeg+len},d,r) else some (h,r)
      else some (h,enomem)

/-- What dpbuf_readto does to itself before it writes to `det`. -/
def readtoBegin (b : Buf σ) (d : Data) : Option (Buf σ × Data × ℤ) :=
  let b := {b with rbeg := b.rend}
  let sz := b.cesize
  if sz=0 then some (b,d,sz) else some ({b with rend := b.wbeg},d,sz)

def readtoEnd (sz wsz : ℤ) (b : Buf σ) (d : Data) : Option (Buf σ × Data × ℤ) :=
  let rend := b.wbeg-(sz-wsz)
  some ({b with rend := rend, rbeg := rend},d,wsz)

def readto (h : Heap β σ) (i det : β) (size : ℤ) (mem : Mem) : Option (Heap β σ × ℤ) :=
  (h.on i readtoBegin).bind fun (h,sz) =>
    if sz=0 then some (h,enodata)
    else
      (wbuf h det i size false mem).bind fun (h,wsz) =>
        (h.on det fun b d => some ({b with rend := b.wbeg},d,())).bind fun (h,_) => h.on i (readtoEnd sz wsz)

def ccmp (h : Heap β σ) (i j : β) : Option (Heap β σ × ℤ) :=
  if i=j then some (h,0)
  else
    (h.buf i).bind fun a => (h.buf j).bind fun b =>
      if a.crsize≠b.crsize then some (h,a.crsize-b.crsize)
      else if a.crsize>0 then
        (h.read i a.crsize).bind fun x => (h.read j a.crsize).map fun y =>
          (h,if x=y then 0 else if x<y then -1 else 1)
      else some (h,0)

/-- A new buffer in new storage, or none for NULL. -/
def Heap.alloc (h : Heap β σ) (i : β) (s : σ) (d : Option Data) (b : Data → Buf σ) : Heap β σ × ℤ :=
  match d with
  | none => (h,0)
  | some d => ({buf := Function.update h.buf i (some (b d)), store := Function.update h.store s (some d)},1)

/-- dpbuf_init, dpbuf_new -/
def new (h : Heap β σ) (i : β) (s : σ) (size : ℤ) (mem : Mem) : Heap β σ × ℤ :=
  h.alloc i s (dataNew size mem) fun _ => {data := s, size := size}

/-- dpbuf_init_d, dpbuf_new_d -/
def newD (h : Heap β σ) (i : β) (s : σ) (data : Option (List Byte)) (size : ℤ) (initR dup const : Bool) (mem : Mem) :
    Option (Heap β σ × ℤ) :=
  (dataNewD data size dup const mem).map fun d => h.alloc i s d fun d =>
    {data := s, size := d.maxs, rend := if initR then d.maxs else 0, wbeg := if initR then d.maxs else 0}

/-- dpbuf_init_v, dpbuf_new_v -/
def newV (h : Heap β σ) (i : β) (s : σ) (text : Option (List Byte)) (mem : Mem) : Option (Heap β σ × ℤ) :=
  match text with
  | none => some (h,0)
  | some x =>
      match dataNew x.length mem with
      | none => some (h,0)
      | some d => (d.store 0 (x++[0])).map fun d => h.alloc i s (some d) fun _ =>
          {data := s, size := x.length, rend := x.length, wbeg := x.length}

/-- dpbuf_init_r, dpbuf_new_r; dpbuf_init_r itself allocates nothing. -/
def newR (h : Heap β σ) (i : β) (s : σ) (other : Option β) (mem : Mem) : Option (Heap β σ × ℤ) :=
  match other with
  | none => some (new h i s 0 mem)
  | some j =>
      if mem.isNone then some (h,0)
      else (h.buf j).bind fun b => (h.store b.data).map fun d =>
        ({buf := Function.update h.buf i (some {b with wbeg := b.rend, size := b.rend}),
          store := Function.update h.store b.data (some {d with refc := d.refc+1})},1)

/-- dpbuf_dup_r and dpbuf_from_r, with `slack` dpbuf_dup_e and dpbuf_from_e. -/
def dup (h : Heap β σ) (i : β) (s : σ) (other : Option β) (slack : Bool) (mem : Mem) : Option (Heap β σ × ℤ) :=
  match other with
  | none => some (new h i s 0 mem)
  | some j => (h.buf j).bind fun b => (h.store b.data).bind fun d =>
      let beg := if slack then b.rend else b.rbeg
      let sz := if slack then b.cesize else b.crsize
      if sz=0 then some (new h i s 0 mem)
      else (d.load beg sz).bind fun x => newD h i s (some x) sz true true false mem

/-- dpbuf_del, dpbuf_fini -/
def del (h : Heap β σ) (i : β) : Option (Heap β σ × ℤ) :=
  (h.buf i).bind fun b => (h.store b.data).map fun d =>
    ({buf := Function.update h.buf i none
      store := Function.update h.store b.data (if d.refc=1 then none else some {d with refc := d.refc-1})},0)

/-- A value of the C type int. -/
abbrev CInt := {x : ℤ // -2147483648≤x ∧ x≤2147483647}

theorem wrap_int (x : ℤ) : -2147483648≤ wrap x ∧ wrap x≤2147483647 := by
  have hlo : -(((2^32 : ℕ) : ℤ)/2)≤ wrap x := Int.le_bmod (by decide)
  have hhi : wrap x<(((2^32 : ℕ) : ℤ)+1)/2 := Int.bmod_lt (by decide)
  omega

instance (n : ℕ) : OfNat CInt n := ⟨⟨wrap n,wrap_int n⟩⟩

inductive Act (β σ : Type*)
  | new (i : β) (s : σ) (size : CInt) (mem : Mem)
  | newD (i : β) (s : σ) (data : Option (List Byte)) (size : CInt) (initR dup const : Bool) (mem : Mem)
  | newV (i : β) (s : σ) (text : Option (List Byte)) (mem : Mem)
  | newR (i : β) (s : σ) (other : Option β) (mem : Mem)
  | dup (i : β) (s : σ) (other : Option β) (slack : Bool) (mem : Mem)
  | del (i : β)
  | recycle (i : β) (force : Bool)
  | setRecycle (i : β) (on : Bool)
  | reset (i : β) (initR initW : Bool)
  | resizew (i : β) (n : CInt) (mem : Mem)
  | rseek (i : β) (offset : CInt) (w : Whence)
  | wseek (i : β) (offset : CInt) (w : Whence)
  | eseek (i : β) (offset : CInt) (w : Whence)
  | rws (i : β)
  | rdata (i : β) (len : CInt)
  | rmust (i : β) (len : CInt)
  | runtil (i : β) (until_ : Option (List Byte)) (untilSz : CInt)
  | rcstr (i : β)
  | rall (i : β)
  | readto (i det : β) (size : CInt) (mem : Mem)
  | wbuf (i j : β) (len : CInt) (consume : Bool) (mem : Mem)
  | wfill (i : β) (len : CInt) (v : Byte) (mem : Mem)
  | wdata (i : β) (data : Option (List Byte)) (len : CInt) (mem : Mem)
  | wstrv (i : β) (text : Option (List Byte)) (mem : Mem)
  | cfind (i : β) (pat : Option (List Byte)) (len left : CInt)
  | cequalc (i : β) (sub : List Byte) (len : CInt)
  | ccmp (i j : β)
  | cstrlen (i : β)
  | cbegwith (i : β) (sub : Option (List Byte)) (len : CInt) (skip : Bool)

def step (h : Heap β σ) : Act β σ → Option (Heap β σ × ℤ)
  | .new i s size mem => some (new h i s size mem)
  | .newD i s data size initR d const mem => newD h i s data size initR d const mem
  | .newV i s text mem => newV h i s text mem
  | .newR i s other mem => newR h i s other mem
  | .dup i s other slack mem => dup h i s other slack mem
  | .del i => del h i
  | .recycle i force => h.on i fun b d => recycle b d force
  | .setRecycle i on => h.on i fun b d => setRecycle b d on
  | .reset i initR initW => h.on i fun b d => reset b d initR initW
  | .resizew i n mem => h.on i fun b d => (resizew b d n mem).map fun (b,d,r) => (b,d,if r then 1 else 0)
  | .rseek i offset w => h.on i fun b d => rseek b d offset w
  | .wseek i offset w => h.on i fun b d => wseek b d offset w
  | .eseek i offset w => h.on i fun b d => eseek b d offset w
  | .rws i => h.on i rws
  | .rdata i len => h.on i fun b d => rdata b d len
  | .rmust i len => h.on i fun b d => rmust b d len
  | .runtil i p n => h.on i fun b d => runtil b d p n
  | .rcstr i => h.on i rcstr
  | .rall i => h.on i rall
  | .readto i det size mem => readto h i det size mem
  | .wbuf i j len consume mem => wbuf h i j len consume mem
  | .wfill i len v mem => h.on i fun b d => wfill b d len v mem
  | .wdata i data len mem => h.on i fun b d => wdata b d data len mem
  | .wstrv i text mem => h.on i fun b d => wstrv b d text mem
  | .cfind i p len left => h.on i fun b d => (cfind b d p len left).map fun r => (b,d,r)
  | .cequalc i sub len => h.on i fun b d => cequalc b d sub len
  | .ccmp i j => ccmp h i j
  | .cstrlen i => h.on i cstrlen
  | .cbegwith i sub len skip => h.on i fun b d => cbegwith b d sub len skip

end Dpapp.Dpbuf
