import Dpapp.StreamIo

/-! # The segments of a vectored transfer (os/linux/dpasc_epoll.c)

`_dpaio_iov_post` on its copy of the iovec array, with the pointer and the count that `_dpioc_iov_advance` moves. -/

namespace Dpapp.IovPost
open Dpapp.Machine Dpapp.Ret Dpapp.EfdWake Dpapp.StreamIo

/-- The array `iov`, and `iov_p` and `iovcnt`. -/
structure Cursor where
  iov : List Iovec
  pos : ℕ
  cnt : ℕ

/-- `_dpioc_iov_advance`; none where it would use a segment past the end of the array. -/
def iovAdvance : ℕ → List Iovec → ℕ → ℕ → Option Cursor
  | 0,iov,pos,_ => some ⟨iov,pos,0⟩
  | cnt+1,iov,pos,n =>
      if n=0 then some ⟨iov,pos,cnt+1⟩
      else
        match iov[pos]? with
        | none => none
        | some v =>
            if n<v.len then some ⟨iov.set pos ⟨v.base+n,v.len-n⟩,pos,cnt+1⟩
            else iovAdvance cnt iov (pos+1) (n-v.len)

/-- The segments that a call gets. -/
def Cursor.rest (c : Cursor) : List Iovec := (c.iov.drop c.pos).take c.cnt

/-- A post function before a call, or after it has returned; `refused` is what the prep function says instead. -/
inductive Run
  | call (c : Cursor) (total : ℤ)
  | ret (c : Cursor) (p : PostRet)
  | refused (r : Dpret)
  | fault

/-- `moved` is the sum of what the calls have returned. -/
structure Sys where
  run : Run
  moved : ℕ := 0

/-- `_dpgfd_readv_prep`, `_dpgfd_writev_prep` -/
def start (dir : Dir) (segs : List Iovec) : Sys :=
  if (⟨dir,.iov segs,false⟩ : Io).prep=dpeContinue then ⟨.call ⟨segs,0,segs.length⟩ 0,0⟩
  else ⟨.refused (⟨dir,.iov segs,false⟩ : Io).prep,0⟩

/-- One turn of the loop of `_dpaio_iov_post`. -/
def turn (dir : Dir) (segs : List Iovec) (c : Cursor) (total : ℤ) (a : Call) : Run :=
  match if 0<a.res then iovAdvance c.cnt c.iov c.pos a.res.toNat else some c with
  | none => .fault
  | some c =>
      match dpaioIovPost (int32 (dpiocIovTotal segs)) {dir.evt} total a with
      | (_,some p) => .ret c p
      | (total,none) => .call c total

/-- The kernel moves no more than it has been asked for. -/
def step (dir : Dir) (segs : List Iovec) (s : Sys) (a : Call) : Option Sys :=
  match s.run with
  | .call c total =>
      if a.res≤(locs c.rest).length ∧ (a.res<0 → 0<a.errno) then
        some ⟨turn dir segs c total a,s.moved+a.res.toNat⟩
      else none
  | .ret .. | .refused _ | .fault => none

/-- The cursor, while the post function runs and at its end. -/
def Run.cursor : Run → Option Cursor
  | .call c _ | .ret c _ => some c
  | .refused _ | .fault => none

/-- An operation is reported full where the post function returns and leaves its event as it is. -/
structure Right (segs : List Iovec) (s : Sys) : Prop where
  inside : s.run≠.fault ∧ ∀ c∈ s.run.cursor,c.pos+c.cnt=c.iov.length
  rest : ∀ c∈ s.run.cursor,locs c.rest=(locs segs).drop s.moved
  going : ∀ c total,s.run=.call c total → locs c.rest≠[]
  full : ∀ c p,s.run=.ret c p → (p.out.inva=∅ ↔ locs c.rest=[])
  count : ∀ c p,s.run=.ret c p → p.out.inva=∅ → p.ret=(locs segs).length

/-! ### Advancing -/

theorem rest_eq {c : Cursor} (h : c.pos+c.cnt=c.iov.length) : c.rest=c.iov.drop c.pos :=
  List.take_of_length_le (by rw [List.length_drop]; omega)

/-- As long as the count is that of the rest of the array, it is the list that advances. -/
theorem advance_rest {cnt : ℕ} {iov : List Iovec} {pos : ℕ} (n : ℕ) (h : pos+cnt=iov.length) :
    ∃ c,iovAdvance cnt iov pos n=some c ∧ c.pos+c.cnt=c.iov.length ∧ c.rest=dpiocIovAdvance (iov.drop pos) n := by
  induction cnt generalizing pos n with
  | zero =>
    have hnil : iov.drop pos=[] := List.drop_eq_nil_of_le (by omega)
    exact ⟨⟨iov,pos,0⟩,rfl,h,by rw [hnil]; rfl⟩
  | succ cnt ih =>
    have hpos : pos< iov.length := by omega
    have hdrop := List.drop_eq_getElem_cons hpos
    rw [hdrop]
    unfold iovAdvance dpiocIovAdvance
    rw [List.getElem?_eq_getElem hpos]
    simp only
    split
    · exact ⟨_,rfl,h,(rest_eq h).trans hdrop⟩
    split
    · have hset : pos+(cnt+1)=(iov.set pos ⟨iov[pos].base+n,iov[pos].len-n⟩).length := by rw [List.length_set]; exact h
      refine ⟨_,rfl,hset,(rest_eq hset).trans ?_⟩
      simp only [List.drop_set,lt_irrefl,if_false,Nat.sub_self,hdrop,List.set_cons_zero]
    · exact ih _ (by omega)

theorem dpiocIovAdvance_zero (iov : List Iovec) : dpiocIovAdvance iov 0=iov := by
  cases iov with
  | nil => rfl
  | cons v iov => rw [dpiocIovAdvance,if_pos rfl]

section Turns
variable {dir : Dir} {segs : List Iovec} {c : Cursor} {total : ℤ} {a : Call}

/-- A turn of the loop stays inside of the array. -/
theorem turn_rest (dir : Dir) (segs : List Iovec) (total : ℤ) (a : Call) (h : c.pos+c.cnt=c.iov.length) :
    ∃ c',c'.pos+c'.cnt=c'.iov.length ∧ c'.rest=dpiocIovAdvance c.rest a.res.toNat ∧ turn dir segs c total a=
      match dpaioIovPost (int32 (dpiocIovTotal segs)) {dir.evt} total a with
      | (_,some p) => .ret c' p
      | (total,none) => .call c' total := by
  unfold turn
  by_cases hpos : 0<a.res
  · obtain ⟨c',hc',hfits,hrest⟩ := advance_rest a.res.toNat h
    refine ⟨c',hfits,?_,?_⟩
    · rw [hrest,rest_eq h]
    · rw [if_pos hpos,hc']
  · refine ⟨c,h,?_,?_⟩
    · rw [show a.res.toNat=0 by omega,dpiocIovAdvance_zero]
    · rw [if_neg hpos]

/-- The operation of a stream, which goes by lists, does the same. -/
theorem turn_refines (h : c.pos+c.cnt=c.iov.length) :
    match ioPost.turn {dir.evt} ⟨dir,.iov segs,false⟩ ⟨total,c.rest⟩ a,turn dir segs c total a with
    | .call _ m,.call c' total' => total'=m.total ∧ c'.rest=m.iov
    | .ret _ p,.ret _ p' => p'=p
    | .call ..,_ | .ret ..,_ => False := by
  obtain ⟨c',-,hrest,hturn⟩ := turn_rest dir segs total a h
  rw [hturn]
  simp only [ioPost,Io.loop]
  rcases dpaioIovPost (int32 (dpiocIovTotal segs)) {dir.evt} total a with ⟨total',- | p⟩
  · exact ⟨rfl,hrest⟩
  · rfl

end Turns

/-! ### Runs -/

section Runs
variable {dir : Dir} {segs : List Iovec} {s s' : Sys} {c : Cursor} {total : ℤ} {a : Call} {moved : ℕ}

/-- The rest is what has not been moved. -/
structure Suffix (segs : List Iovec) (c : Cursor) (moved : ℕ) : Prop where
  fits : c.pos+c.cnt=c.iov.length
  rest : locs c.rest=(locs segs).drop moved

/-- A turn of the loop counts bytes, or it ends the transfer and leaves the event. -/
theorem iovPost_cases (full total : ℤ) (want : Evts) (a : Call) :
    (0<a.res ∧ dpaioIovPost full want total a=(int32 (total+a.res),
      if int32 (total+a.res)=full then some ⟨int32 (total+a.res),want,∅⟩ else none)) ∨
    (a.res≤0 ∧ ∃ r,dpaioIovPost full want total a=(total,some ⟨r,want,want⟩)) := by
  unfold dpaioIovPost loopTurn
  split
  · rename_i hpos
    exact .inl ⟨hpos,rfl⟩
  · rename_i hpos
    split
    · exact .inr ⟨by omega,_,rfl⟩
    · exact .inr ⟨by omega,_,rfl⟩

/-- The cursor follows the bytes. -/
theorem turn_suffix (dir : Dir) (total : ℤ) (a : Call) (h : Suffix segs c moved) : ∃ c',Suffix segs c' (moved+a.res.toNat) ∧
    turn dir segs c total a=
      match dpaioIovPost (int32 (dpiocIovTotal segs)) {dir.evt} total a with
      | (_,some p) => .ret c' p
      | (total,none) => .call c' total := by
  obtain ⟨c',hfits,hrest,hturn⟩ := turn_rest dir segs total a h.fits
  refine ⟨c',⟨hfits,?_⟩,hturn⟩
  rw [hrest,locs_advance,h.rest,List.drop_drop]

/-- What holds in all runs of a transfer of less than 2^31 bytes. -/
structure Fine (segs : List Iovec) (s : Sys) : Prop where
  inside : s.run≠.fault
  suffix : ∀ c∈ s.run.cursor,Suffix segs c s.moved
  call : ∀ c total,s.run=.call c total → total=s.moved ∧ s.moved<(locs segs).length
  ret : ∀ c p,s.run=.ret c p → s.moved≤(locs segs).length ∧ (p.out.inva=∅ ↔ s.moved=(locs segs).length) ∧
    (p.out.inva=∅ → p.ret=s.moved)

theorem fine_call (hc : Suffix segs c moved) (hlt : moved<(locs segs).length) : Fine segs ⟨.call c moved,moved⟩ := by
  refine ⟨nofun,fun x hx => ?_,fun x t hx => ?_,nofun⟩
  · cases hx
    exact hc
  · cases hx
    exact ⟨rfl,hlt⟩

theorem fine_ret {p : PostRet} (hc : Suffix segs c moved) (hle : moved≤(locs segs).length)
    (hfull : p.out.inva=∅ ↔ moved=(locs segs).length) (hret : p.out.inva=∅ → p.ret=moved) :
    Fine segs ⟨.ret c p,moved⟩ := by
  refine ⟨nofun,fun x hx => ?_,nofun,fun x q hx => ?_⟩
  · cases hx
    exact hc
  · cases hx
    exact ⟨hle,hfull,hret⟩

theorem fine_turn (hsmall : (locs segs).length<2^31) (hc : Suffix segs c moved)
    (hle : a.res≤((locs segs).length-moved : ℕ)) (hlt : moved<(locs segs).length) :
    Fine segs ⟨turn dir segs c moved a,moved+a.res.toNat⟩ := by
  obtain ⟨c',hc',hturn⟩ := turn_suffix dir moved a hc
  rw [hturn,total_small hsmall]
  rcases iovPost_cases (locs segs).length moved {dir.evt} a with ⟨hpos,hpost⟩ | ⟨hpos,r,hpost⟩
  · have hsum : int32 (moved+a.res)=((moved+a.res.toNat : ℕ) : ℤ) := by
      rw [int32_eq (by omega) (by omega)]
      omega
    rw [hpost,hsum]
    by_cases hfull : moved+a.res.toNat=(locs segs).length
    · rw [if_pos (by rw [hfull])]
      exact fine_ret hc' hfull.le ⟨fun _ => hfull,fun _ => rfl⟩ fun _ => rfl
    · rw [if_neg (by exact_mod_cast hfull)]
      exact fine_call hc' (by omega)
  · have hev : ({dir.evt} : Evts)≠∅ := Finset.singleton_ne_empty _
    have hnone : moved+a.res.toNat=moved := by omega
    rw [hpost]
    rw [hnone] at hc' ⊢
    exact fine_ret hc' hlt.le ⟨fun hno => absurd hno hev,fun hno => absurd hno hlt.ne⟩ fun hno => absurd hno hev

theorem fine_step (hsmall : (locs segs).length<2^31) (h : Fine segs s) (hu : step dir segs s a=some s') :
    Fine segs s' := by
  unfold step at hu
  split at hu
  · rename_i c total hrun
    obtain ⟨⟨hle,-⟩,hu⟩ := Option.ite_none_right_eq_some.mp hu
    cases hu
    obtain ⟨rfl,hlt⟩ := h.call c total hrun
    have hc := h.suffix c (by rw [hrun]; rfl)
    rw [hc.rest,List.length_drop] at hle
    exact fine_turn hsmall hc hle hlt
  · cases hu
  · cases hu
  · cases hu

theorem Suffix.empty_iff (h : Suffix segs c moved) : locs c.rest=[] ↔ (locs segs).length≤ moved := by
  rw [h.rest,List.drop_eq_nil_iff]

theorem Fine.right (h : Fine segs s) : Right segs s := by
  refine ⟨⟨h.inside,fun c hc => (h.suffix c hc).fits⟩,fun c hc => (h.suffix c hc).rest,fun c total hrun => ?_,
    fun c p hrun => ?_,fun c p hrun hinva => ?_⟩
  · have hlt := (h.call c total hrun).2
    rw [ne_eq,(h.suffix c (by rw [hrun]; rfl)).empty_iff]
    omega
  · obtain ⟨hle,hfull,-⟩ := h.ret c p hrun
    rw [hfull,(h.suffix c (by rw [hrun]; rfl)).empty_iff]
    omega
  · obtain ⟨-,hfull,hret⟩ := h.ret c p hrun
    rw [hret hinva,hfull.mp hinva]

/-! ### What an int does not count -/

/-- Two size_t's are cut to the same int. -/
theorem int32_natCast {m n : ℕ} : int32 m=int32 n ↔ m%2^32=n%2^32 := by
  unfold int32
  rw [Int.bmod_eq_bmod_iff_bmod_sub_eq_zero,← Int.dvd_iff_bmod_eq_zero]
  omega

theorem int32_lt (x : ℤ) : int32 x<2^31 := Int.bmod_lt (by decide)

theorem int32_total : int32 (dpiocIovTotal segs)=int32 (locs segs).length := by
  rw [length_locs_sum,int32_natCast,dpiocIovTotal]
  omega

/-- The prep function refuses what is cut to 0. -/
theorem prep_continue : (⟨dir,.iov segs,false⟩ : Io).prep=dpeContinue ↔ ¬2^32∣(locs segs).length := by
  have hprep : (⟨dir,.iov segs,false⟩ : Io).prep=if int32 (dpiocIovTotal segs)=0 then dpeInval else dpeContinue := rfl
  have hzero : int32 (locs segs).length=0 ↔ 2^32∣(locs segs).length := by
    rw [show (0 : ℤ)=int32 (0 : ℕ) from rfl,int32_natCast]
    omega
  rw [hprep,int32_total,← hzero]
  split
  · rename_i h0
    exact ⟨fun hno => (by cases hno),fun hno => absurd h0 hno⟩
  · rename_i h0
    exact ⟨fun _ => h0,fun _ => rfl⟩

theorem start_call (h : ¬2^32∣(locs segs).length) : start dir segs=⟨.call ⟨segs,0,segs.length⟩ 0,0⟩ :=
  if_pos (prep_continue.mpr h)

theorem start_refused (h : 2^32∣(locs segs).length) : start dir segs=⟨.refused (⟨dir,.iov segs,false⟩ : Io).prep,0⟩ :=
  if_neg fun hprep => prep_continue.mp hprep h

theorem start_suffix : Suffix segs ⟨segs,0,segs.length⟩ 0 := by
  have hfits : (⟨segs,0,segs.length⟩ : Cursor).pos+segs.length=segs.length := Nat.zero_add _
  refine ⟨hfits,?_⟩
  rw [rest_eq hfits]
  rfl

theorem fine_start (h : ¬2^32∣(locs segs).length) : Fine segs (start dir segs) := by
  rw [start_call h]
  exact fine_call start_suffix (Nat.pos_of_ne_zero fun hno => h (hno ▸ Nat.dvd_zero _))

/-- Then no byte is moved. -/
theorem refused_right (h : 2^32∣(locs segs).length) (hreach : Reach (step dir segs) anyStep (start dir segs) s) :
    Right segs s := by
  rw [start_refused h] at hreach
  have hrun : ∃ r,s.run=.refused r := by
    refine hreach.invariant (I := fun s => ∃ r,s.run=.refused r) ⟨_,rfl⟩ ?_
    rintro t a u ⟨r,hr⟩ - hu
    simp only [step,hr] at hu
    cases hu
  obtain ⟨r,hr⟩ := hrun
  refine ⟨⟨by rw [hr]; exact nofun,fun c hc => ?_⟩,fun c hc => ?_,fun c t hc => ?_,fun c p hc => ?_,fun c p hc => ?_⟩
  all_goals rw [hr] at hc; cases hc

/-- A turn of the loop for one byte. -/
theorem turn_byte (dir : Dir) (hc : Suffix segs c moved) : ∃ c',Suffix segs c' (moved+1) ∧
    turn dir segs c (int32 moved) ⟨1,0⟩=
      if (moved+1)%2^32=(locs segs).length%2^32 then .ret c' ⟨int32 (moved+1 : ℕ),{dir.evt},∅⟩
      else .call c' (int32 (moved+1 : ℕ)) := by
  obtain ⟨c',hc',hturn⟩ := turn_suffix dir (int32 moved) ⟨1,0⟩ hc
  refine ⟨c',hc',?_⟩
  have hsum : int32 (int32 moved+1)=int32 (moved+1 : ℕ) := by
    unfold int32
    rw [Int.bmod_add_bmod,Nat.cast_add,Nat.cast_one]
  rw [hturn,int32_total]
  unfold dpaioIovPost loopTurn
  rw [if_pos Int.one_pos,hsum]
  simp only [int32_natCast]
  by_cases hcut : (moved+1)%2^32=(locs segs).length%2^32
  · simp only [if_pos hcut]
  · simp only [if_neg hcut]

/-- Byte by byte, up to what the count is cut to. -/
theorem reach_bytes {k : ℕ} (dir : Dir) (hno : ¬2^32∣(locs segs).length) (hk : k<(locs segs).length%2^32) :
    ∃ c,Suffix segs c k ∧ Reach (step dir segs) anyStep (start dir segs) ⟨.call c (int32 k),k⟩ := by
  induction k with
  | zero =>
    refine ⟨⟨segs,0,segs.length⟩,start_suffix,?_⟩
    rw [start_call hno]
    exact .refl
  | succ k ih =>
    obtain ⟨c,hc,hreach⟩ := ih (by omega)
    obtain ⟨c',hc',hturn⟩ := turn_byte dir hc
    rw [if_neg (by omega)] at hturn
    refine ⟨c',hc',.tail (a := ⟨1,0⟩) hreach trivial ?_⟩
    have hle : (1 : ℤ)≤(locs c.rest).length := by
      rw [hc.rest,List.length_drop]
      omega
    simp only [step]
    rw [if_pos ⟨hle,fun hno => (by cases hno)⟩,hturn]
    rfl

/-- The int is full then, but it is not the number of all bytes, or these are not moved. -/
theorem cut_wrong (dir : Dir) (hno : ¬2^32∣(locs segs).length) (hlarge : 2^31≤(locs segs).length) :
    ∃ s,Reach (step dir segs) anyStep (start dir segs) s ∧ ¬Right segs s := by
  obtain ⟨k,hk⟩ : ∃ k,k+1=(locs segs).length%2^32 := ⟨(locs segs).length%2^32-1,by omega⟩
  obtain ⟨c,hc,hreach⟩ := reach_bytes dir hno (k := k) (by omega)
  obtain ⟨c',hc',hturn⟩ := turn_byte dir hc
  rw [if_pos (by omega)] at hturn
  refine ⟨⟨.ret c' ⟨int32 (k+1 : ℕ),{dir.evt},∅⟩,k+1⟩,.tail (a := ⟨1,0⟩) hreach trivial ?_,fun hright => ?_⟩
  · have hle : (1 : ℤ)≤(locs c.rest).length := by
      rw [hc.rest,List.length_drop]
      omega
    simp only [step]
    rw [if_pos ⟨hle,fun hno => (by cases hno)⟩,hturn]
    rfl
  · have hlt := int32_lt (k+1 : ℕ)
    generalize int32 (k+1 : ℕ)=r at hright hlt
    have hcount : r=((locs segs).length : ℤ) := hright.count c' ⟨r,{dir.evt},∅⟩ rfl rfl
    omega

end Runs

/-- A vectored transfer is followed right if and only if an int counts its bytes, or cuts them to 0. -/
theorem iov_transfer (dir : Dir) (segs : List Iovec) :
    (∀ s,Reach (step dir segs) anyStep (start dir segs) s → Right segs s) ↔
      ((locs segs).length<2^31 ∨ 2^32∣(locs segs).length) := by
  constructor
  · intro hall
    by_contra hno
    obtain ⟨hlarge,hdvd⟩ := not_or.mp hno
    obtain ⟨s,hreach,hwrong⟩ := cut_wrong dir hdvd (not_lt.mp hlarge)
    exact hwrong (hall s hreach)
  · intro hok s hreach
    by_cases hdvd : 2^32∣(locs segs).length
    · exact refused_right hdvd hreach
    · have hsmall := hok.resolve_right hdvd
      have hfine : Fine segs s := hreach.invariant (fine_start hdvd) fun _ _ _ ht _ hu => fine_step hsmall ht hu
      exact hfine.right

/-- 2^32+5 bytes, for which `total_len` is 5. -/
def cutSegs : List Iovec := [⟨2^12,2^31⟩,⟨2^33,2^31+5⟩]

/-- The transfer is full after five bytes. -/
theorem iov_cut : ¬∀ (dir : Dir) (segs : List Iovec) (s : Sys),
    Reach (step dir segs) anyStep (start dir segs) s → Right segs s := by
  intro hall
  have hlen : (locs cutSegs).length=2^32+5 := by
    rw [length_locs_sum]
    simp [cutSegs]
  have hdvd : ¬2^32∣(locs cutSegs).length := by
    rw [hlen]
    decide
  obtain ⟨s,hreach,hwrong⟩ := cut_wrong .inp hdvd (by rw [hlen]; decide)
  exact hwrong (hall .inp cutSegs s hreach)

end Dpapp.IovPost
