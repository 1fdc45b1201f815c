import Dpapp.CompStack
import Mathlib.Data.List.TakeWhile

/-! # Paths (which.c)

A string is the bytes before its NUL. -/

namespace Dpapp.Which
open Dpapp.CompStack

abbrev Byte := UInt8

def slash : Byte := 47
def dot : List Byte := [46]
def dotdot : List Byte := [46,46]
def pathMax : ℕ := 4096

/-- A write behind the end of `components` or of `_result`. -/
inductive Fault
  | components
  | result
deriving DecidableEq

/-- The next token of strtok and what it leaves for the next call. -/
def strtok (s : List Byte) : Option (List Byte×List Byte) :=
  match s.dropWhile (·==slash) with
  | [] => none
  | b::bs => some ((b::bs).takeWhile (·≠slash),((b::bs).dropWhile (·≠slash)).drop 1)

/-- The while loop, with `components[0..top)`. A call of strtok takes at least a byte, so that the length of the text
is enough fuel. -/
def scan : ℕ → List Byte → List (List Byte) → Except Fault (List (List Byte))
  | 0,_,comps => .ok comps
  | n+1,s,comps =>
      match strtok s with
      | none => .ok comps
      | some (token,rest) =>
          if token=dotdot then scan n rest comps.dropLast
          else if token=dot then scan n rest comps
          else if token≠[] then
            if comps.length<pathMax then scan n rest (comps++[token]) else .error .components
          else scan n rest comps

/-- strcat to `_result`. -/
def strcat (dst src : List Byte) : Except Fault (List Byte) :=
  if dst.length+src.length<pathMax then .ok (dst++src) else .error .result

/-- The for loop; `i < top - 1` is that another component follows. -/
def join : List (List Byte) → List Byte → Except Fault (List Byte)
  | [],r => .ok r
  | c::cs,r => (strcat r c).bind fun r => (if cs≠[] then strcat r [slash] else .ok r).bind (join cs)

def normalizePath (path : List Byte) : Except Fault (List Byte) :=
  let temp := path.take (pathMax-1)
  (scan temp.length temp []).bind fun comps => (strcat [] [slash]).bind (join comps)

/-- What getcwd stores in `cwd[PATH_MAX]`. -/
structure Cwd where
  bytes : List Byte
  rooted : bytes.head?=some slash
  fits : bytes.length<pathMax

/-- snprintf leaves room for the NUL in `_abs[PATH_MAX + 1]`; the inner `none` is NULL, after getcwd has failed. -/
def absolutePath (getcwd : Option Cwd) (fullpath : List Byte) : Except Fault (Option (List Byte)) :=
  if fullpath.head?=some slash then (normalizePath (fullpath.take pathMax)).map some
  else match getcwd with
    | none => .ok none
    | some cwd => (normalizePath ((cwd.bytes++slash::fullpath).take pathMax)).map some

/-! ### What a path means -/

def skips (c : List Byte) : Prop := c=[] ∨ c=dot
def climbs (c : List Byte) : Prop := c=dotdot

instance : DecidablePred skips := fun _ => inferInstanceAs (Decidable (_ ∨ _))
instance : DecidablePred climbs := fun _ => inferInstanceAs (Decidable (_=_))

/-- The components from the root. -/
def meaning (path : List Byte) : List (List Byte) := walk skips climbs [] (path.splitOn slash)

def render (cs : List (List Byte)) : List Byte := slash::[slash].intercalate cs

/-- The cut text fills its buffer, has no slash in front and nothing to be dropped. -/
def spills (path : List Byte) : Prop :=
  pathMax-1≤path.length ∧ render (meaning (path.take (pathMax-1)))=slash::path.take (pathMax-1)

/-! ### Splitting and joining -/

theorem length_intercalate (cs : List (List Byte)) (hne : cs≠[]) :
    ([slash].intercalate cs).length+1=(cs.map fun c => c.length+1).sum := by
  induction cs with
  | nil => exact absurd rfl hne
  | cons c cs ih =>
    cases cs with
    | nil => simp
    | cons d ds =>
      have h := ih (List.cons_ne_nil d ds)
      rw [List.intercalate_cons_cons,List.map_cons,List.sum_cons,← h]
      simp only [List.length_append,List.length_singleton]
      omega

theorem length_splitOn (s : List Byte) : ((s.splitOn slash).map fun c => c.length+1).sum=s.length+1 := by
  rw [← length_intercalate _ (List.splitOn_ne_nil slash s),List.intercalate_splitOn]

theorem slash_notin_splitOn (s : List Byte) : ∀ c∈s.splitOn slash,slash∉c := by
  induction s with
  | nil =>
    intro c hc
    rw [List.splitOn_nil,List.mem_singleton] at hc
    rw [hc]
    exact List.not_mem_nil
  | cons b bs ih =>
    intro c hc
    rw [List.splitOn_cons_eq_if_modifyHead] at hc
    split at hc
    · rcases List.mem_cons.mp hc with rfl | hc
      · exact List.not_mem_nil
      · exact ih c hc
    · rename_i hb
      obtain ⟨d,ds,hds⟩ := List.exists_cons_of_ne_nil (List.splitOn_ne_nil slash bs)
      rw [hds] at hc ih
      rcases List.mem_cons.mp hc with rfl | hc
      · intro hin
        rcases List.mem_cons.mp hin with rfl | hin
        · exact hb (beq_self_eq_true _)
        · exact ih d List.mem_cons_self hin
      · exact ih c (List.mem_cons_of_mem d hc)

/-- A component that stays on the stack. -/
def proper (c : List Byte) : Prop := c≠[] ∧ c≠dot ∧ c≠dotdot ∧ slash∉c

theorem proper_meaning (s : List Byte) : ∀ c∈meaning s,proper c := by
  intro c hc
  rcases mem_walk hc with h | ⟨h,hs,hu⟩
  · cases h
  · exact ⟨fun he => hs (.inl he),fun he => hs (.inr he),hu,slash_notin_splitOn s c h⟩

theorem meaning_render {cs : List (List Byte)} (h : ∀ c∈cs,proper c) : meaning (render cs)=cs := by
  have hsplit : (render cs).splitOn slash=[]::([slash].intercalate cs).splitOn slash := by
    have := List.splitOn_append_cons_self (a := slash) [] ([slash].intercalate cs)
    simpa [render] using this
  rw [meaning,hsplit]
  have hhead : ∀ ds,walk skips climbs [] ([]::ds)=walk skips climbs [] ds := fun _ => rfl
  rw [hhead]
  rcases eq_or_ne cs [] with rfl | hne
  · rfl
  · rw [List.splitOn_intercalate slash (fun c hc => (h c hc).2.2.2) hne]
    have hkept : ∀ c∈cs,¬skips c ∧ ¬climbs c := fun c hc =>
      ⟨fun hs => hs.elim (h c hc).1 (h c hc).2.1,(h c hc).2.2.1⟩
    exact walk_kept hkept

theorem length_render_le (s : List Byte) : (render (meaning s)).length≤ s.length+1 ∧
    ((render (meaning s)).length=s.length+1 → render (meaning s)=slash::s) := by
  have hw := @walk_weight (List Byte) skips climbs _ _ [] (s.splitOn slash)
    (fun c : List Byte => c.length+1) fun c => Nat.succ_pos _
  rw [length_splitOn] at hw
  simp only [List.map_nil,List.sum_nil,Nat.zero_add,List.nil_append] at hw
  change ((meaning s).map _).sum≤_ ∧ (((meaning s).map _).sum=_ → meaning s=_) at hw
  rcases eq_or_ne (meaning s) [] with hnil | hne
  · rw [hnil]
    refine ⟨Nat.succ_le_succ (Nat.zero_le _),fun h => ?_⟩
    have hs : s=[] := List.length_eq_zero_iff.mp (Nat.succ.inj h).symm
    rw [hs]
    rfl
  · have hlen := length_intercalate (meaning s) hne
    refine ⟨?_,fun h => ?_⟩
    · rw [render,List.length_cons,hlen]
      exact hw.1
    · rw [render,List.length_cons,hlen] at h
      rw [render,hw.2 h,List.intercalate_splitOn]

/-- With a slash in front there is something to be dropped. -/
theorem length_render_rooted {s : List Byte} (h : s.head?=some slash) : (render (meaning s)).length≤ s.length := by
  obtain ⟨hle,heq⟩ := length_render_le s
  by_contra hgt
  have hs := heq (by omega)
  cases s with
  | nil => cases h
  | cons b bs =>
    cases h
    have htail : [slash].intercalate (meaning (slash::bs))=slash::bs := List.tail_eq_of_cons_eq hs
    have hprop := proper_meaning (slash::bs)
    cases hm : meaning (slash::bs) with
    | nil =>
      rw [hm] at htail
      cases htail
    | cons c cs =>
      rw [hm] at htail hprop
      obtain ⟨hne,-,-,hin⟩ := hprop c List.mem_cons_self
      obtain ⟨d,ds,rfl⟩ := List.exists_cons_of_ne_nil hne
      have hd : d=slash := by
        cases cs with
        | nil =>
          rw [List.intercalate_singleton] at htail
          exact List.head_eq_of_cons_eq htail
        | cons c' cs =>
          rw [List.intercalate_cons_cons,List.append_assoc,List.cons_append] at htail
          exact List.head_eq_of_cons_eq htail
      exact hin (hd ▸ List.mem_cons_self)

/-! ### The loops -/

/-- The fields of a text that are not empty, which are the tokens. -/
def tokens (s : List Byte) : List (List Byte) := (s.splitOn slash).filter fun c => c≠[]

theorem tokens_slash (s : List Byte) : tokens (slash::s)=tokens s := by
  have hsplit : (slash::s).splitOn slash=[]::s.splitOn slash := List.splitOn_append_cons_self [] s
  rw [tokens,hsplit]
  rfl

theorem tokens_dropWhile (s : List Byte) : tokens (s.dropWhile (·==slash))=tokens s := by
  induction s with
  | nil => rfl
  | cons b bs ih =>
    rw [List.dropWhile_cons]
    split
    · rename_i hb
      rw [ih,beq_iff_eq.mp hb,tokens_slash]
    · rfl

theorem tokens_token {t rest : List Byte} (hne : t≠[]) (hin : slash∉t) :
    tokens (t++rest)=t::tokens (rest.drop 1) ∨ ∃ b bs,rest=b::bs ∧ b≠slash := by
  cases rest with
  | nil =>
    refine .inl ?_
    rw [List.append_nil,tokens,List.splitOn_eq_singleton hin,List.filter_cons_of_pos (by simpa using hne)]
    rfl
  | cons b bs =>
    by_cases hb : b=slash
    · subst hb
      refine .inl ?_
      rw [tokens,List.splitOn_append_cons_self_of_not_mem hin,List.filter_cons_of_pos (by simpa using hne)]
      rfl
    · exact .inr ⟨b,bs,rfl,hb⟩

/-- A call of strtok: no token is left, or the next one and a shorter text. -/
theorem strtok_cases (s : List Byte) : strtok s=none ∧ tokens s=[] ∨
    ∃ t rest,strtok s=some (t,rest) ∧ t≠[] ∧ rest.length< s.length ∧ tokens s=t::tokens rest := by
  unfold strtok
  cases hd : s.dropWhile (·==slash) with
  | nil =>
    refine .inl ⟨rfl,?_⟩
    rw [← tokens_dropWhile,hd]
    rfl
  | cons b bs =>
    have hb : b≠slash := by
      have := List.head?_dropWhile_not (·==slash) s
      rw [hd] at this
      simpa using this
    have hlen : (b::bs).length≤ s.length := by
      rw [← hd]
      exact (List.dropWhile_sublist _).length_le
    have hne : (b::bs).takeWhile (·≠slash)≠[] := by
      rw [List.takeWhile_cons_of_pos (by simpa using hb)]
      exact List.cons_ne_nil _ _
    have hin : slash∉(b::bs).takeWhile (·≠slash) := by
      intro h
      simpa using List.mem_takeWhile_imp h
    refine .inr ⟨_,_,rfl,hne,?_,?_⟩
    · have hsub := (List.dropWhile_sublist (·≠slash) (l := bs)).length_le
      rw [List.dropWhile_cons_of_pos (by simpa using hb),List.length_drop]
      rw [List.length_cons] at hlen
      omega
    · rw [← tokens_dropWhile,hd]
      have hsplit := List.takeWhile_append_dropWhile (p := (·≠slash)) (l := b::bs)
      rcases @tokens_token _ ((b::bs).dropWhile (·≠slash)) hne hin with h | ⟨c,cs,h,hc⟩
      · rwa [hsplit] at h
      · have := List.head?_dropWhile_not (·≠slash) (b::bs)
        rw [h] at this
        simp at this
        exact absurd this hc

/-- The stack grows by no more than the text gets shorter, so that `components` has room. -/
theorem scan_eq (n : ℕ) (s : List Byte) (comps : List (List Byte)) (hn : s.length≤n)
    (hroom : comps.length+s.length≤pathMax) : scan n s comps=.ok (walk skips climbs comps (tokens s)) := by
  induction n generalizing s comps with
  | zero =>
    have hs : s=[] := List.length_eq_zero_iff.mp (Nat.le_zero.mp hn)
    rw [hs]
    rfl
  | succ n ih =>
    rw [scan]
    rcases strtok_cases s with ⟨hnone,htok⟩ | ⟨t,rest,hsome,hne,hlt,htok⟩
    · rw [hnone,htok]
      rfl
    · rw [hsome,htok]
      have hdrop : comps.dropLast.length≤comps.length := (List.dropLast_sublist comps).length_le
      change (if t=dotdot then _ else _)=Except.ok (walk skips climbs (enter skips climbs comps t) (tokens rest))
      by_cases hup : t=dotdot
      · have henter : enter skips climbs comps t=comps.dropLast := by
          subst hup
          rfl
        rw [if_pos hup,henter]
        exact ih rest _ (by omega) (by omega)
      · rw [if_neg hup]
        by_cases hdot : t=dot
        · have henter : enter skips climbs comps t=comps := if_pos (.inr hdot)
          rw [if_pos hdot,henter]
          exact ih rest comps (by omega) (by omega)
        · have henter : enter skips climbs comps t=comps++[t] := by
            rw [enter,if_neg fun h => h.elim hne hdot,if_neg (show ¬climbs t from hup)]
          rw [if_neg hdot,if_pos hne,if_pos (by omega),henter]
          refine ih rest _ (by omega) ?_
          rw [List.length_append,List.length_singleton]
          omega

theorem walk_tokens (s : List Byte) : walk skips climbs [] (tokens s)=meaning s :=
  walk_filter _ fun c hc => .inl (by simpa using hc)

theorem join_eq (cs : List (List Byte)) (r : List Byte) (hr : r.length<pathMax) : join cs r=
    if (r++[slash].intercalate cs).length<pathMax then .ok (r++[slash].intercalate cs) else .error .result := by
  induction cs generalizing r with
  | nil =>
    rw [List.intercalate_nil,List.append_nil,if_pos hr]
    rfl
  | cons c cs ih =>
    rw [join]
    by_cases hc : r.length+c.length<pathMax
    · rw [strcat,if_pos hc]
      change (if cs≠[] then strcat (r++c) [slash] else .ok (r++c)).bind (join cs)=_
      cases cs with
      | nil =>
        have hnil : ¬([] : List (List Byte))≠[] := fun h => h rfl
        rw [List.intercalate_singleton,if_neg hnil,List.length_append,if_pos hc]
        rfl
      | cons d ds =>
        rw [if_pos (List.cons_ne_nil d ds),strcat,List.intercalate_cons_cons]
        by_cases hs : (r++c).length+[slash].length<pathMax
        · rw [if_pos hs]
          change join (d::ds) (r++c++[slash])=_
          rw [ih _ (by rwa [List.length_append]),List.append_assoc,List.append_assoc,List.append_assoc]
        · rw [if_neg hs,if_neg]
          · rfl
          · rw [List.length_append,List.length_singleton] at hs
            simp only [List.length_append,List.length_singleton]
            omega
    · rw [strcat,if_neg hc,if_neg]
      · rfl
      · have hle : c.length≤([slash].intercalate (c::cs)).length := by
          cases cs with
          | nil => rw [List.intercalate_singleton]
          | cons d ds =>
            rw [List.intercalate_cons_cons]
            simp only [List.length_append]
            omega
        rw [List.length_append]
        omega

theorem normalizePath_eq (path : List Byte) : normalizePath path=
    if (render (meaning (path.take (pathMax-1)))).length<pathMax then
      .ok (render (meaning (path.take (pathMax-1))))
    else .error .result := by
  have hlen : (path.take (pathMax-1)).length≤pathMax-1 := List.length_take_le _ _
  have hscan := scan_eq (path.take (pathMax-1)).length (path.take (pathMax-1)) [] le_rfl
    (by rw [List.length_nil,Nat.zero_add]; exact hlen.trans (Nat.sub_le pathMax 1))
  have hstart : strcat [] [slash]=.ok [slash] := rfl
  rw [walk_tokens] at hscan
  simp only [normalizePath,hscan,hstart]
  exact join_eq _ [slash] (by decide)

/-! ### Results -/

theorem spills_iff (path : List Byte) :
    pathMax≤(render (meaning (path.take (pathMax-1)))).length ↔ spills path := by
  have hlen : (path.take (pathMax-1)).length=min (pathMax-1) path.length := List.length_take
  have hmax : pathMax=4096 := rfl
  obtain ⟨hle,heq⟩ := length_render_le (path.take (pathMax-1))
  constructor
  · intro h
    exact ⟨by omega,heq (by omega)⟩
  · rintro ⟨hlong,hs⟩
    rw [hs,List.length_cons,hlen]
    omega

theorem normalizePath_iff (path : List Byte) : (∃ q,normalizePath path=.ok q) ↔ ¬spills path := by
  rw [← spills_iff,normalizePath_eq]
  constructor
  · rintro ⟨q,hq⟩ hle
    rw [if_neg (by omega)] at hq
    cases hq
  · intro h
    exact ⟨_,if_pos (by omega)⟩

theorem normalizePath_ok {path q : List Byte} (h : normalizePath path=.ok q) :
    q=render (meaning (path.take (pathMax-1))) ∧ q.length<pathMax := by
  rw [normalizePath_eq] at h
  split at h
  · cases h
    exact ⟨rfl,‹_›⟩
  · cases h

/-- A text with a slash in front and room for its NUL. -/
theorem normalizePath_rooted {path : List Byte} (h : path.head?=some slash) :
    normalizePath path=.ok (render (meaning (path.take (pathMax-1)))) := by
  have hhead : (path.take (pathMax-1)).head?=some slash := by
    cases path with
    | nil => cases h
    | cons b bs => exact h
  have hle := length_render_rooted hhead
  have hlen : (path.take (pathMax-1)).length≤pathMax-1 := List.length_take_le _ _
  have hmax : pathMax=4096 := rfl
  rw [normalizePath_eq,if_pos (by omega)]

theorem render_push (ds : List (List Byte)) (c : List Byte) : ∃ xs,render (ds++[c])=xs++c := by
  induction ds with
  | nil =>
    refine ⟨[slash],?_⟩
    rw [List.nil_append,render,List.intercalate_singleton]
    rfl
  | cons d ds ih =>
    obtain ⟨xs,hxs⟩ := ih
    refine ⟨slash::(d++xs),?_⟩
    rw [List.cons_append,render,List.intercalate_cons_of_ne_nil (by simp)]
    rw [List.cons_append,List.append_assoc,List.append_assoc,← hxs]
    rfl

theorem last_render {cs : List (List Byte)} (h : ∀ c∈cs,proper c) :
    render cs=[slash] ∨ (render cs).getLast?≠some slash := by
  rcases List.eq_nil_or_concat' cs with rfl | ⟨ds,c,rfl⟩
  · exact .inl rfl
  · obtain ⟨hne,-,-,hin⟩ := h c (List.mem_append_right ds List.mem_cons_self)
    refine .inr fun hlast => ?_
    obtain ⟨xs,hxs⟩ := render_push ds c
    rw [hxs,List.getLast?_append_of_ne_nil _ hne] at hlast
    exact hin (List.mem_of_getLast? hlast)

/-- A result is the text of a stack of names, and its own normal form. -/
theorem normalizePath_shape {path q : List Byte} (h : normalizePath path=.ok q) :
    (∃ cs,q=render cs ∧ ∀ c∈cs,proper c) ∧ (q=[slash] ∨ q.getLast?≠some slash) ∧ normalizePath q=.ok q := by
  obtain ⟨rfl,hlt⟩ := normalizePath_ok h
  have hprop := proper_meaning (path.take (pathMax-1))
  have htake := List.take_of_length_le (i := pathMax-1) (Nat.le_pred_of_lt hlt)
  refine ⟨⟨_,rfl,hprop⟩,last_render hprop,?_⟩
  rw [normalizePath_rooted rfl,htake,meaning_render hprop]

/-- Both functions give what the path means, wherever its text fits, and neither writes behind its buffer but
`normalize_path`, by one byte, on a text that spills. -/
theorem paths_normal (path : List Byte) :
    ((path.length<pathMax → normalizePath path=.ok (render (meaning path))) ∧ (∃ q,normalizePath path=.ok q) ↔
      ¬spills path) ∧
    normalizePath path≠.error .components ∧
    (∀ q,normalizePath path=.ok q → (∃ cs,q=render cs ∧ ∀ c∈cs,proper c) ∧
      (q=[slash] ∨ q.getLast?≠some slash) ∧ normalizePath q=.ok q) ∧
    (∀ getcwd,∃ r,absolutePath getcwd path=.ok r) ∧
    (∀ getcwd,path.head?=some slash → path.length<pathMax →
      absolutePath getcwd path=.ok (some (render (meaning path)))) ∧
    (∀ cwd : Cwd,path.head?≠some slash → (cwd.bytes++slash::path).length<pathMax →
      absolutePath (some cwd) path=.ok (some (render (meaning (cwd.bytes++slash::path))))) := by
  have hcwd : ∀ (cwd : Cwd) (rest : List Byte),(cwd.bytes++rest).head?=some slash := by
    intro cwd rest
    rw [List.head?_append,cwd.rooted]
    rfl
  have htake : ∀ s : List Byte,s.head?=some slash → (s.take pathMax).head?=some slash := by
    intro s hs
    cases s with
    | nil => cases hs
    | cons b bs => exact hs
  have hfit : ∀ s : List Byte,s.length<pathMax → s.take pathMax=s ∧ s.take (pathMax-1)=s := fun s hs =>
    ⟨List.take_of_length_le hs.le,List.take_of_length_le (Nat.le_pred_of_lt hs)⟩
  refine ⟨⟨fun h => (normalizePath_iff path).mp h.2,fun h => ?_⟩,?_,fun q => normalizePath_shape,?_,?_,?_⟩
  · obtain ⟨q,hq⟩ := (normalizePath_iff path).mpr h
    refine ⟨fun hlt => ?_,q,hq⟩
    rw [hq,(normalizePath_ok hq).1,(hfit path hlt).2]
  · rw [normalizePath_eq]
    split
    · exact fun h => by cases h
    · exact fun h => by cases h
  · intro getcwd
    unfold absolutePath
    split
    · rw [normalizePath_rooted (htake path ‹_›)]
      exact ⟨_,rfl⟩
    · cases getcwd with
      | none => exact ⟨_,rfl⟩
      | some cwd =>
        change ∃ r,(normalizePath ((cwd.bytes++slash::path).take pathMax)).map some=.ok r
        rw [normalizePath_rooted (htake _ (hcwd cwd _))]
        exact ⟨_,rfl⟩
  · intro getcwd hroot hlt
    unfold absolutePath
    rw [if_pos hroot,(hfit path hlt).1,normalizePath_rooted hroot,(hfit path hlt).2]
    rfl
  · intro cwd hroot hlt
    unfold absolutePath
    rw [if_neg hroot]
    change (normalizePath ((cwd.bytes++slash::path).take pathMax)).map some=_
    rw [(hfit _ hlt).1,normalizePath_rooted (hcwd cwd _),(hfit _ hlt).2]
    rfl

/-- One name of 4095 letters: its slash leaves no room for the NUL. -/
theorem long_name_spills : ¬∀ path : List Byte,path.length<pathMax → ∃ q,normalizePath path=.ok q := by
  intro h
  have hlen : (List.replicate 4095 (97 : Byte)).length=4095 := List.length_replicate
  have hmeans : meaning (List.replicate 4095 97)=[List.replicate 4095 97] := by
    have hin : slash∉List.replicate 4095 (97 : Byte) := fun hin =>
      absurd (List.eq_of_mem_replicate hin) (by decide)
    have hkeep : ∀ c : List Byte,c.length=4095 → ¬skips c ∧ ¬climbs c := by
      refine fun c hc => ⟨fun hs => ?_,fun hs => ?_⟩
      · rcases hs with rfl | rfl <;> cases hc
      · rw [hs] at hc
        cases hc
    rw [meaning,List.splitOn_eq_singleton hin]
    exact walk_kept fun c hc => hkeep c (by rw [List.mem_singleton.mp hc,hlen])
  have htake : (List.replicate 4095 (97 : Byte)).take (pathMax-1)=List.replicate 4095 97 :=
    List.take_of_length_le hlen.le
  refine (normalizePath_iff (List.replicate 4095 97)).mp (h _ (hlen.trans_lt (by decide))) ⟨hlen.ge,?_⟩
  rw [htake,hmeans,render,List.intercalate_singleton]

end Dpapp.Which
