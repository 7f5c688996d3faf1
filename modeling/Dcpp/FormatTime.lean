import Dcpp.Bytes
import Dcpp.Library.Edit

-- How the format of a time is made safe, and the buffer that takes the text.
namespace Dcpp.Util

open Edit

def conversions : Bytes := str "aAbBcdHIjmMpSUwWxXyYzZ%"

/-- The loop of `formatTime` over the conversions of the format; behind the end stands the NUL. -/
def filterLoop (last : Nat) (ret : Bytes) (i : Nat) : Bytes :=
  match h : find [byte '%'] ret i with
  | none => ret
  | some i =>
    if i = last then ret
    else if ret.getD (i + 1) 0 ∈ conversions then filterLoop last ret (i + 3)
    else filterLoop last (replace ret i 0 [byte '%']) (i + 3)
termination_by ret.length - i
decreasing_by
  · have hle := find_bounds h
    simp only [List.length_singleton] at hle
    omega
  · have hle := find_bounds h
    simp only [List.length_singleton] at hle
    simp [replace]
    omega

def filterFormat (msg : Bytes) : Bytes := filterLoop (msg.length - 1) msg 0

/-- What is read of a string as a C string. -/
def cString (s : Bytes) : Bytes := s.takeWhile (· ≠ 0)

/-- What the system knows of times and charsets. -/
structure TimeSystem (Tm : Type) where
  localtime : Int → Option Tm
  /-- What a format stands for at a time. -/
  expand : Tm → Bytes → Bytes
  /-- Whether a format is refused with `EINVAL`. -/
  refuses : Tm → Bytes → Bool
  toUtf8 : Bytes → Bytes

variable {Tm : Type} (sys : TimeSystem Tm)

/-- What `strftime` stores, nothing where it returns 0, and whether it sets `EINVAL`. -/
def strftime (maxsize : Nat) (format : Bytes) (loc : Tm) : Bytes × Bool :=
  if sys.refuses loc format then ([], true)
  else if (sys.expand loc format).length + 1 ≤ maxsize then (sys.expand loc format, false)
  else ([], false)

/-- The loop of `formatTime` that enlarges the buffer, and what follows it. There is no result when the rounds do not
suffice. -/
def growLoop (ret : Bytes) (loc : Tm) : Nat → Nat → Bytes × Bool → Option Bytes
  | 0, _, _ => none
  | rounds + 1, bufsize, (buf, einval) =>
    if buf ≠ [] then some (sys.toUtf8 buf)
    else if einval then some []
    else growLoop ret loc rounds (bufsize + 64) (strftime sys (bufsize + 64 - 1) (cString ret) loc)

def formatTime (rounds : Nat) (msg : Bytes) (t : Int) : Option Bytes :=
  if msg ≠ [] then
    match sys.localtime t with
    | none => some []
    | some loc =>
      let ret := filterFormat msg
      let bufsize := ret.length + 256
      growLoop sys ret loc rounds bufsize (strftime sys (bufsize - 1) (cString ret) loc)
  else some []

/-- A format without conversions that are not supported. -/
inductive Supported : Bytes → Prop
  | nil : Supported []
  | char {c : UInt8} {s : Bytes} : c ≠ byte '%' → Supported s → Supported (c :: s)
  | conversion {c : UInt8} {s : Bytes} : c ∈ conversions → Supported s → Supported (byte '%' :: c :: s)

/-- Every `%` that starts no supported conversion is doubled. -/
def escaped : Bytes → Bytes
  | [] => []
  | [c] => if c = byte '%' then [c, c] else [c]
  | c :: x :: s =>
    if c ≠ byte '%' then c :: escaped (x :: s)
    else if x ∈ conversions then c :: x :: escaped s
    else c :: c :: escaped (x :: s)

mutual

/-- The filter is at the start of a character or a conversion, and has doubled `k` so far. It stops where as many
characters follow. -/
def InStep (k : Nat) : Bytes → Prop
  | [] => True
  | c :: s =>
    if c = 0 then True
    else if c ≠ byte '%' then InStep k s
    else if s.length = k then Supported (cString (c :: s))
    else match s with
      | [] => True
      | x :: s => if x ∈ conversions then Behind k s else InStep (k + 1) (x :: s)
termination_by s => (s.length, 0)

/-- The filter is behind a supported conversion, and passes by the next character. -/
def Behind (k : Nat) : Bytes → Prop
  | [] => True
  | c :: s => if c = byte '%' then Passed k s else InStep k (c :: s)
termination_by s => (s.length, 1)

/-- The filter has passed by the `%` of a conversion. -/
def Passed (k : Nat) : Bytes → Prop
  | [] => False
  | c :: s =>
    if c ∉ conversions then False
    else if c ≠ byte '%' then InStep k s
    else if s.length = k then Supported (cString s)
    else match s with
      | [] => False
      | x :: s =>
        if x ∉ conversions then False
        else if x ≠ byte '%' then Behind k s
        else match s with
          | [] => False
          | y :: s => y ∈ conversions ∧ InStep k s
termination_by s => (s.length, 0)

end

mutual

/-- The filter by recursion on the format, where `k` have been doubled. -/
def walk (k : Nat) : Bytes → Bytes
  | [] => []
  | c :: s =>
    if c ≠ byte '%' then c :: walk k s
    else if s.length = k then c :: s
    else match s with
      | [] => [c, c]
      | x :: s => if x ∈ conversions then c :: x :: walkBehind k s else c :: c :: x :: walk (k + 1) s

/-- Behind a supported conversion. -/
def walkBehind (k : Nat) : Bytes → Bytes
  | [] => []
  | y :: s => y :: walk k s

end

section Walk

variable {k : Nat} {c x : UInt8} {s : Bytes}

@[simp] theorem walk_nil (k : Nat) : walk k [] = [] := by
  rw [walk.eq_def]

theorem walk_char (hc : c ≠ byte '%') : walk k (c :: s) = c :: walk k s := by
  rw [walk.eq_def]
  exact if_pos hc

theorem walk_stop (h : s.length = k) : walk k (byte '%' :: s) = byte '%' :: s := by
  rw [walk.eq_def]
  simp [h]

theorem walk_last (hk : k ≠ 0) : walk k [byte '%'] = [byte '%', byte '%'] := by
  rw [walk.eq_def]
  simp [hk.symm]

theorem walk_conversion (h : (x :: s).length ≠ k) (hx : x ∈ conversions) :
    walk k (byte '%' :: x :: s) = byte '%' :: x :: walkBehind k s := by
  rw [walk.eq_def]
  simp only [ne_eq, not_true_eq_false, if_false, if_neg h, if_pos hx]

theorem walk_double (h : (x :: s).length ≠ k) (hx : x ∉ conversions) :
    walk k (byte '%' :: x :: s) = byte '%' :: byte '%' :: x :: walk (k + 1) s := by
  rw [walk.eq_def]
  simp only [ne_eq, not_true_eq_false, if_false, if_neg h, if_neg hx]

end Walk

section Find

variable {s : Bytes} {i : Nat}

theorem filterLoop_none {last : Nat} {ret : Bytes} (h : find [byte '%'] ret i = none) : filterLoop last ret i = ret := by
  rw [filterLoop]
  split
  next => rfl
  next hj => rw [h] at hj; cases hj

theorem filterLoop_some {last : Nat} {ret : Bytes} {j : Nat} (h : find [byte '%'] ret i = some j) :
    filterLoop last ret i = if j = last then ret
      else if ret.getD (j + 1) 0 ∈ conversions then filterLoop last ret (j + 3)
      else filterLoop last (replace ret j 0 [byte '%']) (j + 3) := by
  rw [filterLoop]
  split
  next hj => rw [h] at hj; cases hj
  next hj =>
    rw [h] at hj
    cases hj
    rfl

theorem filterLoop_congr {last : Nat} {ret : Bytes} {j : Nat} (h : find [byte '%'] ret i = find [byte '%'] ret j) :
    filterLoop last ret i = filterLoop last ret j := by
  cases hj : find [byte '%'] ret j with
  | none => rw [filterLoop_none (h.trans hj), filterLoop_none hj]
  | some n => rw [filterLoop_some (h.trans hj), filterLoop_some hj]

end Find

theorem filterLoop_char {last : Nat} {c : UInt8} (hc : c ≠ byte '%') (u s : Bytes) :
    filterLoop last (u ++ c :: s) u.length = filterLoop last ((u ++ [c]) ++ s) (u ++ [c]).length := by
  have hno : ¬[byte '%'] <+: c :: s := fun h => hc (List.cons_prefix_cons.mp h).1.symm
  have hsplit : u ++ c :: s = (u ++ [c]) ++ s := by simp
  rw [← hsplit]
  apply filterLoop_congr
  rw [find_append, hsplit, find_append, indexOf_cons_of_not_starts hno, Option.map_map]
  congr 1
  funext n
  simp only [Function.comp_apply, List.length_append, List.length_singleton]
  omega

theorem filterLoop_percent (last : Nat) (u s : Bytes) :
    filterLoop last (u ++ byte '%' :: s) u.length = if u.length = last then u ++ byte '%' :: s
      else if s.headD 0 ∈ conversions then filterLoop last (u ++ byte '%' :: s) (u.length + 3)
      else filterLoop last (u ++ byte '%' :: byte '%' :: s) (u.length + 3) := by
  have hfind : find [byte '%'] (u ++ byte '%' :: s) u.length = some u.length := by
    have hpre : [byte '%'] <+: byte '%' :: s := List.prefix_append [byte '%'] s
    rw [find_append, indexOf_of_starts hpre]
    rfl
  have hnext : (u ++ byte '%' :: s).getD (u.length + 1) 0 = s.headD 0 := by
    have h := getElem?_length_append (u ++ [byte '%']) s
    rw [List.append_assoc, List.singleton_append, List.length_append, List.length_singleton] at h
    rw [List.getD_eq_getElem?_getD, h, List.headD_eq_head?_getD]
  have hinsert : replace (u ++ byte '%' :: s) u.length 0 [byte '%'] = u ++ byte '%' :: byte '%' :: s := by
    simp [replace]
  rw [filterLoop_some hfind, hnext, hinsert]

/-- The loop works like the recursion on what is left. -/
theorem filterLoop_eq (last : Nat) (u s : Bytes) (k : Nat) (hlen : u.length + s.length = last + 1 + k) :
    filterLoop last (u ++ s) u.length = u ++ walk k s := by
  induction hn : s.length using Nat.strong_induction_on generalizing u s k with
  | _ n ih =>
    subst hn
    cases s with
    | nil =>
      rw [walk_nil]
      apply filterLoop_none
      simp [find, indexOf]
    | cons c s =>
      simp only [List.length_cons] at hlen
      by_cases hc : c = byte '%'
      · subst hc
        have hlast : u.length = last ↔ s.length = k := by omega
        rw [filterLoop_percent]
        simp only [hlast]
        split
        next hk => rw [walk_stop hk]
        next hk =>
          cases s with
          | nil =>
            have hnul : ([] : Bytes).headD 0 ∉ conversions := by decide
            have hend : find [byte '%'] (u ++ [byte '%', byte '%']) (u.length + 3) = none := by simp [find]
            rw [if_neg hnul, filterLoop_none hend, walk_last (Ne.symm hk)]
          | cons x s =>
            simp only [List.length_cons] at hlen
            have htwo : s.length < (byte '%' :: x :: s).length := Nat.lt_succ_of_lt (Nat.lt_succ_self _)
            rw [List.headD_cons]
            split
            next hx =>
              rw [walk_conversion hk hx]
              cases s with
              | nil => 
                have hend : find [byte '%'] (u ++ [byte '%', x]) (u.length + 3) = none := by simp [find]
                rw [filterLoop_none hend]
                rfl
              | cons y s =>
                have hlen' : (u ++ [byte '%', x, y]).length + s.length = last + 1 + k := by
                  simp only [List.length_append, List.length_cons, List.length_nil] at hlen ⊢
                  omega
                have h := ih s.length (Nat.lt_of_succ_lt htwo) (u ++ [byte '%', x, y]) s k hlen' rfl
                simpa [walkBehind] using h
            next hx =>
              have hlen' : (u ++ [byte '%', byte '%', x]).length + s.length = last + 1 + (k + 1) := by
                simp only [List.length_append, List.length_cons, List.length_nil]
                omega
              have h := ih s.length htwo (u ++ [byte '%', byte '%', x]) s (k + 1) hlen' rfl
              rw [walk_double hk hx]
              simpa using h
      · have hlen' : (u ++ [c]).length + s.length = last + 1 + k := by
          simp
          omega
        rw [filterLoop_char hc, ih s.length (by simp) _ s k hlen' rfl, walk_char hc]
        simp

theorem filterFormat_eq {msg : Bytes} (h : msg ≠ []) : filterFormat msg = walk 0 msg := by
  have hpos := List.length_pos_of_ne_nil h
  exact filterLoop_eq (msg.length - 1) [] msg 0 (by simp; omega)

section Rules

variable {k : Nat} {c x : UInt8} {s w e : Bytes} {P : Prop}

theorem percent_mem : byte '%' ∈ conversions := by decide

theorem ne_zero_of_mem (h : x ∈ conversions) : x ≠ 0 := by
  rintro rfl
  exact absurd h (by decide)

theorem ne_percent_of_not_mem (h : x ∉ conversions) : x ≠ byte '%' := by
  rintro rfl
  exact h percent_mem

@[simp] theorem cString_nil : cString [] = [] := rfl

@[simp] theorem cString_nul (s : Bytes) : cString (0 :: s) = [] := by
  simp [cString]

theorem cString_cons (hc : c ≠ 0) (s : Bytes) : cString (c :: s) = c :: cString s := by
  simp [cString, hc]

@[simp] theorem cString_percent (s : Bytes) : cString (byte '%' :: s) = byte '%' :: cString s :=
  cString_cons (by decide) s

theorem supported_char (hc : c ≠ byte '%') : Supported (c :: s) ↔ Supported s := by
  constructor
  · intro h
    cases h with
    | char _ h => exact h
    | conversion => exact absurd rfl hc
  · exact Supported.char hc

theorem supported_percent : Supported (byte '%' :: s) ↔ ∃ x t, s = x :: t ∧ x ∈ conversions ∧ Supported t := by
  constructor
  · intro h
    cases h with
    | char h _ => exact absurd rfl h
    | conversion hx h => exact ⟨_, _, rfl, hx, h⟩
  · rintro ⟨x, t, rfl, hx, h⟩
    exact Supported.conversion hx h

theorem supported_conversion (hx : x ∈ conversions) : Supported (byte '%' :: x :: s) ↔ Supported s := by
  rw [supported_percent]
  constructor
  · rintro ⟨_, _, hs, -, h⟩
    cases hs
    exact h
  · exact fun h => ⟨x, s, rfl, hx, h⟩

theorem not_supported_last : ¬Supported (cString [byte '%']) := by
  simp [supported_percent]

theorem not_supported (hx : x ∉ conversions) : ¬Supported (cString (byte '%' :: x :: s)) := by
  rw [cString_percent, supported_percent]
  rintro ⟨y, t, hs, hy, -⟩
  by_cases h : x = 0
  · simp [h] at hs
  · rw [cString_cons h, List.cons.injEq] at hs
    exact hx (hs.1 ▸ hy)

theorem escaped_char (hc : c ≠ byte '%') : escaped (c :: s) = c :: escaped s := by
  cases s with
  | nil => simp [escaped, hc]
  | cons x s => simp [escaped, hc]

theorem escaped_conversion (hx : x ∈ conversions) : escaped (byte '%' :: x :: s) = byte '%' :: x :: escaped s := by
  simp [escaped, hx]

theorem escaped_double (hx : x ∉ conversions) :
    escaped (byte '%' :: x :: s) = byte '%' :: byte '%' :: escaped (x :: s) := by
  simp [escaped, hx]

/-- A supported format stays as it is. -/
theorem escaped_of_supported (h : Supported (cString s)) : cString s = cString (escaped s) := by
  induction hn : s.length using Nat.strong_induction_on generalizing s with
  | _ n ih =>
    subst hn
    cases s with
    | nil => rfl
    | cons c s =>
      by_cases hzero : c = 0
      · subst hzero
        rw [escaped_char (by decide), cString_nul, cString_nul]
      · by_cases hc : c = byte '%'
        · subst hc
          cases s with
          | nil => exact absurd h not_supported_last
          | cons x s =>
            by_cases hx : x ∈ conversions
            · have hx' := ne_zero_of_mem hx
              rw [cString_percent, cString_cons hx', supported_conversion hx] at h
              rw [escaped_conversion hx, cString_percent, cString_percent, cString_cons hx', cString_cons hx',
                ih s.length (Nat.lt_succ_of_lt (Nat.lt_succ_self _)) h rfl]
            · exact absurd h (not_supported hx)
        · rw [cString_cons hzero, supported_char hc] at h
          rw [escaped_char hc, cString_cons hzero, cString_cons hzero, ih s.length (by simp) h rfl]

/-- What the filter makes is supported exactly when `P` holds, and is then what it should be. -/
def Right (w e : Bytes) (P : Prop) : Prop := (Supported (cString w) ↔ P) ∧ (P → cString w = cString e)

namespace Right

theorem stop (s : Bytes) : Right s (escaped s) (Supported (cString s)) := ⟨Iff.rfl, escaped_of_supported⟩

theorem nil : Right [] [] True := ⟨iff_true_intro Supported.nil, fun _ => rfl⟩

theorem nul (w e : Bytes) : Right (0 :: w) (0 :: e) True := by
  refine ⟨?_, fun _ => ?_⟩
  · simp [Supported.nil]
  · simp

theorem char (hc : c ≠ byte '%') (hzero : c ≠ 0) (h : Right w e P) : Right (c :: w) (c :: e) P := by
  refine ⟨?_, fun hP => ?_⟩
  · rw [cString_cons hzero, supported_char hc, h.1]
  · rw [cString_cons hzero, cString_cons hzero, h.2 hP]

theorem conversion (hx : x ∈ conversions) (h : Right w e P) : Right (byte '%' :: x :: w) (byte '%' :: x :: e) P := by
  have hzero := ne_zero_of_mem hx
  refine ⟨?_, fun hP => ?_⟩
  · rw [cString_percent, cString_cons hzero, supported_conversion hx, h.1]
  · rw [cString_percent, cString_percent, cString_cons hzero, cString_cons hzero, h.2 hP]

theorem wrong (h : ¬Supported (cString w)) : Right w e False := ⟨iff_false_intro h, fun h => h.elim⟩

end Right

theorem inStep_nil : InStep k [] := by
  rw [InStep.eq_def]
  trivial

theorem inStep_char (hc : c ≠ byte '%') (hzero : c ≠ 0) : InStep k (c :: s) = InStep k s := by
  rw [InStep.eq_def]
  simp only [if_neg hzero, if_pos hc]

theorem inStep_nul : InStep k (0 :: s) = True := by
  rw [InStep.eq_def]
  simp

theorem inStep_stop (h : s.length = k) : InStep k (byte '%' :: s) = Supported (cString (byte '%' :: s)) := by
  have hzero : byte '%' ≠ 0 := by decide
  rw [InStep.eq_def]
  simp only [if_neg hzero, ne_eq, not_true_eq_false, if_false, if_pos h]

theorem inStep_last (hk : k ≠ 0) : InStep k [byte '%'] = True := by
  have hzero : byte '%' ≠ 0 := by decide
  have h : ([] : Bytes).length ≠ k := hk.symm
  rw [InStep.eq_def]
  simp only [if_neg hzero, ne_eq, not_true_eq_false, if_false, if_neg h]

theorem inStep_percent (h : (x :: s).length ≠ k) :
    InStep k (byte '%' :: x :: s) = if x ∈ conversions then Behind k s else InStep (k + 1) (x :: s) := by
  have hzero : byte '%' ≠ 0 := by decide
  rw [InStep.eq_def]
  simp only [if_neg hzero, ne_eq, not_true_eq_false, if_false, if_neg h]

theorem behind_nil : Behind k [] = True := by
  rw [Behind.eq_def]

theorem behind_cons : Behind k (c :: s) = if c = byte '%' then Passed k s else InStep k (c :: s) := by
  rw [Behind.eq_def]

theorem passed_nil : Passed k [] = False := by
  rw [Passed.eq_def]

theorem passed_char (hc : c ≠ byte '%') : Passed k (c :: s) = if c ∈ conversions then InStep k s else False := by
  rw [Passed.eq_def]
  simp only [ne_eq, hc, not_false_eq_true, if_true, ite_not]

theorem passed_stop (h : s.length = k) : Passed k (byte '%' :: s) = Supported (cString s) := by
  rw [Passed.eq_def]
  simp only [percent_mem, not_true_eq_false, if_false, ne_eq, if_pos h]

theorem passed_last (hk : k ≠ 0) : Passed k [byte '%'] = False := by
  have h : ([] : Bytes).length ≠ k := hk.symm
  rw [Passed.eq_def]
  simp only [percent_mem, not_true_eq_false, if_false, ne_eq, if_neg h]

theorem passed_unsupported (h : (x :: s).length ≠ k) (hx : x ∉ conversions) :
    Passed k (byte '%' :: x :: s) = False := by
  rw [Passed.eq_def]
  simp only [percent_mem, not_true_eq_false, if_false, ne_eq, if_neg h, if_pos hx]

theorem passed_letter (h : (x :: s).length ≠ k) (hx : x ∈ conversions) (hx' : x ≠ byte '%') :
    Passed k (byte '%' :: x :: s) = Behind k s := by
  rw [Passed.eq_def]
  simp only [percent_mem, not_true_eq_false, if_false, ne_eq, if_neg h, if_neg (not_not.mpr hx), if_pos hx']

theorem passed_pair_last (h : [byte '%'].length ≠ k) : Passed k [byte '%', byte '%'] = False := by
  rw [Passed.eq_def]
  simp only [percent_mem, not_true_eq_false, if_false, ne_eq, if_neg h]

theorem passed_pair (h : (byte '%' :: x :: s).length ≠ k) :
    Passed k (byte '%' :: byte '%' :: x :: s) = (x ∈ conversions ∧ InStep k s) := by
  rw [Passed.eq_def]
  simp only [percent_mem, not_true_eq_false, if_false, ne_eq, if_neg h]

end Rules

/-- What the filter makes at the start of a character, behind a conversion, and behind a `%` that it has passed by. -/
structure Filters (k : Nat) (s : Bytes) : Prop where
  inStep : Right (walk k s) (escaped s) (InStep k s)
  behind : Right (walkBehind k s) (escaped s) (Behind k s)
  passed : Right (byte '%' :: walk k s) (escaped (byte '%' :: s)) (Passed k s)

section Filters

variable {k : Nat} {s : Bytes} (ih : ∀ t k, t.length < s.length → Filters k t)

include ih

theorem inStep_right : Right (walk k s) (escaped s) (InStep k s) := by
  cases s with
  | nil =>
    have h : InStep k [] = True := eq_true inStep_nil
    rw [h, walk_nil]
    exact Right.nil
  | cons c s =>
    have hone : s.length < (c :: s).length := Nat.lt_succ_self _
    by_cases hc : c = byte '%'
    · subst hc
      by_cases hk : s.length = k
      · rw [walk_stop hk, inStep_stop hk]
        exact Right.stop _
      · cases s with
        | nil =>
          rw [walk_last (Ne.symm hk), inStep_last (Ne.symm hk)]
          exact Right.conversion percent_mem Right.nil
        | cons x s =>
          have htwo : s.length < (byte '%' :: x :: s).length := Nat.lt_of_succ_lt hone
          rw [inStep_percent hk]
          split
          next hx =>
            rw [walk_conversion hk hx, escaped_conversion hx]
            exact (ih s k htwo).behind.conversion hx
          next hx =>
            rw [walk_double hk hx, escaped_double hx, ← walk_char (ne_percent_of_not_mem hx)]
            exact (ih (x :: s) (k + 1) hone).inStep.conversion percent_mem
    · rw [walk_char hc, escaped_char hc]
      by_cases hzero : c = 0
      · subst hzero
        rw [inStep_nul]
        exact Right.nul _ _
      · rw [inStep_char hc hzero]
        exact (ih s k hone).inStep.char hc hzero

theorem behind_right : Right (walkBehind k s) (escaped s) (Behind k s) := by
  have hstep := inStep_right (k := k) ih
  cases s with
  | nil =>
    rw [behind_nil]
    exact Right.nil
  | cons c s =>
    rw [behind_cons]
    split
    next hc =>
      subst hc
      exact (ih s k (Nat.lt_succ_self _)).passed
    next hc =>
      rw [walk_char hc] at hstep
      exact hstep

/-- The filter stands at the second `%` of two, and takes it for the start of a conversion. -/
theorem passed_percent_right (hs : ∃ t, s = byte '%' :: t) :
    Right (byte '%' :: walk k s) (escaped (byte '%' :: s)) (Passed k s) := by
  obtain ⟨s, rfl⟩ := hs
  have hone : s.length < (byte '%' :: s).length := Nat.lt_succ_self _
  rw [escaped_conversion percent_mem]
  by_cases hk : s.length = k
  · rw [walk_stop hk, passed_stop hk]
    exact (Right.stop s).conversion percent_mem
  · cases s with
    | nil =>
      rw [walk_last (Ne.symm hk), passed_last (Ne.symm hk)]
      exact Right.conversion percent_mem (Right.wrong not_supported_last)
    | cons x s =>
      have htwo : s.length < (byte '%' :: x :: s).length := Nat.lt_of_succ_lt hone
      by_cases hx : x ∈ conversions
      · rw [walk_conversion hk hx]
        by_cases hx' : x = byte '%'
        · subst hx'
          cases s with
          | nil =>
            rw [passed_pair_last hk]
            exact Right.conversion percent_mem (Right.wrong not_supported_last)
          | cons y s =>
            rw [passed_pair hk]
            by_cases hy : y ∈ conversions
            · rw [escaped_conversion hy]
              simp only [hy, true_and]
              exact ((ih s k (Nat.lt_of_succ_lt htwo)).inStep.conversion hy).conversion percent_mem
            · simp only [hy, false_and]
              exact Right.conversion percent_mem (Right.wrong (not_supported hy))
        · rw [passed_letter hk hx hx', escaped_char hx']
          exact ((ih s k htwo).behind.char hx' (ne_zero_of_mem hx)).conversion percent_mem
      · rw [walk_double hk hx, passed_unsupported hk hx]
        exact Right.conversion percent_mem (Right.wrong (not_supported hx))

theorem passed_right : Right (byte '%' :: walk k s) (escaped (byte '%' :: s)) (Passed k s) := by
  cases s with
  | nil =>
    rw [passed_nil, walk_nil]
    exact Right.wrong not_supported_last
  | cons p s =>
    by_cases hp : p = byte '%'
    · subst hp
      exact passed_percent_right ih ⟨s, rfl⟩
    · rw [walk_char hp, passed_char hp]
      split
      next hmem =>
        rw [escaped_conversion hmem]
        exact (ih s k (Nat.lt_succ_self _)).inStep.conversion hmem
      next hmem => exact Right.wrong (not_supported hmem)

end Filters

theorem filters (s : Bytes) (k : Nat) : Filters k s := by
  induction hn : s.length using Nat.strong_induction_on generalizing s k with
  | _ n ih =>
    subst hn
    have ih' (t : Bytes) (k : Nat) (ht : t.length < s.length) : Filters k t := ih t.length ht t k rfl
    exact ⟨inStep_right ih', behind_right ih', passed_right ih'⟩

theorem filterFormat_supported {msg : Bytes} (h : msg ≠ []) :
    Supported (cString (filterFormat msg)) ↔ InStep 0 msg := by
  rw [filterFormat_eq h]
  exact (filters msg 0).inStep.1

theorem filterFormat_escaped {msg : Bytes} (h : msg ≠ []) (hstep : InStep 0 msg) :
    cString (filterFormat msg) = cString (escaped msg) := by
  rw [filterFormat_eq h]
  exact (filters msg 0).inStep.2 hstep

section Buffer

variable {sys} {loc : Tm} {ret : Bytes}

theorem growLoop_text {buf : Bytes} (h : buf ≠ []) (rounds bufsize : Nat) (einval : Bool) :
    growLoop sys ret loc (rounds + 1) bufsize (buf, einval) = some (sys.toUtf8 buf) := by
  simp [growLoop, h]

theorem growLoop_empty (rounds bufsize : Nat) :
    growLoop sys ret loc (rounds + 1) bufsize ([], false) =
      growLoop sys ret loc rounds (bufsize + 64) (strftime sys (bufsize + 64 - 1) (cString ret) loc) := by
  simp [growLoop]

/-- The buffer grows until the text fits. -/
theorem growLoop_fits (hrefuses : sys.refuses loc (cString ret) = false) (hexpand : sys.expand loc (cString ret) ≠ [])
    (rounds bufsize : Nat) (h : (sys.expand loc (cString ret)).length + 2 ≤ bufsize + 64 * rounds) :
    (growLoop sys ret loc (rounds + 1) bufsize (strftime sys (bufsize - 1) (cString ret) loc)).isSome := by
  induction rounds generalizing bufsize with
  | zero =>
    have hfits : (sys.expand loc (cString ret)).length + 1 ≤ bufsize - 1 := by omega
    simp [strftime, hrefuses, hfits, growLoop_text hexpand]
  | succ rounds ih =>
    by_cases hfits : (sys.expand loc (cString ret)).length + 1 ≤ bufsize - 1
    · simp [strftime, hrefuses, hfits, growLoop_text hexpand]
    · have hnext := ih (bufsize + 64) (by omega)
      have hempty : strftime sys (bufsize - 1) (cString ret) loc = ([], false) := by simp [strftime, hrefuses, hfits]
      rw [hempty, growLoop_empty]
      exact hnext

/-- An empty text is taken for one that does not fit, over and over. -/
theorem growLoop_endless (hrefuses : sys.refuses loc (cString ret) = false) (hexpand : sys.expand loc (cString ret) = [])
    (rounds bufsize : Nat) :
    growLoop sys ret loc rounds bufsize (strftime sys (bufsize - 1) (cString ret) loc) = none := by
  have hempty (size : Nat) : strftime sys size (cString ret) loc = ([], false) := by simp [strftime, hrefuses, hexpand]
  induction rounds generalizing bufsize with
  | zero => rfl
  | succ rounds ih =>
    rw [hempty, growLoop_empty]
    exact ih (bufsize + 64)

theorem growLoop_returns (bufsize : Nat) :
    (∃ rounds, (growLoop sys ret loc rounds bufsize (strftime sys (bufsize - 1) (cString ret) loc)).isSome) ↔
      sys.expand loc (cString ret) ≠ [] ∨ sys.refuses loc (cString ret) = true := by
  cases hrefuses : sys.refuses loc (cString ret) with
  | true => simpa using ⟨1, by simp [strftime, hrefuses, growLoop]⟩
  | false =>
    by_cases hexpand : sys.expand loc (cString ret) = []
    · simp [growLoop_endless hrefuses hexpand, hexpand]
    · simpa [hexpand] using ⟨_, growLoop_fits hrefuses hexpand ((sys.expand loc (cString ret)).length + 2) bufsize
        (by omega)⟩

end Buffer

/-- What is asked of a format: only supported conversions reach `strftime`, where all the others have been doubled, and
there is a result. -/
structure FormatsTime (msg : Bytes) (t : Int) : Prop where
  supported : msg ≠ [] → (sys.localtime t).isSome → Supported (cString (filterFormat msg))
  doubled : msg ≠ [] → (sys.localtime t).isSome → cString (filterFormat msg) = cString (escaped msg)
  returns : ∃ rounds, (formatTime sys rounds msg t).isSome

/-- The format is treated right exactly when the filter keeps in step with its conversions, and its text is not
empty, or is refused. -/
theorem formatTime_iff (msg : Bytes) (t : Int) : FormatsTime sys msg t ↔
    (msg ≠ [] → ∀ loc ∈ sys.localtime t, InStep 0 msg ∧
      (sys.expand loc (cString (escaped msg)) ≠ [] ∨ sys.refuses loc (cString (escaped msg)) = true)) := by
  by_cases hmsg : msg = []
  · simp only [hmsg, ne_eq, not_true_eq_false, false_implies, iff_true]
    exact ⟨fun h => absurd rfl h, fun h => absurd rfl h, 0, rfl⟩
  cases hloc : sys.localtime t with
  | none =>
    simp only [Option.not_mem_none, false_implies, implies_true, iff_true]
    refine ⟨fun _ h => ?_, fun _ h => ?_, 0, by simp [formatTime, hmsg, hloc]⟩
    · simp [hloc] at h
    · simp [hloc] at h
  | some loc =>
    have hsome : (sys.localtime t).isSome := by rw [hloc]; rfl
    have hreturns : (∃ rounds, (formatTime sys rounds msg t).isSome) ↔
        sys.expand loc (cString (filterFormat msg)) ≠ [] ∨ sys.refuses loc (cString (filterFormat msg)) = true := by
      simp only [formatTime, ne_eq, hmsg, not_false_eq_true, if_true, hloc]
      exact growLoop_returns _
    simp only [ne_eq, hmsg, not_false_eq_true, true_implies, Option.mem_def, Option.some_inj, forall_eq']
    constructor
    · intro h
      have hstep := (filterFormat_supported hmsg).mp (h.supported hmsg hsome)
      rw [← filterFormat_escaped hmsg hstep]
      exact ⟨hstep, hreturns.mp h.returns⟩
    · rintro ⟨hstep, htext⟩
      have hescaped := filterFormat_escaped hmsg hstep
      rw [← hescaped] at htext
      exact ⟨fun _ _ => (filterFormat_supported hmsg).mpr hstep, fun _ _ => hescaped, hreturns.mpr htext⟩

/-- A locale without a text for `%p`. -/
def locale : TimeSystem Unit where
  localtime _ := some ()
  expand _ format := if format = str "%p" then [] else format
  refuses _ _ := false
  toUtf8 := id

/-- The `%` of the second conversion is passed by, and an empty text is waited for. -/
theorem not_formatsTime : ¬FormatsTime locale (str "%a%Q") 0 ∧ ¬FormatsTime locale (str "%p") 0 := by
  constructor
  · intro h
    have hstep := (filterFormat_supported (by decide)).mp (h.supported (by decide) rfl)
    have hpassed : InStep 0 (str "%a%Q") = Passed 0 (str "Q") :=
      (inStep_percent (by decide)).trans ((if_pos (by decide)).trans (behind_cons.trans (if_pos rfl)))
    have hwrong : Passed 0 (str "Q") = False := (passed_char (by decide)).trans (if_neg (by decide))
    rw [hpassed, hwrong] at hstep
    exact hstep
  · intro h
    obtain ⟨rounds, hrounds⟩ := h.returns
    have hret : filterFormat (str "%p") = str "%p" :=
      (filterFormat_eq (by decide)).trans (walk_conversion (by decide) (by decide))
    have hexpand : locale.expand () (cString (filterFormat (str "%p"))) = [] := by
      rw [hret]
      decide
    have hnone : formatTime locale rounds (str "%p") 0 = none := growLoop_endless rfl hexpand rounds _
    rw [hnone] at hrounds
    cases hrounds

end Dcpp.Util
