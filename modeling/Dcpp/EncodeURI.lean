import Mathlib.Algebra.GroupWithZero.Nat
import Dcpp.Encoder
import Dcpp.Library.Edit

-- The escapes of URIs.
namespace Dcpp.Util

open Edit

def hexDigit (n : Nat) : UInt8 := (str "0123456789ABCDEF").getD n 0

/-- `%%%X`, which has one digit for the numbers below 16. -/
def toHexEscape (val : UInt8) : Bytes :=
  byte '%' :: if val < 16 then [hexDigit val.toNat] else [hexDigit (val.toNat / 16), hexDigit (val.toNat % 16)]

/-- The value of a hexadecimal digit in either case. -/
def xdigit? (c : UInt8) : Option UInt8 :=
  if byte '0' ≤ c ∧ c ≤ byte '9' then some (c - byte '0')
  else if byte 'A' ≤ c ∧ c ≤ byte 'F' then some (c - byte 'A' + 10)
  else if byte 'a' ≤ c ∧ c ≤ byte 'f' then some (c - byte 'a' + 10)
  else none

def isxdigit (c : UInt8) : Bool := (xdigit? c).isSome

/-- `%X` of the digits that stand in front, cut to a byte. -/
def fromHexEscape (aString : Bytes) : UInt8 :=
  (aString.takeWhile isxdigit).foldl (fun res c => 16 * res + (xdigit? c).getD 0) 0

def disallowed : Bytes := str ";/?:@&=+$,<>#%\" \x7b\x7d|\\^[]`"

/-- The characters that are escaped. A byte from 0x80 on is a negative `char`, and escaped as well. -/
def isEscaped (c : UInt8) : Bool := c ≤ 0x1f || c ≥ 0x7f || c ∈ disallowed

/-- The loop of `encodeURI` that escapes; it goes on behind two digits. -/
def encodeLoop (tmp : Bytes) (idx : Nat) : Bytes :=
  if _h : idx < tmp.length then
    if tmp[idx] = byte ' ' then encodeLoop (tmp.set idx (byte '+')) (idx + 1)
    else if isEscaped tmp[idx] then encodeLoop (replace tmp idx 1 (toHexEscape tmp[idx])) (idx + 2 + 1)
    else encodeLoop tmp (idx + 1)
  else tmp
termination_by tmp.length - idx
decreasing_by
  · simp
    omega
  · have hlen : (toHexEscape tmp[idx]).length ≤ 3 := by
      rw [toHexEscape]
      split <;> simp
    simp [replace]
    omega
  · omega

/-- Whether an escape stands at a place; it is undefined to read behind the end. -/
def escapeAt (tmp : Bytes) (idx : Nat) : Option Bool :=
  if tmp.length > idx + 2 then do
    let c ← tmp[idx]?
    let x ← tmp[idx + 1]?
    let y ← tmp[idx + 2]?
    return c = byte '%' && isxdigit x && isxdigit y
  else some false

/-- The loop of `encodeURI` that takes escapes back. -/
def decodeLoop (tmp : Bytes) (idx : Nat) : Option Bytes :=
  if _h : idx < tmp.length then
    match escapeAt tmp idx with
    | none => none
    | some true =>
      match substr tmp (idx + 1) 2 with
      | none => none
      | some digits => decodeLoop (erase (tmp.set idx (fromHexEscape digits)) (idx + 1) 2) (idx + 1)
    | some false =>
      if tmp[idx] = byte '+' then decodeLoop (tmp.set idx (byte ' ')) (idx + 1) else decodeLoop tmp (idx + 1)
  else some tmp
termination_by tmp.length - idx
decreasing_by
  · simp [erase]
    omega
  · simp
    omega
  · omega

def encodeURI (aString : Bytes) (reverse : Bool) : Option Bytes :=
  if reverse then decodeLoop aString 0 else some (encodeLoop aString 0)

/-- The loop that escapes, over what is left. Where it writes one digit, it passes by a character. -/
def encodeRest : Bytes → Bytes
  | [] => []
  | c :: s =>
    if c = byte ' ' then byte '+' :: encodeRest s
    else if isEscaped c then
      if c < 16 then
        match s with
        | [] => toHexEscape c
        | d :: s => toHexEscape c ++ d :: encodeRest s
      else toHexEscape c ++ encodeRest s
    else c :: encodeRest s

def plus (c : UInt8) : UInt8 := if c = byte '+' then byte ' ' else c

/-- The loop back, over what is left. -/
def decodeRest : Bytes → Bytes
  | c :: x :: y :: s =>
    if c = byte '%' ∧ isxdigit x ∧ isxdigit y then fromHexEscape [x, y] :: decodeRest s
    else plus c :: decodeRest (x :: y :: s)
  | c :: s => plus c :: decodeRest s
  | [] => []

theorem encodeLoop_eq (u s : Bytes) : encodeLoop (u ++ s) u.length = u ++ encodeRest s := by
  induction hn : s.length using Nat.strong_induction_on generalizing u s with
  | _ n ih =>
    subst hn
    rw [encodeLoop.eq_def]
    cases s with
    | nil => simp [encodeRest]
    | cons c s =>
      have hlt : u.length < (u ++ c :: s).length := by simp
      have hget : (u ++ c :: s)[u.length] = c := by simp
      rw [dif_pos hlt, hget, encodeRest.eq_def]
      dsimp only
      split
      next =>
        have h := ih s.length (by simp) (u ++ [byte '+']) s rfl
        simpa using h
      next =>
        split
        next =>
          have hreplace : replace (u ++ c :: s) u.length 1 (toHexEscape c) = u ++ (toHexEscape c ++ s) := by
            simp [replace]
          rw [hreplace, toHexEscape]
          split
          next =>
            cases s with
            | nil =>
              rw [encodeLoop, dif_neg (by simp)]
              rfl
            | cons d s =>
              have h := ih s.length (by simp only [List.length_cons]; omega) (u ++ [byte '%', hexDigit c.toNat, d]) s rfl
              simpa using h
          next =>
            have h := ih s.length (by simp) (u ++ [byte '%', hexDigit (c.toNat / 16), hexDigit (c.toNat % 16)]) s rfl
            simpa using h
        next =>
          have h := ih s.length (by simp) (u ++ [c]) s rfl
          simpa using h

theorem escapeAt_eq (u s : Bytes) : escapeAt (u ++ s) u.length = some (match s with
    | c :: x :: y :: _ => c = byte '%' && isxdigit x && isxdigit y
    | _ => false) := by
  have hget (k : Nat) : (u ++ s)[u.length + k]? = s[k]? := by
    rw [List.getElem?_append_right (Nat.le_add_right _ _), Nat.add_sub_cancel_left]
  have hget₀ : (u ++ s)[u.length]? = s[0]? := hget 0
  rw [escapeAt, hget₀, hget, hget]
  obtain _ | ⟨c, _ | ⟨x, _ | ⟨y, s⟩⟩⟩ := s <;> simp

theorem decodeLoop_eq (u s : Bytes) : decodeLoop (u ++ s) u.length = some (u ++ decodeRest s) := by
  induction hn : s.length using Nat.strong_induction_on generalizing u s with
  | _ n ih =>
    subst hn
    have hplus (c : UInt8) (s' : Bytes) (hs : s = c :: s') (hdecode : decodeRest s = plus c :: decodeRest s')
        (hescape : escapeAt (u ++ s) u.length = some false) :
        decodeLoop (u ++ s) u.length = some (u ++ decodeRest s) := by
      subst hs
      have h := ih s'.length (by simp) (u ++ [plus c]) s' rfl
      rw [decodeLoop.eq_def, dif_pos (by simp), hescape, hdecode]
      by_cases hc : c = byte '+'
      · simpa [plus, hc] using h
      · simpa [plus, hc] using h
    have hescape := escapeAt_eq u s
    obtain _ | ⟨c, _ | ⟨x, _ | ⟨y, s⟩⟩⟩ := s
    · rw [decodeLoop.eq_def, dif_neg (by simp)]
      simp [decodeRest]
    · exact hplus c [] rfl (by rw [decodeRest.eq_def]) hescape
    · exact hplus c [x] rfl (by rw [decodeRest.eq_def]) hescape
    · by_cases h : c = byte '%' ∧ isxdigit x = true ∧ isxdigit y = true
      · obtain ⟨rfl, hx, hy⟩ := h
        have hsub : substr (u ++ byte '%' :: x :: y :: s) (u.length + 1) 2 = some [x, y] := by
          rw [substr, if_pos (by simp)]
          simp
        have hlen : u.length + 1 = (u ++ [fromHexEscape [x, y]]).length := by simp
        have hedit : erase ((u ++ byte '%' :: x :: y :: s).set u.length (fromHexEscape [x, y])) (u.length + 1) 2 =
            u ++ [fromHexEscape [x, y]] ++ s := by
          have h := erase_append (u ++ [fromHexEscape [x, y]]) [x, y] s
          rw [← hlen] at h
          simpa using h
        rw [decodeLoop.eq_def, dif_pos (by simp), hescape]
        simp only [hx, hy, decide_true, Bool.and_self, hsub, hedit]
        rw [hlen, ih s.length (by simp only [List.length_cons]; omega) _ s rfl, decodeRest, if_pos ⟨rfl, hx, hy⟩,
          List.append_assoc]
        rfl
      · apply hplus c (x :: y :: s) rfl
        · rw [decodeRest, if_neg h]
        · rw [hescape]
          simpa using h

/-- The characters that are not escaped in a component of a URI, with the `+` of a space. -/
def isUnreserved (c : UInt8) : Bool :=
  (byte 'a' ≤ c && c ≤ byte 'z') || (byte 'A' ≤ c && c ≤ byte 'Z') || (byte '0' ≤ c && c ≤ byte '9') ||
    c ∈ str "-_.!~*'()+"

/-- A component of a URI: a `%` stands in front of two hexadecimal digits. -/
inductive Component : Bytes → Prop
  | nil : Component []
  | char {c : UInt8} {s : Bytes} : isUnreserved c → Component s → Component (c :: s)
  | escape {x y : UInt8} {s : Bytes} : isxdigit x → isxdigit y → Component s → Component (byte '%' :: x :: y :: s)

theorem xdigit?_hexDigit : ∀ n < 16, xdigit? (hexDigit n) = some (UInt8.ofNat n) := by decide +kernel

theorem isxdigit_hexDigit {n : Nat} (h : n < 16) : isxdigit (hexDigit n) = true := by
  rw [isxdigit, xdigit?_hexDigit n h, Option.isSome_some]

theorem fromHexEscape_digits {m n : Nat} (hm : m < 16) (hn : n < 16) :
    fromHexEscape [hexDigit m, hexDigit n] = UInt8.ofNat (16 * m + n) := by
  rw [fromHexEscape, List.takeWhile_cons_of_pos (isxdigit_hexDigit hm),
    List.takeWhile_cons_of_pos (isxdigit_hexDigit hn), List.takeWhile_nil, List.foldl_cons, List.foldl_cons,
    List.foldl_nil, xdigit?_hexDigit m hm, xdigit?_hexDigit n hn, Option.getD_some, Option.getD_some,
    ← UInt8.toNat_inj]
  have h16 : (16 : UInt8).toNat = 16 := rfl
  have h0 : (0 : UInt8).toNat = 0 := rfl
  simp only [UInt8.toNat_add, UInt8.toNat_mul, UInt8.toNat_ofNat', h16, h0]
  omega

theorem isxdigit_iff (c : UInt8) : isxdigit c = true ↔
    (48 ≤ c.toNat ∧ c.toNat ≤ 57) ∨ (65 ≤ c.toNat ∧ c.toNat ≤ 70) ∨ (97 ≤ c.toNat ∧ c.toNat ≤ 102) := by
  have hle (a b : Char) : byte a ≤ c ∧ c ≤ byte b ↔ (byte a).toNat ≤ c.toNat ∧ c.toNat ≤ (byte b).toNat :=
    and_congr UInt8.le_iff_toNat_le UInt8.le_iff_toNat_le
  rw [isxdigit, xdigit?]
  split_ifs with h1 h2 h3
  · exact iff_of_true rfl (Or.inl ((hle _ _).mp h1))
  · exact iff_of_true rfl (Or.inr (Or.inl ((hle _ _).mp h2)))
  · exact iff_of_true rfl (Or.inr (Or.inr ((hle _ _).mp h3)))
  · rw [hle] at h1 h2 h3
    exact iff_of_false Bool.false_ne_true (not_or.mpr ⟨h1, not_or.mpr ⟨h2, h3⟩⟩)

/-- What the digits of an escape are read as. -/
theorem digits_wide (c : UInt8) :
    isxdigit (hexDigit (c.toNat / 16)) = true ∧ isxdigit (hexDigit (c.toNat % 16)) = true ∧
      fromHexEscape [hexDigit (c.toNat / 16), hexDigit (c.toNat % 16)] = c := by
  have hhigh : c.toNat / 16 < 16 := by
    have := c.toNat_lt
    omega
  have hlow : c.toNat % 16 < 16 := Nat.mod_lt _ (by decide)
  refine ⟨isxdigit_hexDigit hhigh, isxdigit_hexDigit hlow, ?_⟩
  rw [fromHexEscape_digits hhigh hlow, Nat.div_add_mod, UInt8.ofNat_toNat]

theorem digit_control {c : UInt8} (h : c < 16) : isxdigit (hexDigit c.toNat) = true :=
  isxdigit_hexDigit (UInt8.lt_iff_toNat_lt.mp h)

theorem disallowed_not_xdigit : ∀ c ∈ disallowed, isxdigit c = false := by decide +kernel

/-- Digits are written as they are. -/
theorem xdigit_plain {c : UInt8} (h : isxdigit c = true) :
    c ≠ byte ' ' ∧ c ≠ byte '%' ∧ c ≠ byte '+' ∧ isEscaped c = false ∧ ¬c < 16 := by
  have hne (d : UInt8) (hd : isxdigit d = false) : c ≠ d := by
    rintro rfl
    rw [h] at hd
    cases hd
  have hrange := (isxdigit_iff c).mp h
  have hdisallowed : c ∉ disallowed := fun hc => hne c (disallowed_not_xdigit c hc) rfl
  have hlow : ¬c ≤ 0x1f := by
    rw [UInt8.le_iff_toNat_le, show (0x1f : UInt8).toNat = 31 from rfl]
    omega
  have hhigh : ¬c ≥ 0x7f := by
    rw [ge_iff_le, UInt8.le_iff_toNat_le, show (0x7f : UInt8).toNat = 127 from rfl]
    omega
  refine ⟨hne _ rfl, hne _ rfl, hne _ rfl, ?_, ?_⟩
  · rw [isEscaped]
    simp [hlow, hhigh, hdisallowed]
  · rw [UInt8.lt_iff_toNat_lt, show (16 : UInt8).toNat = 16 from rfl]
    omega

/-- What is not escaped. -/
theorem isEscaped_eq_false {c : UInt8} : isEscaped c = false ↔ 0x1f < c ∧ c < 0x7f ∧ c ∉ disallowed := by
  rw [isEscaped]
  simp [and_assoc]

theorem control_escaped {c : UInt8} (h : c < 16) : c ≠ byte ' ' ∧ isEscaped c = true := by
  have hle : c ≤ 0x1f := UInt8.le_of_lt (UInt8.lt_trans h (by decide))
  refine ⟨?_, ?_⟩
  · rintro rfl
    exact absurd h (by decide)
  · rw [isEscaped]
    simp [hle]

theorem unescaped_plain {c : UInt8} (h : isEscaped c = false) : c ≠ byte '%' ∧ c ≠ byte '+' ∧ ¬c < 16 := by
  refine ⟨?_, ?_, fun hlt => ?_⟩
  · rintro rfl
    exact absurd h (by decide +kernel)
  · rintro rfl
    exact absurd h (by decide +kernel)
  · rw [(control_escaped hlt).2] at h
    cases h

theorem unescaped_unreserved {c : UInt8} (hspace : c ≠ byte ' ') (h : isEscaped c = false) : isUnreserved c = true := by
  obtain ⟨hlow, hhigh, hdisallowed⟩ := isEscaped_eq_false.mp h
  have hall : ∀ n < 127, 31 < n →
      (isUnreserved (UInt8.ofNat n) || UInt8.ofNat n = byte ' ' || UInt8.ofNat n ∈ disallowed) = true := by
    decide +kernel
  have hc := hall c.toNat (UInt8.lt_iff_toNat_lt.mp hhigh) (UInt8.lt_iff_toNat_lt.mp hlow)
  rw [UInt8.ofNat_toNat] at hc
  simpa [hspace, hdisallowed] using hc

theorem encodeRest_space (s : Bytes) : encodeRest (byte ' ' :: s) = byte '+' :: encodeRest s := by
  rw [encodeRest.eq_def]
  exact if_pos rfl

theorem encodeRest_plain {c : UInt8} (hspace : c ≠ byte ' ') (h : isEscaped c = false) (s : Bytes) :
    encodeRest (c :: s) = c :: encodeRest s := by
  simp [encodeRest.eq_def (c :: s), hspace, h]

theorem encodeRest_wide {c : UInt8} (hspace : c ≠ byte ' ') (h : isEscaped c = true) (hwide : ¬c < 16) (s : Bytes) :
    encodeRest (c :: s) =
      byte '%' :: hexDigit (c.toNat / 16) :: hexDigit (c.toNat % 16) :: encodeRest s := by
  simp [encodeRest.eq_def (c :: s), hspace, h, hwide, toHexEscape]

theorem encodeRest_control {c : UInt8} (h : c < 16) (d : UInt8) (s : Bytes) :
    encodeRest (c :: d :: s) = byte '%' :: hexDigit c.toNat :: d :: encodeRest s := by
  obtain ⟨hspace, hescaped⟩ := control_escaped h
  simp [encodeRest.eq_def (c :: d :: s), hspace, hescaped, h, toHexEscape]

theorem encodeRest_control_end {c : UInt8} (h : c < 16) : encodeRest [c] = [byte '%', hexDigit c.toNat] := by
  obtain ⟨hspace, hescaped⟩ := control_escaped h
  simp [encodeRest, hspace, hescaped, h, toHexEscape]

theorem decodeRest_cons {c : UInt8} (h : c ≠ byte '%') (s : Bytes) : decodeRest (c :: s) = plus c :: decodeRest s := by
  obtain _ | ⟨x, _ | ⟨y, s⟩⟩ := s
  · rw [decodeRest.eq_def]
  · rw [decodeRest.eq_def]
  · rw [decodeRest, if_neg fun hc => h hc.1]

theorem decodeRest_escape {x y : UInt8} (hx : isxdigit x = true) (hy : isxdigit y = true) (s : Bytes) :
    decodeRest (byte '%' :: x :: y :: s) = fromHexEscape [x, y] :: decodeRest s := by
  rw [decodeRest, if_pos ⟨rfl, hx, hy⟩]

theorem decodeRest_percent {s : Bytes} (h : ∀ x y t, s = x :: y :: t → ¬(isxdigit x = true ∧ isxdigit y = true)) :
    decodeRest (byte '%' :: s) = byte '%' :: decodeRest s := by
  obtain _ | ⟨x, _ | ⟨y, s⟩⟩ := s
  · rw [decodeRest.eq_def]
    rfl
  · rw [decodeRest.eq_def]
    rfl
  · rw [decodeRest, if_neg fun hc => h x y s rfl hc.2]
    rfl

/-- Without control characters below 16, every character is read back. -/
theorem roundTrip_of_wide {s : Bytes} (h : ∀ c ∈ s, ¬c < 16) :
    decodeRest (encodeRest s) = s ∧ Component (encodeRest s) := by
  induction s with
  | nil => exact ⟨by simp [encodeRest, decodeRest], by rw [encodeRest]; exact Component.nil⟩
  | cons c s ih =>
    obtain ⟨hwide, hs⟩ := List.forall_mem_cons.mp h
    obtain ⟨hback, hcomponent⟩ := ih hs
    by_cases hspace : c = byte ' '
    · subst hspace
      rw [encodeRest_space, decodeRest_cons (by decide), hback]
      exact ⟨rfl, Component.char (by decide) hcomponent⟩
    · cases hescaped : isEscaped c with
      | false =>
        obtain ⟨hpercent, hplus, -⟩ := unescaped_plain hescaped
        rw [encodeRest_plain hspace hescaped, decodeRest_cons hpercent, hback, plus, if_neg hplus]
        exact ⟨rfl, Component.char (unescaped_unreserved hspace hescaped) hcomponent⟩
      | true =>
        obtain ⟨hx, hy, hvalue⟩ := digits_wide c
        rw [encodeRest_wide hspace hescaped hwide, decodeRest_escape hx hy, hback, hvalue]
        exact ⟨rfl, Component.escape hx hy hcomponent⟩

/-- What a string weighs; a control character below 16 weighs as much as the escape that comes out for it. -/
def weight (s : Bytes) : Nat := (s.map fun c => if c < 16 then 3 else 1).sum

theorem weight_cons (c : UInt8) (s : Bytes) : weight (c :: s) = (if c < 16 then 3 else 1) + weight s := rfl

theorem weight_le (c : UInt8) : 1 ≤ (if c < 16 then 3 else 1) ∧ (if c < 16 then 3 else 1) ≤ 3 := by
  split <;> decide

/-- A digit that comes out stands in the string. -/
theorem encodeRest_xdigit {x : UInt8} (hx : isxdigit x = true) {s t : Bytes} (h : encodeRest s = x :: t) :
    ∃ s', s = x :: s' ∧ t = encodeRest s' := by
  obtain ⟨-, hpercent, hplus, -⟩ := xdigit_plain hx
  cases s with
  | nil => cases h
  | cons c s =>
    have hno (w : Bytes) : byte '%' :: w ≠ x :: t := fun hw => hpercent (List.cons.inj hw).1.symm
    by_cases hspace : c = byte ' '
    · rw [hspace, encodeRest_space] at h
      exact absurd (List.cons.inj h).1.symm hplus
    · cases hescaped : isEscaped c with
      | false =>
        rw [encodeRest_plain hspace hescaped] at h
        obtain ⟨rfl, rfl⟩ := List.cons.inj h
        exact ⟨s, rfl, rfl⟩
      | true =>
        by_cases hwide : c < 16
        · cases s with
          | nil =>
            rw [encodeRest_control_end hwide] at h
            exact absurd h (hno _)
          | cons d s =>
            rw [encodeRest_control hwide] at h
            exact absurd h (hno _)
        · rw [encodeRest_wide hspace hescaped hwide] at h
          exact absurd h (hno _)

theorem weight_plus (c : UInt8) : (if plus c < 16 then 3 else 1) ≤ (if c < 16 then 3 else 1 : Nat) := by
  rw [plus]
  split
  next h =>
    subst h
    decide
  next => exact Nat.le_refl _

/-- What is read back is no heavier, and it is lighter when there is a control character below 16. -/
theorem weight_roundTrip (s : Bytes) : weight (decodeRest (encodeRest s)) ≤ weight s ∧
    ((∃ c ∈ s, c < 16) → weight (decodeRest (encodeRest s)) < weight s) := by
  induction hn : s.length using Nat.strong_induction_on generalizing s with
  | _ n ih =>
    subst hn
    cases s with
    | nil => simp [encodeRest, decodeRest, weight]
    | cons c s =>
      by_cases hwide : c < 16
      · have hd := digit_control hwide
        obtain ⟨-, hpercent, hplus, -, hd'⟩ := xdigit_plain hd
        have hpct : ¬byte '%' < 16 := by decide
        have hdigit (t : Bytes) : decodeRest (hexDigit c.toNat :: t) = hexDigit c.toNat :: decodeRest t := by
          rw [decodeRest_cons hpercent, plus, if_neg hplus]
        suffices hlt : weight (decodeRest (encodeRest (c :: s))) < weight (c :: s) from
          ⟨Nat.le_of_lt hlt, fun _ => hlt⟩
        cases s with
        | nil =>
          rw [encodeRest_control_end hwide, decodeRest_percent (by simp), hdigit]
          simp [decodeRest, weight, hwide, hd', hpct]
        | cons d s =>
          have hih := (ih s.length (by simp only [List.length_cons]; omega) s rfl).1
          have hwd := weight_le d
          rw [encodeRest_control hwide]
          cases hx : isxdigit d with
          | true =>
            rw [decodeRest_escape hd hx]
            have hbyte := weight_le (fromHexEscape [hexDigit c.toNat, d])
            simp only [weight_cons, hwide, if_true]
            omega
          | false =>
            have hno : decodeRest (byte '%' :: hexDigit c.toNat :: d :: encodeRest s) =
                byte '%' :: hexDigit c.toNat :: decodeRest (d :: encodeRest s) := by
              rw [decodeRest_percent, hdigit]
              rintro x y t h ⟨-, hy⟩
              obtain ⟨rfl, rfl, -⟩ := by simpa using h
              rw [hx] at hy
              cases hy
            rw [hno]
            by_cases hdp : d = byte '%'
            · subst hdp
              by_cases hdigits : ∃ x y t, encodeRest s = x :: y :: t ∧ isxdigit x = true ∧ isxdigit y = true
              · obtain ⟨x, y, t, ht, hx, hy⟩ := hdigits
                obtain ⟨s', rfl, hs'⟩ := encodeRest_xdigit hx ht
                obtain ⟨s'', rfl, rfl⟩ := encodeRest_xdigit hy hs'.symm
                have hih := (ih s''.length (by simp only [List.length_cons]; omega) s'' rfl).1
                have hbyte := weight_le (fromHexEscape [x, y])
                rw [ht, decodeRest_escape hx hy]
                simp only [weight_cons, hwide, hd', (xdigit_plain hx).2.2.2.2, (xdigit_plain hy).2.2.2.2, if_true,
                  if_false]
                omega
              · rw [decodeRest_percent fun x y t ht hxy => hdigits ⟨x, y, t, ht, hxy⟩]
                simp only [weight_cons, hwide, hd', hpct, if_true, if_false]
                omega
            · have hplus' := weight_plus d
              rw [decodeRest_cons hdp]
              simp only [weight_cons, hwide, hd', hpct, if_true, if_false]
              omega
      · obtain ⟨hle, hlt⟩ := ih s.length (by simp) s rfl
        -- a character that is read back as it is
        suffices hback : decodeRest (encodeRest (c :: s)) = c :: decodeRest (encodeRest s) by
          rw [hback, weight_cons, weight_cons]
          refine ⟨Nat.add_le_add_left hle _, ?_⟩
          rintro ⟨b, hb, hlow⟩
          obtain rfl | hb := List.mem_cons.mp hb
          · exact absurd hlow hwide
          · exact Nat.add_lt_add_left (hlt ⟨b, hb, hlow⟩) _
        by_cases hspace : c = byte ' '
        · subst hspace
          rw [encodeRest_space, decodeRest_cons (by decide)]
          rfl
        · cases hescaped : isEscaped c with
          | false =>
            obtain ⟨hpercent, hplus, -⟩ := unescaped_plain hescaped
            rw [encodeRest_plain hspace hescaped, decodeRest_cons hpercent, plus, if_neg hplus]
          | true =>
            obtain ⟨hx, hy, hvalue⟩ := digits_wide c
            rw [encodeRest_wide hspace hescaped hwide, decodeRest_escape hx hy, hvalue]

/-- What is asked of the escapes of a string. -/
structure Encodes (s : Bytes) : Prop where
  roundTrip : ∃ encoded, encodeURI s false = some encoded ∧ encodeURI encoded true = some s
  component : ∃ encoded, encodeURI s false = some encoded ∧ Component encoded

theorem encodeURI_false (s : Bytes) : encodeURI s false = some (encodeRest s) := congrArg some (encodeLoop_eq [] s)

theorem encodeURI_true (s : Bytes) : encodeURI s true = some (decodeRest s) := decodeLoop_eq [] s

/-- No string is read behind its end, and the escapes are right exactly for the strings without control characters
below 16, whose escape has one digit. -/
theorem encodes_iff (s : Bytes) : (encodeURI s true).isSome ∧ (Encodes s ↔ ∀ c ∈ s, ¬c < 16) := by
  refine ⟨?_, fun h c hc hlow => ?_, fun h => ?_⟩
  · rw [encodeURI_true]
    rfl
  · obtain ⟨encoded, hencoded, hback⟩ := h.roundTrip
    rw [encodeURI_false, Option.some_inj] at hencoded
    rw [← hencoded, encodeURI_true, Option.some_inj] at hback
    have hlt := (weight_roundTrip s).2 ⟨c, hc, hlow⟩
    rw [hback] at hlt
    exact Nat.lt_irrefl _ hlt
  · obtain ⟨hback, hcomponent⟩ := roundTrip_of_wide h
    have hdecoded : encodeURI (encodeRest s) true = some s := by rw [encodeURI_true, hback]
    exact ⟨⟨_, encodeURI_false s, hdecoded⟩, ⟨_, encodeURI_false s, hcomponent⟩⟩

/-- The escape of a tab is read with the character behind it. -/
theorem not_encodes : ¬Encodes [9, byte 'A'] := by
  intro h
  obtain ⟨encoded, hencoded, hback⟩ := h.roundTrip
  rw [encodeURI_false, Option.some_inj] at hencoded
  rw [← hencoded, encodeURI_true, Option.some_inj] at hback
  exact absurd hback (by decide)

end Dcpp.Util
