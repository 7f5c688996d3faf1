import Mathlib.Data.List.TakeWhile
import Mathlib.Tactic.Common
import Dcpp.Bytes

-- The conversions of `Util` between numbers and strings.
namespace Dcpp.Util

/-- The path up to its last separator, or all of it. -/
def getFilePath (path : Bytes) : Bytes :=
  if byte '/' ∈ path then (path.reverse.dropWhile (· ≠ byte '/')).reverse else path

def getFileName (path : Bytes) : Bytes := (path.reverse.takeWhile (· ≠ byte '/')).reverse

def digits (n : Nat) : Bytes := (Nat.toDigits 10 n).map byte

/-- `std::to_string`. -/
def toString (val : Int) : Bytes :=
  if val < 0 then byte '-' :: digits val.natAbs else digits val.natAbs

/-- The spaces of `isspace`. -/
def isSpace (c : UInt8) : Bool := c = 0x20 || (0x09 ≤ c && c ≤ 0x0d)

def isDigit (c : UInt8) : Bool := byte '0' ≤ c && c ≤ byte '9'

def ofDigits (s : Bytes) : Nat := s.foldl (fun n c => 10 * n + (c.toNat - '0'.toNat)) 0

def INT64_MIN : Int := -2 ^ 63
def INT64_MAX : Int := 2 ^ 63 - 1

/-- `strtoll` in base 10: beyond the range it returns the limit. -/
def strtoll (s : Bytes) : Int :=
  let clamp (n : Int) : Int := max INT64_MIN (min INT64_MAX n)
  match s.dropWhile isSpace with
  | [] => 0
  | c :: rest =>
    if c = byte '-' then clamp (-(ofDigits (rest.takeWhile isDigit)))
    else if c = byte '+' then clamp (ofDigits (rest.takeWhile isDigit))
    else clamp (ofDigits ((c :: rest).takeWhile isDigit))

def toInt64 (aString : Bytes) : Int := strtoll aString

/-- `atoi`, which is `strtol` cut to an `int`. -/
def toInt (aString : Bytes) : Int := (strtoll aString).bmod (2 ^ 32)

def toUInt32 (str : Bytes) : Nat := (toInt str % 2 ^ 32).toNat

def toAdcFile (file : Bytes) : Bytes :=
  if file = str "files.xml.bz2" ∨ file = str "files.xml" then file
  else (byte '/' :: file).map fun c => if c = byte '\\' then byte '/' else c

def toNmdcFile (file : Bytes) : Bytes :=
  if file = [] then [] else (file.drop 1).map fun c => if c = byte '/' then byte '\\' else c

theorem byte_toNat {c : Char} (h : c.toNat < 256) : (byte c).toNat = c.toNat := by
  rw [byte, Char.toUInt8]
  exact UInt8.toNat_ofNat_of_lt h

theorem toNat_of_isDigit {c : Char} (h : c.isDigit = true) : 48 ≤ c.toNat ∧ c.toNat ≤ 57 := by
  simp [Char.isDigit, UInt32.le_iff_toNat_le] at h
  exact h

theorem isDigit_byte {c : Char} (h : c.isDigit = true) : isDigit (byte c) = true := by
  obtain ⟨hle, hle'⟩ := toNat_of_isDigit h
  have hc := byte_toNat (c := c) (by omega)
  simp [isDigit, UInt8.le_iff_toNat_le, hc]
  exact ⟨hle, hle'⟩

theorem digits_isDigit (n : Nat) : ∀ c ∈ digits n, isDigit c = true := by
  intro c hc
  obtain ⟨d, hd, rfl⟩ := List.mem_map.mp hc
  exact isDigit_byte (Nat.isDigit_of_mem_toDigits (by decide) (by decide) hd)

theorem ofDigits_digits (n : Nat) : ofDigits (digits n) = n := by
  have h : ∀ (l : List Char) (m : Nat), (∀ c ∈ l, c.isDigit = true) →
      (l.map byte).foldl (fun n c => 10 * n + (c.toNat - '0'.toNat)) m = Nat.ofDigitChars 10 l m := by
    intro l
    induction l with
    | nil => exact fun m _ => rfl
    | cons c l ih =>
      intro m hl
      have hc := byte_toNat (c := c) (by
        have := (toNat_of_isDigit (hl c List.mem_cons_self)).2
        omega)
      rw [List.map_cons, List.foldl_cons, Nat.ofDigitChars_cons, hc]
      exact ih _ fun c hc => hl c (List.mem_cons_of_mem _ hc)
  rw [ofDigits, digits, h _ _ fun c hc => Nat.isDigit_of_mem_toDigits (by decide) (by decide) hc,
    Nat.ofDigitChars_ten_toDigits]

theorem digits_ne_nil (n : Nat) : digits n ≠ [] := by
  rw [digits, ne_eq, List.map_eq_nil_iff]
  exact Nat.toDigits_ne_nil

theorem takeWhile_digits (n : Nat) : (digits n).takeWhile isDigit = digits n :=
  List.takeWhile_eq_self_iff.mpr (digits_isDigit n)

/-- A digit is neither space nor a sign. -/
theorem digit_ne {c : UInt8} (h : isDigit c = true) : isSpace c = false ∧ c ≠ byte '-' ∧ c ≠ byte '+' := by
  have hle : 48 ≤ c.toNat ∧ c.toNat ≤ 57 := by
    rw [isDigit, Bool.and_eq_true, decide_eq_true_iff, decide_eq_true_iff] at h
    exact h
  refine ⟨?_, ?_, ?_⟩
  · rw [isSpace, Bool.or_eq_false_iff, decide_eq_false_iff_not, Bool.and_eq_false_iff, decide_eq_false_iff_not,
      decide_eq_false_iff_not, UInt8.le_iff_toNat_le, UInt8.le_iff_toNat_le]
    refine ⟨fun hc => ?_, Or.inr fun hc => ?_⟩
    · subst hc
      exact absurd hle.1 (by decide)
    · have hc : c.toNat ≤ 13 := hc
      omega
  · rintro rfl
    exact absurd hle.1 (by decide)
  · rintro rfl
    exact absurd hle.1 (by decide)

/-- Every number in the range is read back as it was written. -/
theorem toInt64_toString {val : Int} (hmin : INT64_MIN ≤ val) (hmax : val ≤ INT64_MAX) : toInt64 (toString val) = val := by
  have hzero : INT64_MIN ≤ 0 ∧ 0 ≤ INT64_MAX := by decide
  rw [toInt64, strtoll, toString]
  by_cases hneg : val < 0
  · rw [if_pos hneg, List.dropWhile_cons_of_neg (by decide)]
    dsimp only
    rw [if_pos rfl, takeWhile_digits, ofDigits_digits]
    omega
  · rw [if_neg hneg]
    cases hd : digits val.natAbs with
    | nil => exact absurd hd (digits_ne_nil _)
    | cons c rest =>
      have hc : isDigit c = true := digits_isDigit val.natAbs c (by rw [hd]; exact List.mem_cons_self)
      obtain ⟨hspace, hminus, hplus⟩ := digit_ne hc
      rw [List.dropWhile_cons_of_neg (by rw [hspace]; exact Bool.false_ne_true)]
      dsimp only
      rw [if_neg hminus, if_neg hplus, ← hd, takeWhile_digits, ofDigits_digits]
      omega

theorem toInt_toString {val : Int} (hmin : -2 ^ 31 ≤ val) (hmax : val < 2 ^ 31) : toInt (toString val) = val := by
  have hint : toInt64 (toString val) = val :=
    toInt64_toString (by rw [INT64_MIN]; omega) (by rw [INT64_MAX]; omega)
  rw [toInt64] at hint
  rw [toInt, hint, Int.bmod_eq_of_le] <;> omega

theorem toUInt32_toString {val : Nat} (h : val < 2 ^ 32) : toUInt32 (toString val) = val := by
  have hint : toInt64 (toString val) = val :=
    toInt64_toString (by rw [INT64_MIN]; omega) (by rw [INT64_MAX]; omega)
  rw [toInt64] at hint
  have hcut : (val : Int).bmod (2 ^ 32) % 2 ^ 32 = val % 2 ^ 32 := Int.bmod_emod
  rw [toUInt32, toInt, hint, hcut]
  omega

theorem toString_ne_nil (val : Int) : toString val ≠ [] := by
  rw [toString]
  split
  next => exact List.cons_ne_nil _ _
  next => exact digits_ne_nil _

/-- A number is written in digits, with a sign at most. -/
theorem not_mem_toString {c : UInt8} (hc : isDigit c = false) (hsign : c ≠ byte '-') (val : Int) :
    c ∉ toString val := by
  have hdigits : c ∉ digits val.natAbs := fun h => by
    rw [digits_isDigit val.natAbs c h] at hc
    cases hc
  rw [toString]
  split
  next => exact fun h => (List.mem_cons.mp h).elim hsign hdigits
  next => exact hdigits

end Dcpp.Util
