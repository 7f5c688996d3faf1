import Mathlib.Data.List.Infix
import Mathlib.Data.List.TakeWhile
import Mathlib.Tactic.Common
import Dcpp.Bytes

namespace Dcpp

/-- A pattern, which is in lower case. -/
structure StringSearch where
  pattern : Bytes
deriving DecidableEq

namespace StringSearch

/-- `toLower` is that of `Text`. -/
def new (toLower : Bytes → Bytes) (aPattern : Bytes) : StringSearch := ⟨toLower aPattern⟩

/-- The shift for a byte, in 16 bits: from its last place in the pattern to the end. -/
def delta1 (pattern : Bytes) (c : UInt8) : Nat :=
  let x := pattern.length % 2 ^ 16
  match (List.range x).reverse.find? fun i => pattern[i]? = some c with
  | none => (pattern.length + 1) % 2 ^ 16
  | some i => x - i

/-- The loop of `match`, from the place `tx` of the text. A NUL follows the text and is the end of the
pattern. -/
def matchLoop (pattern lower : Bytes) : Nat → Nat → Nat → Bool
  | 0, _, _ => false
  | fuel + 1, tx, last =>
    if tx < last then
      if (pattern.takeWhile (· ≠ 0)).isPrefixOf (lower.drop tx) then true
      else matchLoop pattern lower fuel (tx + delta1 pattern (lower.getD (tx + pattern.length) 0)) last
    else false

def «match» (toLower : Bytes → Bytes) (s : StringSearch) (aText : Bytes) : Bool :=
  if aText.length < s.pattern.length then false
  else matchLoop s.pattern (toLower aText) (aText.length + 1) 0 (aText.length - s.pattern.length + 1)

theorem infix_of_matchLoop {pattern lower : Bytes} (hp : 0 ∉ pattern) {fuel tx last : Nat}
    (h : matchLoop pattern lower fuel tx last = true) : pattern <:+: lower := by
  have hcut : pattern.takeWhile (· ≠ 0) = pattern :=
    List.takeWhile_eq_self_iff.mpr fun c hc => decide_eq_true fun h0 => hp (h0 ▸ hc)
  induction fuel generalizing tx with
  | zero => cases h
  | succ fuel ih =>
    rw [matchLoop] at h
    split at h
    next =>
      split at h
      next hpre =>
        rw [hcut, List.isPrefixOf_iff_prefix] at hpre
        exact hpre.isInfix.trans (List.drop_suffix tx lower).isInfix
      next => exact ih h
    next => cases h

/-- A pattern that matches is a part of the text in lower case. -/
theorem infix_of_match {toLower : Bytes → Bytes} {s : StringSearch} {aText : Bytes} (hp : 0 ∉ s.pattern)
    (h : s.match toLower aText = true) : s.pattern <:+: toLower aText := by
  rw [StringSearch.match] at h
  split at h
  next => cases h
  next => exact infix_of_matchLoop hp h

end StringSearch

end Dcpp
