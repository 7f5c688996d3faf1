import Mathlib.Algebra.GroupWithZero.Nat
import Dcpp.NoCaseString

-- What the comparisons read of strings that end in NUL.
namespace Dcpp.Util

open Text

/-- `Text::continuation`, without a result when it reads behind the end. -/
def continuationIn (wcharBits : Nat) (c : Nat) (i : Nat) : Nat → Bytes → Option (Int × Nat)
  | 0, _ => some (i, c)
  | _ + 1, [] => none
  | left + 1, ci :: str =>
    if ci.toNat &&& 0xc0 ≠ 0x80 then some (-(i : Int), c)
    else continuationIn wcharBits (((c <<< 6) ||| (ci.toNat &&& 0x3f)) % 2 ^ wcharBits) (i + 1) left str

/-- `Text::utf8ToWc`, without a result when it reads behind the end. -/
def utf8ToWcIn (wcharBits : Nat) : Bytes → Option (Int × Nat)
  | [] => none
  | c :: str =>
    let c₀ := c.toNat
    let bytes := 2 + (if c₀ &&& 0x20 ≠ 0 then 1 else 0) + if c₀ &&& 0x30 = 0x30 then 1 else 0
    if c₀ &&& 0xc0 = 0xc0 then
      let checkBit := 1 <<< (7 - bytes)
      if c₀ &&& checkBit ≠ 0 then some (-1, 0)
      else
        (continuationIn wcharBits ((checkBit - 1) &&& c₀) 1 (bytes - 1) str).map fun r =>
          if r.1 < 0 then r
          else if r.2 > 0x10ffff ∨ (r.2 ≥ 0xd800 ∧ r.2 ≤ 0xdfff) then (-(bytes : Int), 0xfffd)
          else (bytes, r.2)
    else if c₀ &&& 0x80 = 0 then some (1, c₀)
    else some (-1, 0)

variable (l : Locale)

theorem continuationIn_eq {wcharBits c i left : Nat} {str : Bytes} {r : Int × Nat}
    (h : continuationIn wcharBits c i left str = some r) : continuation wcharBits c i left str = r := by
  induction left generalizing c i str with
  | zero => simpa [continuationIn, continuation] using h
  | succ left ih =>
    cases str with
    | nil => cases h
    | cons ci str =>
      rw [continuationIn] at h
      rw [continuation]
      split at h
      next hlead => exact (if_pos hlead).trans (Option.some.inj h)
      next hlead => exact (if_neg hlead).trans (ih h)

/-- Nothing is read behind a NUL. -/
theorem continuationIn_nul (wcharBits c i left : Nat) (str : Bytes) :
    continuationIn wcharBits c i left (str ++ [0]) = some (continuation wcharBits c i left str) := by
  induction left generalizing c i str with
  | zero => simp [continuationIn, continuation]
  | succ left ih =>
    cases str with
    | nil => simp [continuationIn, continuation]
    | cons ci str =>
      rw [List.cons_append, continuationIn, continuation]
      split
      next hlead => exact congrArg some (if_pos hlead).symm
      next hlead => exact (ih _ _ _).trans (congrArg some (if_neg hlead).symm)

theorem utf8ToWcIn_cons (wcharBits : Nat) (c : UInt8) (str : Bytes) : utf8ToWcIn wcharBits (c :: str) =
    if c.toNat &&& 0xc0 = 0xc0 then
      if c.toNat &&& 1 <<< (7 - announced c.toNat) ≠ 0 then some (-1, 0)
      else (continuationIn wcharBits ((1 <<< (7 - announced c.toNat) - 1) &&& c.toNat) 1 (announced c.toNat - 1) str).map
        (finish (announced c.toNat))
    else if c.toNat &&& 0x80 = 0 then some (1, c.toNat)
    else some (-1, 0) := rfl

theorem utf8ToWcIn_eq {wcharBits : Nat} {str : Bytes} {r : Int × Nat} (h : utf8ToWcIn wcharBits str = some r) :
    utf8ToWc wcharBits str = r := by
  cases str with
  | nil => cases h
  | cons c str =>
    rw [utf8ToWcIn_cons] at h
    rw [utf8ToWc]
    by_cases hlead : c.toNat &&& 0xc0 = 0xc0
    · rw [if_pos hlead] at h
      by_cases hbit : c.toNat &&& 1 <<< (7 - announced c.toNat) ≠ 0
      · rw [if_pos hbit] at h
        exact (if_pos hlead).trans ((if_pos hbit).trans (Option.some.inj h))
      · rw [if_neg hbit] at h
        obtain ⟨x, hx, rfl⟩ := Option.map_eq_some_iff.mp h
        refine (if_pos hlead).trans ((if_neg hbit).trans ?_)
        exact congrArg (finish (announced c.toNat)) (continuationIn_eq hx)
    · rw [if_neg hlead] at h
      by_cases hlow : c.toNat &&& 0x80 = 0
      · rw [if_pos hlow] at h
        exact (if_neg hlead).trans ((if_pos hlow).trans (Option.some.inj h))
      · rw [if_neg hlow] at h
        exact (if_neg hlead).trans ((if_neg hlow).trans (Option.some.inj h))

theorem utf8ToWcIn_nul (wcharBits : Nat) (str : Bytes) :
    utf8ToWcIn wcharBits (str ++ [0]) = some (utf8ToWc wcharBits str) := by
  have hsome : (utf8ToWcIn wcharBits (str ++ [0])).isSome = true := by
    cases str with
    | nil => rfl
    | cons c str =>
      rw [List.cons_append, utf8ToWcIn_cons, continuationIn_nul]
      split_ifs <;> rfl
  obtain ⟨r, hr⟩ := Option.isSome_iff_exists.mp hsome
  rw [hr, ← utf8ToWcIn_eq hr, utf8ToWc_nul]

/-- The loop of `stricmp` and `strnicmp`, from a place in both strings on, without a result when it reads behind the
NUL of one of them. Only `strnicmp` has an end, which is `left` bytes away. -/
def compareLoop (left : Option Nat) (a b : Bytes) : Option Int :=
  match _h : utf8ToWcIn l.wcharBits a, utf8ToWcIn l.wcharBits b with
  | some (na, ca), some (nb, cb) =>
    if a.headD 0 = 0 ∨ left = some 0 then
      some (if left = some 0 then 0 else (l.toLower ca : Int) - l.toLower cb)
    else if l.toLower ca ≠ l.toLower cb then some ((l.toLower ca : Int) - l.toLower cb)
    else compareLoop (left.map (· - na.natAbs)) (a.drop na.natAbs) (b.drop nb.natAbs)
  | _, _ => none
termination_by a.length
decreasing_by
  have ha : a ≠ [] := by
    rintro rfl
    cases _h
  have hlen := length_drop_utf8ToWc l.wcharBits ha
  rwa [utf8ToWcIn_eq _h] at hlen

/-- A string that ends in NUL. -/
structure CString where
  bytes : Bytes
  noNul : 0 ∉ bytes

/-- The memory that may be read. -/
def CString.memory (s : CString) : Bytes := s.bytes ++ [0]

def stricmpIn (a b : CString) : Option Int := compareLoop l none a.memory b.memory

def strnicmpIn (a b : CString) (n : Nat) : Option Int := compareLoop l (some n) a.memory b.memory

theorem compareLoop_nil (left : Option Nat) (a : Bytes) : compareLoop l left a [] = none := by
  rw [compareLoop]
  cases utf8ToWcIn l.wcharBits a <;> rfl

/-- One step, from two places that are not behind the ends. -/
theorem compareLoop_nul (left : Option Nat) (a b : Bytes) : compareLoop l left (a ++ [0]) (b ++ [0]) =
    if a.headD 0 = 0 ∨ left = some 0 then
      some (if left = some 0 then 0
        else (l.toLower (utf8ToWc l.wcharBits a).2 : Int) - l.toLower (utf8ToWc l.wcharBits b).2)
    else if l.toLower (utf8ToWc l.wcharBits a).2 ≠ l.toLower (utf8ToWc l.wcharBits b).2 then
      some ((l.toLower (utf8ToWc l.wcharBits a).2 : Int) - l.toLower (utf8ToWc l.wcharBits b).2)
    else compareLoop l (left.map (· - (utf8ToWc l.wcharBits a).1.natAbs))
      ((a ++ [0]).drop (utf8ToWc l.wcharBits a).1.natAbs) ((b ++ [0]).drop (utf8ToWc l.wcharBits b).1.natAbs) := by
  have hhead : (a ++ [0]).headD 0 = a.headD 0 := by cases a <;> rfl
  rw [compareLoop, utf8ToWcIn_nul, utf8ToWcIn_nul, hhead]

/-- The bytes of the first `n` characters. -/
def offset (s : Bytes) (n : Nat) : Nat := (((characters l s).take n).map fun x => x.1.natAbs).sum

/-- Both strings have the same codes in lower case until the second one ends, and the first one goes on with a character
whose code is zero. -/
def Overrun (a b : CString) : Prop := fold l b.bytes ++ [0] <+: fold l a.bytes

/-- The comparison with an end reads behind the NUL in the same case, if it comes to that character. -/
def OverrunBefore (n : Nat) (a b : CString) : Prop :=
  Overrun l a b ∧ offset l a.bytes (fold l b.bytes).length < n

theorem fold_nil : fold l [] = [] := by
  rw [fold, characters_nil]
  rfl

theorem fold_of_ne {s : Bytes} (hs : s ≠ []) : fold l s =
    l.toLower (utf8ToWc l.wcharBits s).2 :: fold l (s.drop (utf8ToWc l.wcharBits s).1.natAbs) := by
  rw [fold, characters_of_ne l hs]
  rfl

theorem offset_zero (s : Bytes) : offset l s 0 = 0 := by
  simp [offset]

theorem offset_succ {s : Bytes} (hs : s ≠ []) (n : Nat) : offset l s (n + 1) =
    (utf8ToWc l.wcharBits s).1.natAbs + offset l (s.drop (utf8ToWc l.wcharBits s).1.natAbs) n := by
  rw [offset, characters_of_ne l hs]
  simp [offset]

/-- When the loop has a result. -/
theorem compareLoop_isSome_iff (left : Option Nat) {a b : Bytes} (ha : 0 ∉ a) :
    (compareLoop l left (a ++ [0]) (b ++ [0])).isSome ↔
      ¬(fold l b ++ [0] <+: fold l a ∧ ∀ n ∈ left, offset l a (fold l b).length < n) := by
  induction hn : a.length using Nat.strong_induction_on generalizing left a b with
  | _ n ih =>
    subst hn
    rw [compareLoop_nul]
    by_cases hae : a = []
    · subst hae
      simp [fold_nil]
    · have hhead : a.headD 0 ≠ 0 := by
        obtain ⟨c, a, rfl⟩ := List.exists_cons_of_ne_nil hae
        exact fun h => ha (h ▸ List.mem_cons_self)
      by_cases hleft : left = some 0
      · subst hleft
        simp
      · rw [if_neg (not_or_intro hhead hleft)]
        have hla := fold_of_ne l hae
        by_cases hcode : l.toLower (utf8ToWc l.wcharBits a).2 = l.toLower (utf8ToWc l.wcharBits b).2
        · rw [if_neg (not_not_intro hcode)]
          by_cases hbe : b = []
          · -- the second string is at its NUL, and the loop goes behind it
            subst hbe
            have hzero : l.toLower (utf8ToWc l.wcharBits a).2 = 0 := by
              rw [hcode, utf8ToWc_zero l (s := []) rfl, toLower_nul]
            have hnone : ([] ++ [0] : Bytes).drop (utf8ToWc l.wcharBits []).1.natAbs = [] := by
              rw [utf8ToWc_zero l (s := []) rfl]
              rfl
            rw [hnone, compareLoop_nil, hla, hzero, fold_nil, List.length_nil, offset_zero]
            simpa using hleft
          · have hlb := fold_of_ne l hbe
            have ha' : 0 ∉ a.drop (utf8ToWc l.wcharBits a).1.natAbs := fun h => ha (List.mem_of_mem_drop h)
            rw [drop_nul l hae, drop_nul l hbe, ih _ (length_drop_utf8ToWc l.wcharBits hae) _ ha' rfl, hla, hlb,
              List.length_cons, offset_succ l hae, hcode, List.cons_append, List.cons_prefix_cons]
            simp only [true_and]
            apply not_congr
            apply and_congr_right
            intro _
            cases left with
            | none => simp
            | some n =>
              simp only [Option.map_some, Option.mem_def, Option.some.injEq, forall_eq']
              omega
        · rw [if_pos hcode]
          refine iff_of_true rfl ?_
          rintro ⟨hpre, -⟩
          rw [hla] at hpre
          by_cases hbe : b = []
          · subst hbe
            rw [fold_nil, List.nil_append, List.cons_prefix_cons] at hpre
            rw [utf8ToWc_zero l (s := []) rfl, toLower_nul] at hcode
            exact hcode hpre.1.symm
          · rw [fold_of_ne l hbe, List.cons_append, List.cons_prefix_cons] at hpre
            exact hcode hpre.1.symm

/-- The comparison of the containers is this one. -/
theorem stricmpIn_eq (a b : CString) : stricmpIn l a b = stricmp l a.bytes b.bytes := by
  rw [stricmpIn, stricmp, CString.memory, CString.memory]
  generalize a.bytes = s
  generalize b.bytes = t
  induction hn : s.length using Nat.strong_induction_on generalizing s t with
  | _ n ih =>
    subst hn
    have hnone : (none : Option Nat) ≠ some 0 := fun h => (by cases h)
    rw [compareLoop_nul, stricmpLoop_nul]
    simp only [hnone, or_false, if_false]
    by_cases hhead : s.headD 0 = 0
    · rw [if_pos hhead, if_neg fun h => h.1 hhead]
    · have hs : s ≠ [] := fun h => hhead (by rw [h]; rfl)
      rw [if_neg hhead]
      by_cases hcode : l.toLower (utf8ToWc l.wcharBits s).2 = l.toLower (utf8ToWc l.wcharBits t).2
      · rw [if_neg (not_not_intro hcode), if_pos ⟨hhead, hcode⟩, Option.map_none]
        by_cases ht : t = []
        · have hend : ([] ++ [0] : Bytes).drop (utf8ToWc l.wcharBits []).1.natAbs = [] := by
            rw [utf8ToWc_zero l (s := []) rfl]
            rfl
          rw [ht, hend, compareLoop_nil, stricmpLoop, dif_pos (Or.inr rfl)]
        · rw [drop_nul l hs, drop_nul l ht]
          exact ih _ (length_drop_utf8ToWc l.wcharBits hs) _ _ rfl
      · rw [if_pos hcode, if_neg fun h => hcode h.2]

/-- Exactly when one of the strings is overrun, there is something read behind its NUL. -/
theorem compare_inside_iff (a b : CString) : ((stricmpIn l a b).isSome ↔ ¬Overrun l a b) ∧
    ∀ n, (strnicmpIn l a b n).isSome ↔ ¬OverrunBefore l n a b := by
  constructor
  · rw [stricmpIn, CString.memory, CString.memory, compareLoop_isSome_iff l none a.noNul]
    simp [Overrun]
  · intro n
    rw [strnicmpIn, CString.memory, CString.memory, compareLoop_isSome_iff l (some n) a.noNul]
    simp [OverrunBefore, Overrun]

/-- A stray continuation byte beside the empty string. -/
theorem not_compare_inside : ¬∀ a b : CString, (stricmpIn ascii a b).isSome ∧ ∀ n, (strnicmpIn ascii a b n).isSome := by
  intro h
  have hinside := (h ⟨[0x80], by decide⟩ ⟨[], by decide⟩).1
  have hdecoded : utf8ToWc ascii.wcharBits [0x80] = (-1, 0) := by decide
  have hfold : fold ascii [0x80] = [0] := by
    rw [fold_of_ne ascii (by simp), hdecoded]
    simp [fold_nil, toLower_nul]
  rw [stricmpIn, CString.memory, CString.memory, compareLoop_isSome_iff ascii none (by decide), hfold, fold_nil] at hinside
  simp at hinside

end Dcpp.Util
