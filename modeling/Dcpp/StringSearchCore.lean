import Mathlib.Data.List.Find
import Mathlib.Logic.Function.Basic
import Dcpp.StringSearchMatch

-- The search in a text with a length of its own, by the table that is filled once for a pattern.
namespace Dcpp.StringSearch

open QuickSearch

/-- The table of shifts: a byte of the pattern overwrites what an earlier place of it has left. -/
def initDelta1 (pattern : Bytes) : UInt8 → UInt16 :=
  let x := UInt16.ofNat (pattern.length + 1)
  let x' := x - 1
  (List.range x'.toNat).foldl (fun delta1 i => Function.update delta1 (pattern.getD i 0) (x' - UInt16.ofNat i))
    fun _ => x

/-- The loop of `match` with a table. It has no result when it reads behind the NUL of the text, or the rounds do not
suffice. -/
def tableLoop (delta1 : UInt8 → UInt16) (pattern lower : Bytes) : Nat → Nat → Nat → Option Bool
  | 0, _, _ => none
  | rounds + 1, tx, last =>
    if tx < last then do
      if ← compareIn pattern ((lower ++ [0]).drop tx) then some true
      else tableLoop delta1 pattern lower rounds (tx + (delta1 (← (lower ++ [0])[tx + pattern.length]?)).toNat) last
    else some false

/-- `match` for a text that is in lower case, with the length of that. -/
def search (pattern lower : Bytes) (rounds : Nat) : Option Bool :=
  if lower.length < pattern.length then some false
  else tableLoop (initDelta1 pattern) pattern lower rounds 0 (lower.length - pattern.length + 1)

section Table

variable {β : Type*}

/-- What updates in turn leave at a place is what the last of them has put there. -/
theorem foldl_update (key : Nat → UInt8) (value : Nat → β) (d : β) (n : Nat) (c : UInt8) :
    (List.range n).foldl (fun t i => Function.update t (key i) (value i)) (fun _ => d) c =
      (((List.range n).reverse.find? fun i => key i = c).map value).getD d := by
  induction n with
  | zero => rfl
  | succ n ih =>
    rw [List.range_succ, List.foldl_append, List.foldl_cons, List.foldl_nil, List.reverse_append,
      List.reverse_singleton, List.singleton_append, List.find?_cons]
    by_cases hc : key n = c
    · rw [hc, Function.update_self, decide_eq_true rfl]
      rfl
    · rw [Function.update_of_ne (Ne.symm hc), decide_eq_false hc]
      exact ih

end Table

/-- The table has the shift for every byte. -/
theorem initDelta1_toNat (pattern : Bytes) (c : UInt8) : (initDelta1 pattern c).toNat = delta1 pattern c := by
  have hone : UInt16.ofNat (pattern.length + 1) - 1 = UInt16.ofNat pattern.length := by
    rw [UInt16.ofNat_add]
    exact UInt16.add_sub_cancel _ _
  have hx : (UInt16.ofNat pattern.length).toNat = pattern.length % 2 ^ 16 := UInt16.toNat_ofNat'
  have hfind : ((List.range (pattern.length % 2 ^ 16)).reverse.find? fun i => pattern.getD i 0 = c) =
      (List.range (pattern.length % 2 ^ 16)).reverse.find? fun i => pattern[i]? = some c := by
    refine List.find?_congr fun i hi => ?_
    have hlt : i < pattern.length := by
      have hmod := Nat.mod_le pattern.length (2 ^ 16)
      have hlt := List.mem_range.mp (List.mem_reverse.mp hi)
      omega
    rw [List.getD_eq_getElem?_getD, List.getElem?_eq_getElem hlt, Option.getD_some]
    simp only [Option.some_inj]
  rw [initDelta1, hone, hx, foldl_update, hfind, delta1]
  cases hi : (List.range (pattern.length % 2 ^ 16)).reverse.find? fun i => pattern[i]? = some c with
  | none => exact UInt16.toNat_ofNat'
  | some i =>
    have hlt := (find?_range_reverse hi).1
    have hi16 : (UInt16.ofNat i).toNat = i := UInt16.toNat_ofNat_of_lt' (by rw [UInt16.size]; omega)
    have hle : UInt16.ofNat i ≤ UInt16.ofNat pattern.length := UInt16.le_iff_toNat_le.mpr (by rw [hi16, hx]; omega)
    rw [Option.map_some, Option.getD_some, UInt16.toNat_sub_of_le _ _ hle, hx, hi16]

theorem tableLoop_eq (pattern lower : Bytes) (rounds tx last : Nat) :
    tableLoop (initDelta1 pattern) pattern lower rounds tx last = matchLoopIn pattern lower rounds tx last := by
  induction rounds generalizing tx with
  | zero => rfl
  | succ rounds ih =>
    rw [tableLoop, matchLoopIn]
    simp only [initDelta1_toNat, ih]

variable {pattern lower : Bytes}

/-- From a place in front of which the pattern does not start, a round for every place that is left suffices, and no
byte behind the NUL is read. -/
theorem matchLoopIn_right (h : Plain pattern) (hlen : pattern.length ≤ lower.length) {rounds tx : Nat}
    (hbefore : ∀ t < tx, ¬pattern <+: lower.drop t) (hrounds : lower.length - pattern.length + 1 - tx < rounds) :
    matchLoopIn pattern lower rounds tx (lower.length - pattern.length + 1) = some (decide (pattern <:+: lower)) := by
  induction rounds generalizing tx with
  | zero => exact absurd hrounds (Nat.not_lt_zero _)
  | succ rounds ih =>
    have hcut := cut_of_plain h.nul
    by_cases hlast : tx < lower.length - pattern.length + 1
    · by_cases hit : pattern <+: lower.drop tx
      · have hin : pattern <:+: lower := hit.isInfix.trans (List.drop_suffix tx lower).isInfix
        rw [matchLoopIn_hit hlast (by rwa [hcut]), decide_eq_true hin]
      · rw [matchLoopIn_next hlast (by rwa [hcut]) (by omega)]
        have hpos := (shift_safe h).pos lower[tx + pattern.length]?
        refine ih (fun t ht hstarts => ?_) (by omega)
        -- the shift has passed by no place at which the pattern starts
        obtain hlt | heq | hgt := Nat.lt_trichotomy t tx
        · exact hbefore t hlt hstarts
        · exact hit (heq ▸ hstarts)
        · have hle := (shift_safe h).le_of_starts hstarts hgt
          omega
    · have hno : ¬pattern <:+: lower := by
        rintro ⟨u, v, huv⟩
        have hlength := congrArg List.length huv
        simp only [List.length_append] at hlength
        refine hbefore u.length (by omega) ⟨v, ?_⟩
        rw [← huv, List.append_assoc, List.drop_left]
      rw [matchLoopIn_stop hlast, decide_eq_false hno]

/-- For a pattern without NUL that is shorter than 65535 bytes the search ends within as many rounds as the text has
bytes and two more, it reads no byte behind the NUL of the text, and it tells whether the pattern is in the text; the
empty one always is. -/
theorem search_right (hnul : 0 ∉ pattern) (hshort : pattern.length < 65535) (lower : Bytes) {rounds : Nat}
    (hrounds : lower.length + 2 ≤ rounds) :
    search pattern lower rounds = some (decide (pattern <:+: lower)) ∧
      (pattern = [] → search pattern lower rounds = some true) := by
  have hright : search pattern lower rounds = some (decide (pattern <:+: lower)) := by
    rw [search]
    split_ifs with hlen
    · have hno : ¬pattern <:+: lower := fun h => Nat.not_le.mpr hlen h.length_le
      rw [decide_eq_false hno]
    · rw [tableLoop_eq]
      exact matchLoopIn_right ⟨hnul, by omega⟩ (Nat.le_of_not_lt hlen) (fun t ht => absurd ht (Nat.not_lt_zero t))
        (by omega)
  refine ⟨hright, fun hempty => ?_⟩
  rw [hright, decide_eq_true (hempty ▸ List.nil_infix)]

/-- A pattern with a repeated byte, at the end of the text. -/
theorem search_right_repeated : search [97, 98, 97] [98, 97, 98, 98, 97, 98, 97] 9 =
      some (decide ([97, 98, 97] <:+: ([98, 97, 98, 98, 97, 98, 97] : Bytes))) ∧
    (([97, 98, 97] : Bytes) = [] → search [97, 98, 97] [98, 97, 98, 98, 97, 98, 97] 9 = some true) :=
  search_right (by decide) (by decide) _ (by decide)

end Dcpp.StringSearch
