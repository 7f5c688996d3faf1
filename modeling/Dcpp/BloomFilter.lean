import Mathlib.Data.List.Infix
import Mathlib.Tactic.Common
import Dcpp.Bytes

namespace Dcpp

/-- The positions of the table that are set. -/
structure BloomFilter where
  tableSize : Nat
  table : List Nat
deriving DecidableEq

namespace BloomFilter

/-- A `char` as an operand of unsigned arithmetic. -/
def charToUInt32 (c : UInt8) : UInt32 := if c < 128 then c.toUInt32 else c.toUInt32 - 256

/-- `getPos`, of the bytes from the position on. -/
def getPos (b : BloomFilter) (s : Bytes) : Nat :=
  let h : UInt64 := s.foldl (fun h c => h ^^^ ((charToUInt32 c + 0x9e3779b9).toUInt64 + (h <<< 6) + (h >>> 2))) 0
  h.toNat % b.tableSize

/-- The strings of `n` bytes in a string. -/
def grams (n : Nat) (s : Bytes) : List Bytes :=
  if n ≤ s.length then (List.range (s.length - n + 1)).map fun i => (s.drop i).take n else []

def add (n : Nat) (b : BloomFilter) (s : Bytes) : BloomFilter :=
  { b with table := (grams n s).map b.getPos ++ b.table }

def «match» (n : Nat) (b : BloomFilter) (s : Bytes) : Bool := (grams n s).all fun g => b.table.contains (b.getPos g)

def clear (b : BloomFilter) : BloomFilter := { b with table := [] }

variable {n : Nat} {b : BloomFilter} {s p : Bytes}

theorem match_iff : b.match n s = true ↔ ∀ g ∈ grams n s, b.getPos g ∈ b.table := by
  rw [BloomFilter.match, List.all_eq_true]
  exact forall₂_congr fun g _ => List.contains_iff_mem

/-- What was added matches. -/
theorem add_match (n : Nat) (b : BloomFilter) (s : Bytes) : (b.add n s).match n s = true :=
  match_iff.mpr fun _ hg => List.mem_append_left _ (List.mem_map_of_mem (f := b.getPos) hg)

/-- What matched before something was added still does. -/
theorem match_add (h : b.match n p = true) (s : Bytes) : (b.add n s).match n p = true :=
  match_iff.mpr fun g hg => List.mem_append_right _ (match_iff.mp h g hg)

/-- What is a part of another string has no other parts than that. -/
theorem grams_infix (h : p <:+: s) {g : Bytes} (hg : g ∈ grams n p) : g ∈ grams n s := by
  obtain ⟨l, r, rfl⟩ := h
  rw [grams] at hg ⊢
  split at hg
  next hle =>
    obtain ⟨i, hi, rfl⟩ := List.mem_map.mp hg
    rw [List.mem_range] at hi
    have hlen : (l ++ p ++ r).length = l.length + p.length + r.length := by
      rw [List.length_append, List.length_append]
    rw [if_pos (by omega)]
    refine List.mem_map.mpr ⟨l.length + i, List.mem_range.mpr (by omega), ?_⟩
    rw [List.append_assoc, ← List.drop_drop, List.drop_left, List.drop_append_of_le_length (by omega),
      List.take_append_of_le_length (by rw [List.length_drop]; omega)]
  next => cases hg

theorem match_infix (hp : p <:+: s) (h : b.match n s = true) : b.match n p = true :=
  match_iff.mpr fun _ hg => match_iff.mp h _ <| grams_infix hp hg

end BloomFilter

end Dcpp
