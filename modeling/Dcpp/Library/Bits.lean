import Mathlib.Data.Nat.Bitwise
import Mathlib.Tactic.Common

-- Bytes as bits, the lowest one of a byte first.
namespace Dcpp.Bits

/-- The bit at a place; beyond the end there are zeros. -/
def bitAt (v : List UInt8) (j : Nat) : Bool := (v.getD (j / 8) 0).toNat.testBit (j % 8)

def bits (v : List UInt8) : List Bool := v.flatMap fun c => (List.range 8).map fun i => c.toNat.testBit i

/-- A byte with one more bit. -/
def orBit (b : Bool) (i : Nat) (c : UInt8) : UInt8 := c ||| (if b then 1 else 0) <<< UInt8.ofNat (i % 8)

theorem testBit_orBit (b : Bool) (i : Nat) (c : UInt8) (j : Nat) :
    (orBit b i c).toNat.testBit j = (c.toNat.testBit j || (b && decide (i % 8 = j))) := by
  have hi : i % 8 < 8 := Nat.mod_lt _ (by omega)
  have hbit : ∀ k < 8, ((1 : UInt8) <<< UInt8.ofNat k).toNat = 2 ^ k := by decide
  cases b with
  | false => simp [orBit]
  | true => simp [orBit, UInt8.toNat_or, Nat.testBit_or, hbit _ hi, Nat.testBit_two_pow]

theorem bits_getElem? (v : List UInt8) (j : Nat) : (bits v)[j]? = if j < 8 * v.length then some (bitAt v j) else none := by
  induction v generalizing j with
  | nil => simp [bits]
  | cons c v ih =>
    have hcons : bits (c :: v) = ((List.range 8).map fun i => c.toNat.testBit i) ++ bits v := rfl
    by_cases hj : j < 8
    · have hlt : j < 8 * (v.length + 1) := by omega
      have hdiv : j / 8 = 0 := by omega
      have hmod : j % 8 = j := by omega
      rw [hcons, List.getElem?_append_left (by simpa using hj)]
      simp [hj, hlt, bitAt, hdiv, hmod]
    · have hdiv : j / 8 = (j - 8) / 8 + 1 := by omega
      have hmod : j % 8 = (j - 8) % 8 := by omega
      rw [hcons, List.getElem?_append_right (by simpa using hj)]
      have hiff : j - 8 < 8 * v.length ↔ j < 8 * (v.length + 1) := by omega
      simp [ih, bitAt, hdiv, hmod, hiff]

/-- One more bit in a byte that is there. -/
theorem bitAt_modify {v : List UInt8} {i : Nat} (hi : i / 8 < v.length) (b : Bool) (j : Nat) :
    bitAt (v.modify (i / 8) (orBit b i)) j = (bitAt v j || (b && decide (i = j))) := by
  by_cases hdiv : i / 8 = j / 8
  · have hmod : i % 8 = j % 8 ↔ i = j := by omega
    have hget : (v.modify (i / 8) (orBit b i)).getD (j / 8) 0 = orBit b i (v.getD (j / 8) 0) := by
      rw [hdiv] at hi ⊢
      simp [List.getD_eq_getElem?_getD, List.getElem?_eq_getElem hi]
    rw [bitAt, hget, testBit_orBit b i _ (j % 8), bitAt]
    simp only [hmod]
  · have hne : ¬i = j := fun h => hdiv (h ▸ rfl)
    have hget : (v.modify (i / 8) (orBit b i)).getD (j / 8) 0 = v.getD (j / 8) 0 := by
      simp [List.getD_eq_getElem?_getD, hdiv]
    rw [bitAt, hget, bitAt]
    simp [hne]

end Dcpp.Bits
