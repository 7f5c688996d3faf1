import Mathlib.Tactic.Common

-- Ranges in a row that leave no gap and do not overlap.
namespace Dcpp.Tiling

variable {β : Type*} (start len : β → Nat)

/-- The ranges, in order, make up the range from `a` to `b`. -/
def Tiles : Nat → List β → Nat → Prop
  | a, [], b => a = b
  | a, x :: xs, b => start x = a ∧ Tiles (a + len x) xs b

variable {start len}

theorem tiles_append {a c : Nat} {xs ys : List β} :
    Tiles start len a (xs ++ ys) c ↔ ∃ b, Tiles start len a xs b ∧ Tiles start len b ys c := by
  induction xs generalizing a with
  | nil => exact ⟨fun h => ⟨a, rfl, h⟩, fun ⟨_, rfl, h⟩ => h⟩
  | cons x xs ih =>
    simp only [List.cons_append, Tiles, ih]
    exact ⟨fun ⟨hx, b, hxs, hys⟩ => ⟨b, ⟨hx, hxs⟩, hys⟩, fun ⟨b, ⟨hx, hxs⟩, hys⟩ => ⟨hx, b, hxs, hys⟩⟩

/-- Where the ranges end is determined. -/
theorem Tiles.unique {a b b' : Nat} {xs : List β} (h : Tiles start len a xs b) (h' : Tiles start len a xs b') :
    b = b' := by
  induction xs generalizing a with
  | nil => exact h.symm.trans h'
  | cons x xs ih => exact ih h.2 h'.2

end Dcpp.Tiling
