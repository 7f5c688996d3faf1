import Mathlib.Tactic.Common

-- Results that may be undefined, ordered by how much of them is defined.
namespace Dcpp.Defined

universe u

variable {α β : Type u}

/-- The second result is that of the first where this one has one. -/
def Le (x y : Option α) : Prop := ∀ r, x = some r → y = some r

theorem Le.refl (x : Option α) : Le x x := fun _ h => h

theorem Le.trans {x y z : Option α} (hxy : Le x y) (hyz : Le y z) : Le x z := fun r h => hyz r (hxy r h)

theorem none_le (x : Option α) : Le none x := fun _ h => nomatch h

theorem Le.bind {x y : Option α} {f g : α → Option β} (hxy : Le x y) (hfg : ∀ a, x = some a → Le (f a) (g a)) :
    Le (x >>= f) (y >>= g) := by
  intro r h
  obtain ⟨a, ha, hr⟩ := Option.bind_eq_some_iff.mp h
  exact Option.bind_eq_some_iff.mpr ⟨a, hxy a ha, hfg a ha r hr⟩

theorem Le.ite {c : Prop} [Decidable c] {x y z w : Option α} (hx : c → Le x z) (hy : ¬c → Le y w) :
    Le (if c then x else y) (if c then z else w) := by
  split_ifs with h
  · exact hx h
  · exact hy h

theorem Le.isSome {x y : Option α} (h : Le x y) (hx : x.isSome) : y = x := by
  obtain ⟨r, rfl⟩ := Option.isSome_iff_exists.mp hx
  exact h r rfl

end Dcpp.Defined
