import Mathlib.Tactic.Common

-- What a computation that can fail is correct for: if it succeeds, and that it succeeds.
namespace Dcpp.Correctness

variable {ε α β : Type}

/-- If the computation succeeds, its result has the property. -/
def Partial (P : α → Prop) (x : Except ε α) : Prop := ∀ a, x = .ok a → P a

/-- The computation succeeds, and its result has the property. -/
def Total (P : α → Prop) (x : Except ε α) : Prop := ∃ a, x = .ok a ∧ P a

variable {P : α → Prop} {Q : β → Prop} {x : Except ε α} {f : α → Except ε β}

theorem partial_ok {a : α} (h : P a) : Partial P (.ok a : Except ε α) := by
  intro b hb
  cases hb
  exact h

theorem partial_error {e : ε} : Partial P (.error e : Except ε α) := by
  intro a ha
  cases ha

theorem Partial.bind (hx : Partial P x) (hf : ∀ a, P a → Partial Q (f a)) : Partial Q (x >>= f) := by
  intro b hb
  cases x with
  | error e => cases hb
  | ok a => exact hf a (hx a rfl) b hb

theorem Partial.imp {P' : α → Prop} (h : Partial P x) (himp : ∀ a, P a → P' a) : Partial P' x :=
  fun a ha => himp a (h a ha)

theorem total_ok {a : α} (h : P a) : Total P (.ok a : Except ε α) := ⟨a, rfl, h⟩

theorem total_ok_iff {a : α} : Total P (.ok a : Except ε α) ↔ P a := by
  refine ⟨?_, total_ok⟩
  rintro ⟨b, hb, h⟩
  cases hb
  exact h

theorem not_total_error {e : ε} : ¬Total P (.error e : Except ε α) := by
  rintro ⟨a, ha, -⟩
  cases ha

theorem Total.bind (hx : Total P x) (hf : ∀ a, P a → Total Q (f a)) : Total Q (x >>= f) := by
  obtain ⟨a, rfl, ha⟩ := hx
  exact hf a ha

theorem Total.imp {P' : α → Prop} (h : Total P x) (himp : ∀ a, P a → P' a) : Total P' x := by
  obtain ⟨a, ha, hP⟩ := h
  exact ⟨a, ha, himp a hP⟩

/-- The two steps of a computation that succeeds. -/
theorem total_bind_iff : Total Q (x >>= f) ↔ Total (fun a => Total Q (f a)) x := by
  cases x with
  | error e => exact iff_of_false not_total_error not_total_error
  | ok a =>
    refine ⟨fun h => ⟨a, rfl, h⟩, ?_⟩
    rintro ⟨b, hb, h⟩
    cases hb
    exact h

theorem total_bind_pure_iff {g : α → β} :
    Total (fun _ => True) (x >>= fun a => pure (g a)) ↔ Total (fun _ => True) x := by
  rw [total_bind_iff]
  exact ⟨fun h => h.imp fun _ _ => trivial, fun h => h.imp fun _ _ => total_ok trivial⟩

/-- If the computation fails, its error has the property. -/
def FailsWith (E : ε → Prop) (x : Except ε α) : Prop := ∀ e, x = .error e → E e

variable {E : ε → Prop}

theorem failsWith_ok {a : α} : FailsWith E (.ok a : Except ε α) := by
  intro e he
  cases he

theorem failsWith_error {e : ε} (h : E e) : FailsWith E (.error e : Except ε α) := by
  intro e' he
  cases he
  exact h

theorem FailsWith.bind (hx : FailsWith E x) (hf : ∀ a, x = .ok a → FailsWith E (f a)) : FailsWith E (x >>= f) := by
  cases x with
  | error e => exact failsWith_error (hx e rfl)
  | ok a => exact hf a rfl

end Dcpp.Correctness
