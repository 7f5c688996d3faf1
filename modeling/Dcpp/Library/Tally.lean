import Mathlib.Algebra.BigOperators.Group.List.Basic
import Mathlib.Data.List.Infix
import Mathlib.Data.List.Induction
import Mathlib.Tactic.Common

-- Accumulators to which the events of a run add, each of them once.
namespace Dcpp.Tally

variable {σ ε M : Type*} [AddCommMonoid M]

/-- What the events have together. -/
def total (amount : ε → M) (es : List ε) : M := (es.map amount).sum

@[simp] theorem total_nil (amount : ε → M) : total amount [] = 0 := rfl

@[simp] theorem total_cons (amount : ε → M) (e : ε) (es : List ε) :
    total amount (e :: es) = amount e + total amount es := by
  simp [total]

@[simp] theorem total_append (amount : ε → M) (es es' : List ε) :
    total amount (es ++ es') = total amount es + total amount es' := by
  simp [total]

/-- An accumulator that every step adds to has what was there and the total of the run. -/
theorem foldl_total {step : σ → ε → σ} {read : σ → M} {added : ε → M}
    (hstep : ∀ s e, read (step s e) = read s + added e) (s : σ) (es : List ε) :
    read (es.foldl step s) = read s + total added es := by
  induction es generalizing s with
  | nil => simp
  | cons e es ih =>
    rw [List.foldl_cons, ih, hstep, total_cons, add_assoc]

/-- What is added agrees with what is due after every part of a run, if and only if it agrees at each event. -/
theorem prefixes_iff [IsLeftCancelAdd M] {added due : ε → M} {es : List ε} :
    (∀ before, before <+: es → total added before = total due before) ↔ ∀ e ∈ es, added e = due e := by
  constructor
  · intro h e he
    obtain ⟨before, after, rfl⟩ := List.append_of_mem he
    have hbefore := h before (List.prefix_append _ _)
    have hthen := h (before ++ [e]) ⟨after, by simp⟩
    rw [total_append, total_append, hbefore] at hthen
    simpa using add_left_cancel hthen
  · rintro h before ⟨after, rfl⟩
    have hmap : before.map added = before.map due :=
      List.map_congr_left fun e he => h e (List.mem_append_left _ he)
    rw [total, total, hmap]

end Dcpp.Tally
