import Mathlib.Tactic.Common

-- Loops that count, whose steps may be undefined.
namespace Dcpp.Loop

variable {σ : Type*}

/-- The loop `for(i = 0; i < n; ++i)`. -/
def forRange (n : Nat) (step : σ → Nat → Option σ) (s : σ) : Option σ := (List.range n).foldlM step s

theorem forRange_succ (n : Nat) (step : σ → Nat → Option σ) (s : σ) :
    forRange (n + 1) step s = (forRange n step s).bind fun t => step t n := by
  simp only [forRange, List.range_succ, List.foldlM_append, List.foldlM_cons, List.foldlM_nil]
  cases (List.range n).foldlM step s with
  | none => rfl
  | some t => exact Option.bind_fun_some _

/-- An invariant that every round keeps holds at the end, and no round is undefined. -/
theorem forRange_invariant (n : Nat) (step : σ → Nat → Option σ) (Inv : Nat → σ → Prop)
    (hstep : ∀ i s, i < n → Inv i s → ∃ t, step s i = some t ∧ Inv (i + 1) t) {s : σ} (hs : Inv 0 s) :
    ∃ t, forRange n step s = some t ∧ Inv n t := by
  induction n with
  | zero => exact ⟨s, rfl, hs⟩
  | succ n ih =>
    obtain ⟨t, ht, hinv⟩ := ih fun i s hi => hstep i s (Nat.lt_succ_of_lt hi)
    obtain ⟨u, hu, hinv'⟩ := hstep n t (Nat.lt_succ_self n) hinv
    refine ⟨u, ?_, hinv'⟩
    simp [forRange_succ, ht, hu]

end Dcpp.Loop
