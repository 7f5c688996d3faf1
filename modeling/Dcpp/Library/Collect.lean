import Mathlib.Data.List.Basic
import Mathlib.Tactic.Common

-- Collecting results up to a limit, which is tested at some of the steps only.
namespace Dcpp.Collect

variable {σ ρ : Type*}

/-- A step offers a result, and tests the limit after it if `tests` says so; or it only tests the limit. -/
inductive Step (σ ρ : Type*) where
  | offer (tests : Bool) (f : σ → Option ρ × σ)
  | test

/-- The results and the state at the end, or where a test finds the limit reached. -/
def run (limit : Nat) : List ρ → σ → List (Step σ ρ) → List ρ × σ
  | rs, s, [] => (rs, s)
  | rs, s, .test :: steps => if rs.length ≥ limit then (rs, s) else run limit rs s steps
  | rs, s, .offer tests f :: steps =>
    match f s with
    | (none, s) => run limit rs s steps
    | (some r, s) =>
      if tests = true ∧ (rs ++ [r]).length ≥ limit then (rs ++ [r], s) else run limit (rs ++ [r]) s steps

/-- What counts of a run: a result, or a test of the limit. -/
inductive Mark where
  | result
  | test
deriving DecidableEq

/-- The marks of the run without a limit. -/
def marks : σ → List (Step σ ρ) → List Mark
  | _, [] => []
  | s, .test :: steps => .test :: marks s steps
  | s, .offer tests f :: steps =>
    match f s with
    | (none, s) => marks s steps
    | (some _, s) => .result :: ((if tests then [.test] else []) ++ marks s steps)

/-- The mark behind the first `n` results is a result as well. -/
def Overruns : Nat → List Mark → Prop
  | _, [] => False
  | 0, m :: _ => m = .result
  | n + 1, .result :: ms => Overruns n ms
  | n + 1, .test :: ms => Overruns (n + 1) ms

theorem le_length_run (limit : Nat) (rs : List ρ) (s : σ) (steps : List (Step σ ρ)) :
    rs.length ≤ (run limit rs s steps).1.length := by
  fun_induction run limit rs s steps with
  | case1 => simp
  | case2 => simp
  | case3 rs s steps hlt ih => exact ih
  | case4 rs s tests f steps s' hf ih => exact ih
  | case5 rs s tests f steps r s' hf hfull => simp
  | case6 rs s tests f steps r s' hf hnot ih =>
    rw [List.length_append] at ih
    omega

/-- A result of a run is one that a step offers. -/
theorem mem_run {limit : Nat} {rs : List ρ} {s : σ} {steps : List (Step σ ρ)} {r : ρ}
    (h : r ∈ (run limit rs s steps).1) : r ∈ rs ∨ ∃ tests f s, .offer tests f ∈ steps ∧ (f s).1 = some r := by
  have hlater {step : Step σ ρ} {steps : List (Step σ ρ)}
      (h : ∃ tests f s, .offer tests f ∈ steps ∧ (f s).1 = some r) :
      ∃ tests f s, .offer tests f ∈ step :: steps ∧ (f s).1 = some r := by
    obtain ⟨tests, f, s, hmem, hr⟩ := h
    exact ⟨tests, f, s, List.mem_cons_of_mem _ hmem, hr⟩
  fun_induction run limit rs s steps with
  | case1 => exact Or.inl h
  | case2 => exact Or.inl h
  | case3 rs s steps hlt ih => exact (ih h).imp_right hlater
  | case4 rs s tests f steps s' hf ih => exact (ih h).imp_right hlater
  | case5 rs s tests f steps r' s' hf hfull =>
    refine (List.mem_append.mp h).imp_right fun hr => ⟨tests, f, s, List.mem_cons_self, ?_⟩
    rw [hf, List.mem_singleton.mp hr]
  | case6 rs s tests f steps r' s' hf hnot ih =>
    obtain hr | hr := ih h
    · refine (List.mem_append.mp hr).imp_right fun hr => ⟨tests, f, s, List.mem_cons_self, ?_⟩
      rw [hf, List.mem_singleton.mp hr]
    · exact Or.inr (hlater hr)

/-- A run exceeds the limit exactly when it overruns it. -/
theorem length_run_le_iff (limit : Nat) (rs : List ρ) (s : σ) (steps : List (Step σ ρ)) (h : rs.length ≤ limit) :
    (run limit rs s steps).1.length ≤ limit ↔ ¬Overruns (limit - rs.length) (marks s steps) := by
  fun_induction run limit rs s steps with
  | case1 rs s => simpa [marks, Overruns] using h
  | case2 rs s steps hfull =>
    have hzero : limit - rs.length = 0 := by omega
    simpa [marks, hzero, Overruns] using h
  | case3 rs s steps hlt ih =>
    obtain ⟨n, hn⟩ := Nat.exists_eq_succ_of_ne_zero (show limit - rs.length ≠ 0 by omega)
    rw [ih h, marks, hn, Overruns]
  | case4 rs s tests f steps s' hf ih => simpa [marks, hf] using ih h
  | case5 rs s tests f steps r s' hf hfull =>
    obtain ⟨rfl, hfull⟩ := hfull
    rw [List.length_append, List.length_singleton] at hfull ⊢
    cases hn : limit - rs.length with
    | zero =>
      simp [marks, hf, Overruns]
      omega
    | succ n =>
      obtain rfl : n = 0 := by omega
      simp [marks, hf, Overruns]
      omega
  | case6 rs s tests f steps r s' hf hnot ih =>
    rw [List.length_append, List.length_singleton] at hnot ih
    cases hn : limit - rs.length with
    | zero =>
      have hle := le_length_run limit (rs ++ [r]) s' steps
      rw [List.length_append, List.length_singleton] at hle
      simp [marks, hf, Overruns]
      omega
    | succ n =>
      have hsub : limit - (rs.length + 1) = n := by omega
      rw [ih (by omega), hsub]
      cases tests with
      | false => simp [marks, hf, Overruns]
      | true =>
        obtain ⟨k, rfl⟩ := Nat.exists_eq_succ_of_ne_zero (show n ≠ 0 by simp at hnot; omega)
        simp [marks, hf, Overruns]

/-- What a step offers. -/
def result (s : σ) : Step σ ρ → Option ρ
  | .offer _ f => (f s).1
  | .test => none

/-- Of steps that leave the state as it is, a run collects all results when there are fewer than the limit. -/
theorem run_eq {limit : Nat} {rs : List ρ} {s : σ} {steps : List (Step σ ρ)}
    (hlimit : rs.length + (steps.filterMap (result s)).length < limit)
    (hsame : ∀ tests f, .offer tests f ∈ steps → (f s).2 = s) :
    run limit rs s steps = (rs ++ steps.filterMap (result s), s) := by
  induction steps generalizing rs with
  | nil => simp [run]
  | cons step steps ih =>
    have hrest := fun tests f hf => hsame tests f (List.mem_cons_of_mem step hf)
    cases step with
    | test =>
      have hnone : (Step.test :: steps).filterMap (result s) = steps.filterMap (result s) := rfl
      rw [hnone] at hlimit ⊢
      rw [run, if_neg (by omega), ih hlimit hrest]
    | offer tests f =>
      have hf : f s = ((f s).1, s) := Prod.ext rfl (hsame tests f List.mem_cons_self)
      rw [run, hf]
      cases hr : (f s).1 with
      | none =>
        have hnone : result s (.offer tests f) = none := hr
        rw [List.filterMap_cons_none hnone] at hlimit ⊢
        exact ih hlimit hrest
      | some r =>
        have hsome : result s (.offer tests f) = some r := hr
        have hlen : (rs ++ [r]).length = rs.length + 1 := by simp
        rw [List.filterMap_cons_some hsome, List.length_cons] at hlimit
        dsimp only
        rw [hlen, if_neg (by omega), ih (by omega) hrest, List.filterMap_cons_some hsome, ← List.append_cons]

theorem run_test (limit : Nat) (rs : List ρ) (s : σ) (steps : List (Step σ ρ)) :
    run limit rs s (.test :: steps) = if rs.length ≥ limit then (rs, s) else run limit rs s steps := rfl

theorem run_offer {limit : Nat} {rs : List ρ} {s : σ} {f : σ → Option ρ × σ} {c : Prop} [Decidable c] {r : ρ}
    (h : f s = (if c then some r else none, s)) (steps : List (Step σ ρ)) :
    run limit rs s (.offer false f :: steps) = run limit (if c then rs ++ [r] else rs) s steps := by
  rw [run, h]
  by_cases hc : c <;> simp [hc]

/-- Steps that offer nothing may test the limit before the next test, or not. -/
theorem run_quiet {limit : Nat} {rs : List ρ} {s : σ} {steps : List (Step σ ρ)} (rest : List (Step σ ρ))
    (hquiet : ∀ tests f, .offer tests f ∈ steps → f s = (none, s)) :
    run limit rs s (steps ++ .test :: rest) = run limit rs s (.test :: rest) := by
  induction steps with
  | nil => rfl
  | cons step steps ih =>
    have hrest := ih fun tests f hf => hquiet tests f (List.mem_cons_of_mem step hf)
    cases step with
    | test =>
      rw [List.cons_append, run, hrest, run]
      split <;> rfl
    | offer tests f =>
      rw [← hrest, List.cons_append, run, hquiet tests f List.mem_cons_self]

end Dcpp.Collect
