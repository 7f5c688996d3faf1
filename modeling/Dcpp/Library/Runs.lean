import Mathlib.Data.List.Induction
import Mathlib.Tactic.Common

-- Runs of a machine whose steps may be undefined, under conditions on the steps.
namespace Dcpp.Runs

variable {σ ε : Type*}

/-- A run; `none` when one of its steps is undefined. -/
def run (step : σ → ε → Option σ) (s : σ) (events : List ε) : Option σ := events.foldlM step s

theorem run_append (step : σ → ε → Option σ) (s : σ) (es es' : List ε) :
    run step s (es ++ es') = (run step s es).bind fun t => run step t es' := by
  rw [run, List.foldlM_append]
  rfl

theorem run_singleton (step : σ → ε → Option σ) (s : σ) (e : ε) : run step s [e] = step s e := by
  rw [run, List.foldlM_cons]
  change (step s e).bind some = step s e
  exact Option.bind_fun_some _

theorem run_cons {step : σ → ε → Option σ} {s t : σ} {e : ε} (h : step s e = some t) (es : List ε) :
    run step s (e :: es) = run step t es := by
  rw [run, List.foldlM_cons, h]
  rfl

/-- Every step meets its condition in the state in which it is taken. -/
def Each (step : σ → ε → Option σ) (Meets : σ → ε → Prop) (s : σ) (events : List ε) : Prop :=
  ∀ (i : Nat) (h : i < events.length) t, run step s (events.take i) = some t → Meets t events[i]

theorem each_nil (step : σ → ε → Option σ) (Meets : σ → ε → Prop) (s : σ) : Each step Meets s [] :=
  fun _ h => absurd h (Nat.not_lt_zero _)

theorem each_cons {step : σ → ε → Option σ} {Meets : σ → ε → Prop} {s : σ} {e : ε} {es : List ε}
    (he : Meets s e) (hes : ∀ t, step s e = some t → Each step Meets t es) :
    Each step Meets s (e :: es) := by
  intro i hi t ht
  cases i with
  | zero => exact Option.some.inj ht ▸ he
  | succ i =>
    rw [List.take_succ_cons, run, List.foldlM_cons] at ht
    obtain ⟨r, hr, ht⟩ := Option.bind_eq_some_iff.mp ht
    exact hes r hr i (Nat.lt_of_succ_lt_succ hi) t ht

theorem each_cons_iff {step : σ → ε → Option σ} {Meets : σ → ε → Prop} {s : σ} {e : ε} {es : List ε} :
    Each step Meets s (e :: es) ↔ Meets s e ∧ ∀ t, step s e = some t → Each step Meets t es := by
  refine ⟨fun h => ⟨h 0 (Nat.succ_pos _) s rfl, fun t ht i hi r hr => ?_⟩, fun h => each_cons h.1 h.2⟩
  refine h (i + 1) (Nat.succ_lt_succ hi) r ?_
  rw [List.take_succ_cons, run, List.foldlM_cons, ht]
  exact hr

instance decidableEach {step : σ → ε → Option σ} {Meets : σ → ε → Prop} [∀ s e, Decidable (Meets s e)] :
    (s : σ) → (events : List ε) → Decidable (Each step Meets s events)
  | s, [] => isTrue (each_nil step Meets s)
  | s, e :: es =>
    match h : step s e with
    | none => decidable_of_iff (Meets s e) (by rw [each_cons_iff, h]; simp)
    | some t =>
      have : Decidable (Each step Meets t es) := decidableEach t es
      decidable_of_iff (Meets s e ∧ Each step Meets t es) (by rw [each_cons_iff, h]; simp)

/-- Two conditions that agree where the invariant of one of them holds are met by the same runs. -/
theorem each_congr {step : σ → ε → Option σ} {Inv : σ → Prop} {Meets Meets' : σ → ε → Prop}
    (hstep : ∀ s e t, Inv s → Meets s e → step s e = some t → Inv t)
    (h : ∀ s e, Inv s → (Meets s e ↔ Meets' s e)) {s : σ} (hs : Inv s) (events : List ε) :
    Each step Meets s events ↔ Each step Meets' s events := by
  induction events generalizing s with
  | nil => exact iff_of_true (each_nil step Meets s) (each_nil step Meets' s)
  | cons e es ih =>
    rw [each_cons_iff, each_cons_iff]
    constructor
    · intro ⟨hm, hes⟩
      exact ⟨(h s e hs).mp hm, fun t ht => (ih (hstep s e t hs hm ht)).mp (hes t ht)⟩
    · intro ⟨hm, hes⟩
      have hm := (h s e hs).mpr hm
      exact ⟨hm, fun t ht => (ih (hstep s e t hs hm ht)).mpr (hes t ht)⟩

theorem each_append_singleton {step : σ → ε → Option σ} {Meets : σ → ε → Prop} {s : σ} {es : List ε}
    {e : ε} (h : Each step Meets s (es ++ [e])) :
    Each step Meets s es ∧ ∀ t, run step s es = some t → Meets t e := by
  constructor
  · intro i hi t ht
    have hlt : i < (es ++ [e]).length := by
      rw [List.length_append]
      exact Nat.lt_add_right _ hi
    have hm := h i hlt t (by rwa [List.take_append_of_le_length (Nat.le_of_lt hi)])
    rwa [List.getElem_append_left hi] at hm
  · intro t ht
    have hlt : es.length < (es ++ [e]).length := by
      rw [List.length_append]
      exact Nat.lt_succ_self _
    have hm := h es.length hlt t (by rwa [List.take_left])
    rwa [List.getElem_concat_length rfl] at hm

/-- A first part of a run meets the condition when the run does. -/
theorem each_take {step : σ → ε → Option σ} {Meets : σ → ε → Prop} {s : σ} {es : List ε}
    (h : Each step Meets s es) (n : Nat) : Each step Meets s (es.take n) := by
  intro i hi t ht
  rw [List.length_take, Nat.lt_min] at hi
  rw [List.take_take, Nat.min_eq_left (Nat.le_of_lt hi.1)] at ht
  rw [List.getElem_take]
  exact h i hi.2 t ht

theorem run_take_succ {step : σ → ε → Option σ} {s : σ} {es : List ε} {i : Nat} (hi : i < es.length) :
    run step s (es.take (i + 1)) = (run step s (es.take i)).bind fun t => step t es[i] := by
  rw [List.take_succ_eq_append_getElem hi, run_append]
  congr 1
  funext t
  exact run_singleton step t _

/-- An invariant that every defined step keeps under its condition holds at the end of a run. -/
theorem run_preserves {step : σ → ε → Option σ} {Inv : σ → Prop} {Meets : σ → ε → Prop}
    (hstep : ∀ s e t, Inv s → Meets s e → step s e = some t → Inv t) {s t : σ} (hs : Inv s)
    {events : List ε} (hm : Each step Meets s events) (ht : run step s events = some t) : Inv t := by
  induction events using List.reverseRecOn generalizing t with
  | nil => exact Option.some.inj ht ▸ hs
  | append_singleton es e ih =>
    obtain ⟨hes, he⟩ := each_append_singleton hm
    rw [run_append, Option.bind_eq_some_iff] at ht
    obtain ⟨r, hr, ht⟩ := ht
    rw [run_singleton] at ht
    exact hstep r e t (ih hes hr) (he r hr) ht

/-- An invariant that every step keeps under its condition holds at the end of a run, and nothing
in the run is undefined. -/
theorem run_invariant {step : σ → ε → Option σ} {Inv : σ → Prop} {Meets : σ → ε → Prop}
    (hstep : ∀ s e, Inv s → Meets s e → ∃ t, step s e = some t ∧ Inv t) {s : σ} (hs : Inv s)
    (events : List ε) (hm : Each step Meets s events) :
    ∃ t, run step s events = some t ∧ Inv t := by
  induction events using List.reverseRecOn with
  | nil => exact ⟨s, rfl, hs⟩
  | append_singleton es e ih =>
    obtain ⟨hes, he⟩ := each_append_singleton hm
    obtain ⟨t, ht, hinv⟩ := ih hes
    obtain ⟨t', ht', hinv'⟩ := hstep t e hinv (he t ht)
    refine ⟨t', ?_, hinv'⟩
    rw [run_append, ht, Option.bind_some, run_singleton, ht']

end Dcpp.Runs
