import Mathlib.Data.List.Basic
import Mathlib.Tactic.Common

-- Machines that consume a buffer in steps, wait for more of it, and stop.
namespace Dcpp.Incremental

variable {σ α ε ω : Type*}

inductive Step (σ α ε : Type*) where
  | wait
  | next (s : σ) (rest : List α)
  | stop (e : ε)

inductive Outcome (σ α ε : Type*) where
  | waiting (s : σ) (rest : List α)
  | stopped (e : ε)

/-- The machine goes on until it waits or stops. -/
inductive Runs (step : σ → List α → Step σ α ε → Prop) : σ → List α → Outcome σ α ε → Prop where
  | wait {s : σ} {b : List α} : step s b .wait → Runs step s b (.waiting s b)
  | next {s s' : σ} {b b' : List α} {x : Outcome σ α ε} :
    step s b (.next s' b') → Runs step s' b' x → Runs step s b x
  | stop {s : σ} {b : List α} {e : ε} : step s b (.stop e) → Runs step s b (.stopped e)

/-- Some steps of a run. -/
inductive Steps (step : σ → List α → Step σ α ε → Prop) : σ → List α → σ → List α → Prop where
  | refl (s : σ) (b : List α) : Steps step s b s b
  | next {s s' t : σ} {b b' c : List α} :
    step s b (.next s' b') → Steps step s' b' t c → Steps step s b t c

variable {step : σ → List α → Step σ α ε → Prop}

theorem Steps.trans {s t u : σ} {b c d : List α} (h : Steps step s b t c) (h' : Steps step t c u d) :
    Steps step s b u d := by
  induction h with
  | refl => exact h'
  | next hs _ ih => exact Steps.next hs (ih h')

theorem Steps.invariant {Inv : σ → Prop} (hinv : ∀ s b s' b', Inv s → step s b (.next s' b') → Inv s')
    {s t : σ} {b c : List α} (h : Steps step s b t c) (hs : Inv s) : Inv t := by
  induction h with
  | refl => exact hs
  | next hstep _ ih => exact ih (hinv _ _ _ _ hs hstep)

/-- A run waits or stops where some of its steps lead. -/
theorem Runs.steps {s : σ} {b : List α} {x : Outcome σ α ε} (h : Runs step s b x) :
    ∃ t c, Steps step s b t c ∧ (step t c .wait ∧ x = .waiting t c ∨ ∃ e, step t c (.stop e) ∧ x = .stopped e) := by
  induction h with
  | @wait s b hw => exact ⟨s, b, Steps.refl s b, Or.inl ⟨hw, rfl⟩⟩
  | next hs _ ih =>
    obtain ⟨t, c, ht, hx⟩ := ih
    exact ⟨t, c, Steps.next hs ht, hx⟩
  | @stop s b e he => exact ⟨s, b, Steps.refl s b, Or.inr ⟨e, he, rfl⟩⟩

theorem Steps.runs {s t : σ} {b c : List α} {x : Outcome σ α ε} (h : Steps step s b t c)
    (hx : Runs step t c x) : Runs step s b x := by
  induction h with
  | refl => exact hx
  | next hs _ ih => exact Runs.next hs (ih hx)

/-- The machine takes a piece in some of its steps, whatever follows the piece that `P` allows. -/
def Reads (step : σ → List α → Step σ α ε → Prop) (P : List α → Prop) (s : σ) (w : List α) (t : σ) : Prop :=
  ∀ rest, P rest → Steps step s (w ++ rest) t rest

theorem Reads.refl (P : List α → Prop) (s : σ) : Reads step P s [] s := fun rest _ => Steps.refl s rest

theorem Reads.append {P Q : List α → Prop} {s t u : σ} {w w' : List α} (h : Reads step P s w t)
    (h' : Reads step Q t w' u) (hP : ∀ rest, Q rest → P (w' ++ rest)) : Reads step Q s (w ++ w') u := by
  intro rest hrest
  rw [List.append_assoc]
  exact (h (w' ++ rest) (hP rest hrest)).trans (h' rest hrest)

theorem Reads.mono {P Q : List α → Prop} {s t : σ} {w : List α} (h : Reads step P s w t)
    (hP : ∀ rest, Q rest → P rest) : Reads step Q s w t := fun rest hrest => h rest (hP rest hrest)

/-- A piece that is taken in one step. -/
theorem Reads.single {P : List α → Prop} {s t : σ} {w : List α}
    (h : ∀ rest, P rest → step s (w ++ rest) (.next t rest)) : Reads step P s w t :=
  fun rest hrest => Steps.next (h rest hrest) (Steps.refl t rest)

theorem Runs.det (hdet : ∀ s b y y', step s b y → step s b y' → y = y') {s : σ} {b : List α}
    {x x' : Outcome σ α ε} (h : Runs step s b x) (h' : Runs step s b x') : x = x' := by
  induction h with
  | wait hw =>
    cases h' with
    | wait => rfl
    | next hs _ => cases hdet _ _ _ _ hw hs
    | stop he => cases hdet _ _ _ _ hw he
  | next hs _ ih =>
    cases h' with
    | wait hw => cases hdet _ _ _ _ hs hw
    | next hs' h' =>
      cases hdet _ _ _ _ hs hs'
      exact ih h'
    | stop he => cases hdet _ _ _ _ hs he
  | stop he =>
    cases h' with
    | wait hw => cases hdet _ _ _ _ he hw
    | next hs _ => cases hdet _ _ _ _ he hs
    | stop he' =>
      cases hdet _ _ _ _ he he'
      rfl

/-- A run passes through all of its steps. -/
theorem Runs.of_steps (hdet : ∀ s b y y', step s b y → step s b y' → y = y') {s t : σ} {b c : List α}
    {x : Outcome σ α ε} (h : Runs step s b x) (hst : Steps step s b t c) : Runs step t c x := by
  induction hst with
  | refl => exact h
  | next hs _ ih =>
    apply ih
    cases h with
    | wait hw => cases hdet _ _ _ _ hw hs
    | next hs' h =>
      cases hdet _ _ _ _ hs hs'
      exact h
    | stop he => cases hdet _ _ _ _ he hs

/-- A run begins with a step. -/
theorem Runs.defined {s : σ} {b : List α} {x : Outcome σ α ε} (h : Runs step s b x) : ∃ y, step s b y := by
  cases h with
  | wait hw => exact ⟨_, hw⟩
  | next hs _ => exact ⟨_, hs⟩
  | stop he => exact ⟨_, he⟩

/-- With a measure that steps lower, a machine comes to an end exactly when it never gets stuck. -/
theorem runs_iff (μ : σ → List α → Nat) (hμ : ∀ s b s' b', step s b (.next s' b') → μ s' b' < μ s b)
    (hdet : ∀ s b y y', step s b y → step s b y' → y = y') (s : σ) (b : List α) :
    (∃ x, Runs step s b x) ↔ ∀ t c, Steps step s b t c → ∃ y, step t c y := by
  constructor
  · rintro ⟨x, hx⟩ t c ht
    exact (hx.of_steps hdet ht).defined
  · intro h
    induction hn : μ s b using Nat.strongRecOn generalizing s b with
    | ind n ih =>
      obtain ⟨y, hy⟩ := h s b (Steps.refl s b)
      cases y with
      | wait => exact ⟨_, Runs.wait hy⟩
      | next s' b' =>
        obtain ⟨x, hx⟩ := ih (μ s' b') (hn ▸ hμ s b s' b' hy) s' b'
          (fun t c ht => h t c (Steps.next hy ht)) rfl
        exact ⟨x, Runs.next hy hx⟩
      | stop e => exact ⟨_, Runs.stop hy⟩

/-- The buffer comes in pieces; the machine takes each piece as far as it can. -/
inductive Feeds (step : σ → List α → Step σ α ε → Prop) :
    σ → List α → List (List α) → Outcome σ α ε → Prop where
  | nil (s : σ) (b : List α) : Feeds step s b [] (.waiting s b)
  | wait {s s' : σ} {b b' c : List α} {cs : List (List α)} {x : Outcome σ α ε} :
    Runs step s (b ++ c) (.waiting s' b') → Feeds step s' b' cs x → Feeds step s b (c :: cs) x
  | stop {s : σ} {b c : List α} {cs : List (List α)} {e : ε} :
    Runs step s (b ++ c) (.stopped e) → Feeds step s b (c :: cs) (.stopped e)

/-- More input does not change what a machine did with less of it, as far as it is observed. Where
it is cut off, it may stop at what is no end. -/
structure Extends (step : σ → List α → Step σ α ε → Prop) (Inv : σ → Prop)
    (obs : Outcome σ α ε → ω) (Cut : σ → List α → List α → Prop) : Prop where
  inv : ∀ s b s' b', Inv s → step s b (.next s' b') → Inv s'
  next : ∀ s b s' b' more x, Inv s → step s b (.next s' b') → ¬Cut s b more → Runs step s' (b' ++ more) x →
    ∃ x', Runs step s (b ++ more) x' ∧ obs x' = obs x
  stop : ∀ s b e more, Inv s → step s b (.stop e) → ¬Cut s b more →
    ∃ e', Runs step s (b ++ more) (.stopped e') ∧ obs (.stopped e') = obs (.stopped e)

variable {Inv : σ → Prop} {obs : Outcome σ α ε → ω} {Cut : σ → List α → List α → Prop}

/-- A step lemma carried over the steps of a run. -/
theorem Extends.steps (h : Extends step Inv obs Cut) {s t : σ} {b c more : List α}
    (hst : Steps step s b t c) (hs : Inv s) (hcut : ∀ t d, Steps step s b t d → ¬Cut t d more) {x : Outcome σ α ε}
    (hx : Runs step t (c ++ more) x) : ∃ x', Runs step s (b ++ more) x' ∧ obs x' = obs x := by
  induction hst with
  | refl => exact ⟨x, hx, rfl⟩
  | @next s s' t b b' c hstep _ ih =>
    obtain ⟨x', hx', heq⟩ := ih (h.inv _ _ _ _ hs hstep) (fun t d ht => hcut t d (Steps.next hstep ht)) hx
    obtain ⟨x'', hx'', heq'⟩ := h.next _ _ _ _ more x' hs hstep (hcut s b (Steps.refl s b)) hx'
    exact ⟨x'', hx'', heq'.trans heq⟩

/-- The pieces that are still to come, wherever a machine stops. -/
inductive Whole (step : σ → List α → Step σ α ε → Prop) (Cut : σ → List α → List α → Prop) :
    σ → List α → List (List α) → Prop where
  | nil (s : σ) (b : List α) : Whole step Cut s b []
  | cons {s : σ} {b c : List α} {cs : List (List α)} :
    (∀ t d, Steps step s (b ++ c) t d → ¬Cut t d cs.flatten) →
    (∀ t d, Runs step s (b ++ c) (.waiting t d) → Whole step Cut t d cs) → Whole step Cut s b (c :: cs)

/-- However the input is cut into pieces, the outcome is that of the whole input. -/
theorem Extends.feeds (h : Extends step Inv obs Cut) {s : σ} {b : List α} {cs : List (List α)}
    {x : Outcome σ α ε} (hx : Feeds step s b cs x) (hs : Inv s) (hw : Whole step Cut s b cs)
    (hwait : cs = [] → step s b .wait) : ∃ x', Runs step s (b ++ cs.flatten) x' ∧ obs x' = obs x := by
  induction hx with
  | nil s b =>
    refine ⟨.waiting s b, ?_, rfl⟩
    rw [List.flatten_nil, List.append_nil]
    exact Runs.wait (hwait rfl)
  | @wait s s' b b' c cs x hr _ ih =>
    cases hw with
    | cons hcut hrest =>
      obtain ⟨t, d, hst, ⟨hwt, heq⟩ | ⟨e, _, heq⟩⟩ := hr.steps
      · cases heq
        obtain ⟨x', hx', hobs⟩ := ih (hst.invariant h.inv hs) (hrest s' b' hr) fun _ => hwt
        obtain ⟨x'', hx'', hobs'⟩ := h.steps hst hs hcut hx'
        refine ⟨x'', ?_, hobs'.trans hobs⟩
        rwa [List.flatten_cons, ← List.append_assoc]
      · cases heq
  | @stop s b c cs e hr =>
    cases hw with
    | cons hcut _ =>
      obtain ⟨t, d, hst, ⟨_, heq⟩ | ⟨e', he, heq⟩⟩ := hr.steps
      · cases heq
      · cases heq
        obtain ⟨e', hx', hobs⟩ := h.stop t d e cs.flatten (hst.invariant h.inv hs) he (hcut t d hst)
        obtain ⟨x'', hx'', hobs'⟩ := h.steps hst hs hcut hx'
        refine ⟨x'', ?_, hobs'.trans hobs⟩
        rwa [List.flatten_cons, ← List.append_assoc]

end Dcpp.Incremental
