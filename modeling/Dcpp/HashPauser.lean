import Dcpp.Hasher

-- The guards that pause hashing while a share is read, beside the user's own pauses.
namespace Dcpp.HashManager.HashPauser

open Hasher (UINT_SIZE increment)

/-- `pausers` has the flag `resume` of each `HashPauser` that is alive, and `requested` tells whether
the user has paused hashing and not resumed it. -/
structure State where
  hasher : Hasher
  pausers : List Bool
  requested : Bool
deriving DecidableEq

/-- The user's `pauseHashing` and `resumeHashing` are those of the hasher. -/
inductive Event where
  | construct
  | destroy (i : Nat)
  | hasher (e : Hasher.Event)

def construct (s : State) : State :=
  { s with hasher := s.hasher.pause.2, pausers := (!s.hasher.pause.1) :: s.pausers }

def destroy (i : Nat) (s : State) : Option State :=
  s.pausers[i]?.map fun resume =>
    { s with hasher := if resume then s.hasher.resume else s.hasher, pausers := s.pausers.eraseIdx i }

def request (requested : Bool) : Hasher.Event → Bool
  | .pause => true
  | .resume => false
  | _ => requested

def step (s : State) : Event → Option State
  | .construct => some (construct s)
  | .destroy i => destroy i s
  | .hasher e => (Hasher.step s.hasher e).map fun h => { s with hasher := h, requested := request s.requested e }

def start : State := ⟨Hasher.start, [], false⟩

def run (s : State) (events : List Event) : Option State := Runs.run step s events

/-- The event calls `resume`. -/
def Resumes (s : State) : Event → Prop
  | .construct => False
  | .destroy i => s.pausers[i]? = some true
  | .hasher e => e = .resume

/-- The hasher is paused while a `HashPauser` is alive and while the user has it paused. -/
structure Respected (s : State) : Prop where
  pausers : s.pausers ≠ [] → s.hasher.isPaused = true
  requested : s.requested = true → s.hasher.isPaused = true

/-- The event does not take the counter below zero, and pauses are respected after it. -/
def Accounts (s : State) (e : Event) : Prop :=
  (Resumes s e → 0 < s.hasher.paused) ∧ ∀ t, step s e = some t → Respected t

/-- A `HashPauser` that has paused hashing outlives the others and ends when the user has not asked
for a pause, the user resumes hashing that is paused when no `HashPauser` is alive, and the counter
is not raised from its maximum. -/
def Meets (s : State) : Event → Prop
  | .construct => s.hasher.paused + 1 < UINT_SIZE
  | .destroy i => s.pausers[i]? = some true → s.pausers.length = 1 ∧ s.requested = false
  | .hasher e => (e = .resume → 0 < s.hasher.paused ∧ s.pausers = []) ∧
    (s.hasher.Raises e → s.hasher.paused + 1 < UINT_SIZE)

/-- What holds in every run whose steps meet their conditions. -/
structure Inv (s : State) : Prop where
  lt : s.hasher.paused < UINT_SIZE
  respected : Respected s
  cause : 0 < s.hasher.paused → s.requested = true ∨ true ∈ s.pausers

theorem respected_iff {s : State} :
    Respected s ↔ (s.pausers ≠ [] → 0 < s.hasher.paused) ∧ (s.requested = true → 0 < s.hasher.paused) := by
  have hpaused : s.hasher.isPaused = true ↔ 0 < s.hasher.paused := decide_eq_true_iff
  exact ⟨fun h => ⟨fun hp => hpaused.mp (h.pausers hp), fun hr => hpaused.mp (h.requested hr)⟩,
    fun h => ⟨fun hp => hpaused.mpr (h.1 hp), fun hr => hpaused.mpr (h.2 hr)⟩⟩

theorem increment_pos {n : Nat} (h : n < UINT_SIZE) : 0 < increment n ↔ n + 1 < UINT_SIZE := by
  obtain hlt | heq : n + 1 < UINT_SIZE ∨ n + 1 = UINT_SIZE := by omega
  · rw [Hasher.increment_eq hlt]
    exact ⟨fun _ => hlt, fun _ => Nat.succ_pos n⟩
  · rw [increment, heq, Nat.mod_self]
    omega

theorem start_inv : Inv start where
  lt := by
    dsimp only [start, Hasher.start]
    exact Hasher.uint_size_pos
  respected := respected_iff.mpr ⟨fun h => absurd rfl h, nofun⟩
  cause := nofun

section

variable {s : State}

/-- A `HashPauser` that was to resume hashing ends. -/
theorem destroy_eq {i : Nat} (h : s.pausers[i]? = some true) :
    destroy i s = some { s with hasher := s.hasher.resume, pausers := s.pausers.eraseIdx i } := by
  rw [destroy, h, Option.map_some, if_pos rfl]

theorem pausers_ne_nil {i : Nat} {resume : Bool} (h : s.pausers[i]? = some resume) : s.pausers ≠ [] := by
  intro hnil
  rw [hnil] at h
  cases h

theorem construct_meets (h : Inv s) : Meets s .construct ↔ Accounts s .construct := by
  refine (increment_pos h.lt).symm.trans ⟨fun hp => ⟨False.elim, fun t ht => ?_⟩, fun ha => ?_⟩
  · obtain rfl := Option.some.inj ht
    exact respected_iff.mpr ⟨fun _ => hp, fun _ => hp⟩
  · exact (respected_iff.mp (ha.2 _ rfl)).1 (List.cons_ne_nil _ _)

theorem destroy_meets (h : Inv s) (i : Nat) : Meets s (.destroy i) ↔ Accounts s (.destroy i) := by
  obtain ⟨hpausers, hrequested⟩ := respected_iff.mp h.respected
  constructor
  · intro hm
    refine ⟨fun hi => hpausers (pausers_ne_nil hi), fun t ht => respected_iff.mpr ?_⟩
    obtain ⟨resume, hi, rfl⟩ := Option.map_eq_some_iff.mp ht
    cases resume with
    | false => exact ⟨fun _ => hpausers (pausers_ne_nil hi), hrequested⟩
    | true =>
      obtain ⟨hlen, hno⟩ := hm hi
      obtain ⟨hlt, -⟩ := List.getElem?_eq_some_iff.mp hi
      refine ⟨fun hne => absurd ?_ hne, fun hr => ?_⟩
      · have hnil : (s.pausers.eraseIdx i).length = 0 := by
          rw [List.length_eraseIdx_of_lt hlt, hlen]
        exact List.length_eq_zero_iff.mp hnil
      · rw [hno] at hr
        cases hr
  · intro ha hi
    have hr := respected_iff.mp (ha.2 _ (destroy_eq hi))
    obtain ⟨hlt, -⟩ := List.getElem?_eq_some_iff.mp hi
    dsimp only at hr
    rw [Hasher.resume_paused] at hr
    constructor
    · have hnil : (s.pausers.eraseIdx i).length = 0 :=
        List.length_eq_zero_iff.mpr (by_contra fun hne => Nat.lt_irrefl 0 (hr.1 hne))
      rw [List.length_eraseIdx_of_lt hlt] at hnil
      omega
    · exact Bool.eq_false_iff.mpr fun hrequest => Nat.lt_irrefl 0 (hr.2 hrequest)

theorem hasher_meets (h : Inv s) (e : Hasher.Event) : Meets s (.hasher e) ↔ Accounts s (.hasher e) := by
  obtain ⟨hpausers, hrequested⟩ := respected_iff.mp h.respected
  constructor
  · intro ⟨hresume, hraise⟩
    refine ⟨fun he => (hresume he).1, fun t ht => respected_iff.mpr ?_⟩
    obtain ⟨g, hg, rfl⟩ := Option.map_eq_some_iff.mp ht
    obtain ⟨hr, hp⟩ | ⟨hr, ⟨rfl, hp⟩ | ⟨hne, hp⟩⟩ := Hasher.step_paused hg
    · have hpos : 0 < g.paused := hp ▸ (increment_pos h.lt).mpr (hraise hr)
      exact ⟨fun _ => hpos, fun _ => hpos⟩
    · exact ⟨fun hne => absurd (hresume rfl).2 hne, nofun⟩
    · have hsame : request s.requested e = s.requested := by
        cases e with
        | pause => exact absurd trivial hr
        | resume => exact absurd rfl hne
        | _ => rfl
      dsimp only
      rw [hp, hsame]
      exact ⟨hpausers, hrequested⟩
  · intro ha
    refine ⟨fun he => ⟨ha.1 he, ?_⟩, fun hr => ?_⟩
    · subst he
      have hafter := (respected_iff.mp (ha.2 _ rfl)).1
      dsimp only at hafter
      rw [Hasher.resume_paused] at hafter
      exact by_contra fun hne => Nat.lt_irrefl 0 (hafter hne)
    · obtain ⟨g, hg, hp⟩ := Hasher.step_of_raises hr
      have hafter := respected_iff.mp (ha.2 { s with hasher := g, requested := request s.requested e }
        (Option.map_eq_some_iff.mpr ⟨g, hg, rfl⟩))
      dsimp only at hafter
      rw [hp, increment_pos h.lt] at hafter
      by_cases hpause : e = .pause
      · subst hpause
        exact hafter.2 rfl
      · have hsame : request s.requested e = s.requested := by
          cases e with
          | pause => exact absurd rfl hpause
          | resume => exact hr.elim
          | _ => rfl
        obtain hrequest | hflag := h.cause (Hasher.raises_pos hr hpause)
        · exact hafter.2 (hsame.trans hrequest)
        · exact hafter.1 (List.ne_nil_of_mem hflag)

theorem meets_iff (h : Inv s) (e : Event) : Meets s e ↔ Accounts s e := by
  cases e with
  | construct => exact construct_meets h
  | destroy i => exact destroy_meets h i
  | hasher e => exact hasher_meets h e

theorem step_lt (h : s.hasher.paused < UINT_SIZE) {e : Event} {t : State} (ht : step s e = some t) :
    t.hasher.paused < UINT_SIZE := by
  cases e with
  | construct =>
    obtain rfl := Option.some.inj ht
    exact Hasher.increment_lt _
  | destroy i =>
    obtain ⟨resume, -, rfl⟩ := Option.map_eq_some_iff.mp ht
    dsimp only
    split_ifs
    · rw [Hasher.resume_paused]
      exact Hasher.uint_size_pos
    · exact h
  | hasher e =>
    obtain ⟨g, hg, rfl⟩ := Option.map_eq_some_iff.mp ht
    dsimp only
    obtain ⟨-, hp⟩ | ⟨-, ⟨-, hp⟩ | ⟨-, hp⟩⟩ := Hasher.step_paused hg
    · rw [hp]
      exact Hasher.increment_lt _
    · rw [hp]
      exact Hasher.uint_size_pos
    · rwa [hp]

/-- The counter is positive because of the user, or because of a `HashPauser` that will resume. -/
theorem step_cause (h : Inv s) {e : Event} {t : State} (ht : step s e = some t)
    (hpos : 0 < t.hasher.paused) : t.requested = true ∨ true ∈ t.pausers := by
  cases e with
  | construct =>
    obtain rfl := Option.some.inj ht
    by_cases hp : s.hasher.paused = 0
    · refine Or.inr (List.mem_cons.mpr (Or.inl ?_))
      rw [Hasher.pause, hp]
      rfl
    · exact (h.cause (Nat.pos_of_ne_zero hp)).imp_right (List.mem_cons_of_mem _)
  | destroy i =>
    obtain ⟨resume, hi, rfl⟩ := Option.map_eq_some_iff.mp ht
    cases resume with
    | true =>
      dsimp only at hpos
      rw [if_pos rfl, Hasher.resume_paused] at hpos
      exact absurd hpos (Nat.lt_irrefl 0)
    | false =>
      refine (h.cause hpos).imp_right fun hflag => ?_
      obtain ⟨j, hj⟩ := List.mem_iff_getElem?.mp hflag
      have hne : j ≠ i := by
        rintro rfl
        rw [hj] at hi
        cases hi
      exact List.mem_eraseIdx_iff_getElem?.mpr ⟨j, hne, hj⟩
  | hasher e =>
    obtain ⟨g, hg, rfl⟩ := Option.map_eq_some_iff.mp ht
    cases e with
    | pause => exact Or.inl rfl
    | resume =>
      obtain rfl := Option.some.inj hg
      dsimp only at hpos
      rw [Hasher.resume_paused] at hpos
      exact absurd hpos (Nat.lt_irrefl 0)
    | _ =>
      refine h.cause ?_
      obtain ⟨hr, -⟩ | ⟨-, ⟨-, hp⟩ | ⟨-, hp⟩⟩ := Hasher.step_paused hg
      · exact Hasher.raises_pos hr nofun
      · exact absurd (hp ▸ hpos) (Nat.lt_irrefl 0)
      · exact hp ▸ hpos

theorem step_inv (h : Inv s) {e : Event} (hm : Meets s e) {t : State} (ht : step s e = some t) : Inv t :=
  ⟨step_lt h.lt ht, ((meets_iff h e).mp hm).2 t ht, step_cause h ht⟩

end

/-- The counter stays above zero and every pause is respected in exactly the runs whose steps meet
their conditions. -/
theorem pauses_respected (events : List Event) :
    Runs.Each step Accounts start events ↔ Runs.Each step Meets start events :=
  (Runs.each_congr (fun _ _ _ h hm ht => step_inv h hm ht) (fun _ e h => meets_iff h e) start_inv events).symm

theorem respected_of_run {events : List Event} {t : State} (h : Runs.Each step Accounts start events)
    (ht : run start events = some t) : Respected t :=
  Runs.run_preserves (fun _ _ t _ hm ht => hm.2 t ht) start_inv.respected h ht

/-- The user finds hashing paused while a share is read, and resumes it. -/
def resumedMeanwhile : List Event := [.construct, .hasher .resume]

/-- Files are hashed though the `HashPauser` is alive; when it ends, the counter goes below zero. -/
theorem not_pauses_respected : ¬∀ events, Runs.Each step Accounts start events := by
  intro h
  have hrun : (run start resumedMeanwhile).any (fun t => !t.pausers.isEmpty && !t.hasher.isPaused) = true := by
    decide
  obtain ⟨t, ht, hp⟩ := (Option.any_eq_true _ _).mp hrun
  rw [Bool.and_eq_true, Bool.not_eq_true', List.isEmpty_eq_false_iff, Bool.not_eq_true'] at hp
  have hrespected := respected_of_run (h resumedMeanwhile) ht
  exact Bool.false_ne_true (hp.2.symm.trans (hrespected.pausers hp.1))

end Dcpp.HashManager.HashPauser
