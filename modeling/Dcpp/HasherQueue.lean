import Dcpp.Hasher

-- The semaphore of the hasher has a signal for every file that waits.
namespace Dcpp.HashManager.Hasher

/-- The worker has taken a signal and not yet the file it stands for; an ended worker keeps it. -/
def Worker.owes : Worker → Nat
  | .woken => 1
  | .testing => 1
  | .taking => 1
  | .ended => 1
  | _ => 0

/-- The worker has raised the pause counter and not yet taken a signal. -/
def Worker.lends : Worker → Nat
  | .pausing _ => 1
  | _ => 0

/-- The worker has still to take a signal for the rebuild that is scheduled. -/
def Worker.rebuilds (rebuild : Bool) : Worker → Nat
  | .rebuilding => 0
  | _ => rebuild.toNat

/-- The signals that are there and those that `resume` and the calls under way release. -/
def signalled (h : Hasher) : Nat := h.s + (h.paused - 1) + h.calls.length

structure Covered (h : Hasher) : Prop where
  lt : h.paused < UINT_SIZE
  covers : h.w.length + h.worker.rebuilds h.rebuild + h.worker.lends ≤ h.signalled + h.worker.owes
  rebuild : h.worker = .taking → h.rebuild.toNat ≤ h.signalled

/-- `resume` is called while hashing is paused, and the counter is not raised from its maximum. -/
def Meets (h : Hasher) (e : Event) : Prop :=
  (e = .resume → 0 < h.paused) ∧ (h.Raises e → h.paused + 1 < UINT_SIZE)

instance (h : Hasher) (e : Event) : Decidable (Meets h e) :=
  inferInstanceAs (Decidable ((e = .resume → 0 < h.paused) ∧ (h.Raises e → h.paused + 1 < UINT_SIZE)))

theorem start_covered : Covered start where
  lt := uint_size_pos
  covers := Nat.le_refl 0
  rebuild := nofun

section

variable {h t : Hasher}

theorem work_covered (hc : Covered h) {chunk : Bool} (hm : h.Raises (.work chunk) → h.paused + 1 < UINT_SIZE)
    (ht : Works h chunk t) : Covered t := by
  obtain ⟨hlt, hcovers, hrebuild⟩ := hc
  cases ht with
  | wake hw hs =>
    refine ⟨hlt, ?_, nofun⟩
    simp only [signalled, hw, Worker.owes, Worker.lends, Worker.rebuilds] at hcovers ⊢
    omega
  | testStop hw =>
    cases hstop : h.stop with
    | true =>
      refine ⟨hlt, ?_, nofun⟩
      simp only [signalled, hw, if_true, Worker.owes, Worker.lends, Worker.rebuilds] at hcovers ⊢
      omega
    | false =>
      refine ⟨hlt, ?_, nofun⟩
      simp only [signalled, hw, Bool.false_eq_true, if_false, Worker.owes, Worker.lends, Worker.rebuilds] at hcovers ⊢
      omega
  | testRebuild hw =>
    cases hr : h.rebuild with
    | true =>
      refine ⟨hlt, ?_, nofun⟩
      simp only [signalled, hw, hr, if_true, Worker.owes, Worker.lends, Worker.rebuilds, Bool.toNat_true] at hcovers ⊢
      omega
    | false =>
      refine ⟨hlt, ?_, fun _ => Nat.zero_le _⟩
      simp only [signalled, hw, hr, Bool.false_eq_true, if_false, Worker.owes, Worker.lends, Worker.rebuilds,
        Bool.toNat_false] at hcovers ⊢
      omega
  | rebuild hw =>
    refine ⟨hlt, ?_, nofun⟩
    simp only [signalled, hw, Worker.owes, Worker.lends, Worker.rebuilds, Bool.toNat_false] at hcovers ⊢
    omega
  | none hw hnil =>
    refine ⟨hlt, ?_, nofun⟩
    have := hrebuild hw
    simp only [signalled, hnil, Worker.owes, Worker.lends, Worker.rebuilds, List.length_nil] at this ⊢
    omega
  | take hw hcons =>
    refine ⟨hlt, ?_, nofun⟩
    simp only [signalled, hw, hcons, Worker.owes, Worker.lends, Worker.rebuilds, List.length_cons] at hcovers ⊢
    omega
  | done hw _ =>
    refine ⟨hlt, ?_, nofun⟩
    simp only [signalled, hw, Worker.owes, Worker.lends, Worker.rebuilds] at hcovers ⊢
    omega
  | read hw _ => exact ⟨hlt, hcovers, hrebuild⟩
  | pause hw hr =>
    refine ⟨increment_lt _, ?_, nofun⟩
    have hpos := raises_pos hr nofun
    simp only [signalled, hw, increment_eq (hm hr), Worker.owes, Worker.lends, Worker.rebuilds] at hcovers ⊢
    omega
  | goOn hw hs =>
    refine ⟨hlt, ?_, nofun⟩
    simp only [signalled, hw, Worker.owes, Worker.lends, Worker.rebuilds] at hcovers ⊢
    omega

/-- What the others do: they release signals, and add a file or schedule a rebuild with one signal more
at least. -/
theorem Covered.of_signalled (hc : Covered h) (hw : t.worker = h.worker) (hlt : t.paused < UINT_SIZE)
    (hr : h.rebuild.toNat ≤ t.rebuild.toNat)
    (hs : t.rebuild.toNat + h.signalled ≤ h.rebuild.toNat + t.signalled)
    (hn : t.w.length + t.rebuild.toNat + h.signalled ≤ h.w.length + h.rebuild.toNat + t.signalled) :
    Covered t := by
  obtain ⟨-, hcovers, hrebuild⟩ := hc
  refine ⟨hlt, ?_, fun htake => ?_⟩
  · rw [hw]
    cases hworker : h.worker <;>
      simp only [hworker, Worker.owes, Worker.lends, Worker.rebuilds] at hcovers ⊢ <;> omega
  · have := hrebuild (hw ▸ htake)
    omega

theorem hashFile_covered (hc : Covered h) {fileName : Bytes} {size : Int} (hm : Meets h (.hashFile fileName size)) :
    Covered (hashFile fileName size h) := by
  obtain ⟨heq, -⟩ | ⟨w, hi, hlen, ⟨hp, heq⟩ | ⟨hp, heq⟩⟩ := hashFile_cases fileName size h
  · rw [heq]
    exact hc
  · have hlt : h.paused + 1 < UINT_SIZE := hm.2 ⟨Option.isSome_iff_exists.mpr ⟨w, hi⟩, hp⟩
    rw [heq]
    refine hc.of_signalled rfl (increment_lt _) (Nat.le_refl _) ?_ ?_ <;>
      simp only [signalled, increment_eq hlt] <;> omega
  · rw [heq]
    refine hc.of_signalled rfl hc.lt (Nat.le_refl _) ?_ ?_ <;> simp only [signalled] <;> omega

theorem pause_covered (hc : Covered h) (hm : Meets h .pause) : Covered h.pause.2 := by
  refine hc.of_signalled rfl (increment_lt _) (Nat.le_refl _) ?_ ?_ <;>
    simp only [pause, signalled, increment_eq (hm.2 trivial)] <;> omega

theorem resume_covered (hc : Covered h) (hm : Meets h .resume) : Covered h.resume := by
  have hpos := hm.1 rfl
  rw [resume_eq, decrement_eq hpos hc.lt]
  refine hc.of_signalled rfl uint_size_pos (Nat.le_refl _) ?_ ?_ <;> simp only [signalled] <;> omega

theorem stopHashing_covered (hc : Covered h) (baseDir : Bytes) : Covered (stopHashing baseDir h) := by
  have hlen := List.length_filter_le (fun i => !strncmp baseDir.length baseDir i.1) h.w
  refine hc.of_signalled rfl hc.lt (Nat.le_refl _) (Nat.le_refl _) ?_
  simp only [stopHashing, signalled]
  omega

theorem scheduleRebuild_covered (hc : Covered h) : Covered (scheduleRebuild h) := by
  have hone := Bool.toNat_le h.rebuild
  refine hc.of_signalled rfl hc.lt hone ?_ ?_ <;>
    simp only [scheduleRebuild, signalled, List.length_cons, Bool.toNat_true] <;> omega

theorem shutdown_covered (hc : Covered h) : Covered (shutdown h) := by
  refine hc.of_signalled rfl hc.lt (Nat.le_refl _) ?_ ?_ <;>
    simp only [shutdown, signalled, List.length_cons] <;> omega

theorem call_covered (hc : Covered h) {i : Nat} (ht : call i h = some t) : Covered t := by
  obtain ⟨l, hl, rfl | rfl⟩ | ⟨l, hl, rfl⟩ := call_cases ht
  all_goals
    refine hc.of_signalled rfl hc.lt (Nat.le_refl _) ?_ ?_ <;> simp only [signalled] <;> omega

theorem step_covered (hc : Covered h) {e : Event} (hm : Meets h e) (ht : step h e = some t) : Covered t := by
  cases e with
  | hashFile fileName size => exact Option.some.inj ht ▸ hashFile_covered hc hm
  | stopHashing baseDir => exact Option.some.inj ht ▸ stopHashing_covered hc baseDir
  | pause => exact Option.some.inj ht ▸ pause_covered hc hm
  | resume => exact Option.some.inj ht ▸ resume_covered hc hm
  | scheduleRebuild => exact Option.some.inj ht ▸ scheduleRebuild_covered hc
  | shutdown => exact Option.some.inj ht ▸ shutdown_covered hc
  | call i => exact call_covered hc ht
  | work chunk => exact work_covered hc hm.2 (works_of_work ht)

theorem run_covered {events : List Event} (hm : Runs.Each step Meets start events)
    (ht : Runs.run step start events = some t) : Covered t :=
  Runs.run_preserves (fun _ _ _ hc hm ht => step_covered hc hm ht) start_covered hm ht

end

/-- Every file that waits has a signal, and nothing is stuck: where files wait, hashing is not paused and
the worker waits for a signal, one is there or a call under way has still to give it. -/
theorem no_lost_wakeup {events : List Event} {t : Hasher} (hm : Runs.Each step Meets start events)
    (ht : Runs.run step start events = some t) :
    t.w.length ≤ t.s + (t.paused - 1) + t.calls.length + t.worker.owes ∧
      ((t.w ≠ [] ∧ t.worker = .waiting ∨ ∃ fname, t.worker = .pausing fname) → t.isPaused = false →
        t.calls = [] → 0 < t.s) := by
  have hcovers := (run_covered hm ht).covers
  refine ⟨?_, fun hw hp hcalls => ?_⟩
  · rw [signalled] at hcovers
    omega
  · have hzero : t.paused = 0 := Nat.eq_zero_of_not_pos (of_decide_eq_false hp)
    rw [signalled, hzero, hcalls, List.length_nil] at hcovers
    obtain ⟨hne, hwait⟩ | ⟨fname, hpause⟩ := hw
    · have hpos := List.length_pos_iff.mpr hne
      simp only [hwait, Worker.owes] at hcovers
      omega
    · simp only [hpause, Worker.owes, Worker.lends] at hcovers
      omega

/-- A file comes while hashing is paused, and the worker takes it when hashing goes on. -/
def pausedFile : List Event :=
  [.pause, .hashFile (str "/a") 1, .resume, .work false, .work false, .work false]

theorem no_lost_wakeup_pausedFile :
    ∃ t, Runs.run step start pausedFile = some t ∧ t.worker = .taking ∧
      t.w.length ≤ t.s + (t.paused - 1) + t.calls.length + t.worker.owes := by
  have hrun : (Runs.run step start pausedFile).any (fun t => t.worker = .taking) = true := by decide
  obtain ⟨t, ht, hw⟩ := (Option.any_eq_true _ _).mp hrun
  exact ⟨t, ht, of_decide_eq_true hw, (no_lost_wakeup (by decide +kernel) ht).1⟩

theorem run_pauses (n : Nat) (h : Hasher) (hlt : h.paused < UINT_SIZE) :
    Runs.run step h (List.replicate n .pause) = some { h with paused := (h.paused + n) % UINT_SIZE } := by
  induction n generalizing h with
  | zero =>
    rw [Nat.add_zero, Nat.mod_eq_of_lt hlt]
    rfl
  | succ n ih =>
    have hrest := ih h.pause.2 (increment_lt _)
    have hpaused : h.pause.2.paused = (h.paused + 1) % UINT_SIZE := rfl
    rw [hpaused, Nat.mod_add_mod, Nat.add_assoc, Nat.add_comm 1 n] at hrest
    rw [List.replicate_succ, Runs.run, List.foldlM_cons]
    exact hrest

/-- A file and a rebuild come, and the signal of the file wakes the worker. -/
def takenForRebuild : List Event :=
  [.hashFile (str "/a") 1, .scheduleRebuild, .work false, .work false, .work false, .work false]

theorem resumes_not {h : Hasher} {events : List Event} (hn : ∀ e ∈ events, e ≠ .resume) :
    Runs.Each step (fun h e => e = .resume → 0 < h.paused) h events :=
  fun _ hi _ _ he => absurd he (hn _ (List.getElem_mem hi))

/-- A file comes while hashing is paused, and the counter is raised until it is zero again. -/
theorem run_overflow :
    Runs.run step start ([.pause, .hashFile (str "/a") 1] ++ List.replicate (UINT_SIZE - 2) .pause) =
      some { start with w := [(str "/a", 1)] } := by
  have hfirst : Runs.run step start [.pause, .hashFile (str "/a") 1] =
      some { start with w := [(str "/a", 1)], paused := 2 } := by decide +kernel
  have htwo : 2 < UINT_SIZE := by decide
  have hrest := run_pauses (UINT_SIZE - 2) { start with w := [(str "/a", 1)], paused := 2 } htwo
  have hsum : 2 + (UINT_SIZE - 2) = UINT_SIZE := by omega
  dsimp only at hrest
  rw [hsum, Nat.mod_self] at hrest
  rw [Runs.run_append, hfirst, Option.bind_some, hrest]
  rfl

/-- `scheduleRebuild` sets its flag before it signals, so that the worker may take the signal of a file
for it. The pause counter loses all files when it is raised from its maximum. -/
theorem not_no_lost_wakeup :
    (¬∀ events t, Runs.Each step (fun h e => e = .resume → 0 < h.paused) start events →
      Runs.run step start events = some t → t.w.length ≤ t.s + (t.paused - 1) + t.worker.owes) ∧
    ¬∀ events t, Runs.Each step (fun h e => e = .resume → 0 < h.paused) start events →
      Runs.run step start events = some t →
        t.w.length ≤ t.s + (t.paused - 1) + t.calls.length + t.worker.owes := by
  constructor
  · intro h
    have hrun : (Runs.run step start takenForRebuild).any
        (fun t => decide (t.s + (t.paused - 1) + t.worker.owes < t.w.length)) = true := by decide
    obtain ⟨t, ht, hlt⟩ := (Option.any_eq_true _ _).mp hrun
    exact Nat.not_le.mpr (of_decide_eq_true hlt) (h takenForRebuild t (resumes_not (by decide)) ht)
  · intro h
    have hrun := run_overflow
    have hle := h _ _ (resumes_not fun e he => ?_) hrun
    · exact absurd hle (by decide)
    · obtain he | he := List.mem_append.mp he
      · exact (by decide : ∀ e ∈ [Event.pause, .hashFile (str "/a") 1], e ≠ .resume) e he
      · rw [List.eq_of_mem_replicate he]
        nofun

end Dcpp.HashManager.Hasher
