import Dcpp.Bytes
import Dcpp.Library.Keyed
import Dcpp.Library.Runs

-- The workers of the queue that run in the background, `FileMover` and `Rechecker`: the jobs come through a queue,
-- and a flag tells whether the thread runs.
namespace Dcpp.BackgroundWorker

/-- What a caller of `moveFile` or `add` still has to do after it has pushed its job. -/
inductive Caller where
  | test
  | start
deriving DecidableEq

/-- Where `run` is: before it pops, at a job, or at its return with the flag still set. -/
inductive Worker (J : Type) where
  | pop
  | process (next : J)
  | leave
deriving DecidableEq

/-- `J` holds the jobs, pairs of paths or paths. -/
structure State (J : Type) where
  files : List J
  active : Bool
  callers : List Caller
  workers : List (Worker J)
  processed : List J
deriving DecidableEq

abbrev FilePair := Bytes × Bytes

inductive Event (J : Type) where
  | push (file : J)
  | caller (i : Nat)
  | worker (k : Nat)
deriving DecidableEq

variable {J : Type}

def start : State J := ⟨[], false, [], [], []⟩

/-- The next step of a caller. -/
def call (i : Nat) (s : State J) : Caller → State J
  | .test =>
    if s.active then { s with callers := s.callers.eraseIdx i }
    else { s with active := true, callers := s.callers.set i .start }
  | .start => { s with callers := s.callers.eraseIdx i, workers := s.workers ++ [.pop] }

/-- The next step of `run`; the flag is cleared when it has returned. -/
def work (k : Nat) (s : State J) : Worker J → State J
  | .pop =>
    match s.files with
    | [] => { s with workers := s.workers.set k .leave }
    | next :: files => { s with files := files, workers := s.workers.set k (.process next) }
  | .process next => { s with workers := s.workers.set k .pop, processed := s.processed ++ [next] }
  | .leave => { s with active := false, workers := s.workers.eraseIdx k }

def step (s : State J) : Event J → Option (State J)
  | .push file => some { s with files := s.files ++ [file], callers := s.callers ++ [.test] }
  | .caller i => s.callers[i]?.map (call i s)
  | .worker k => s.workers[k]?.map (work k s)

def Worker.inHand : Worker J → List J
  | .process next => [next]
  | _ => []

def pushed (events : List (Event J)) : List J :=
  events.flatMap fun e => match e with
    | .push file => [file]
    | _ => []

/-- The flag is set as long as a thread is to be started or runs, and no job gets out of the way from the queue to the
worker. -/
structure Inv (events : List (Event J)) (s : State J) : Prop where
  single : (s.callers.countP fun c => c = .start) + s.workers.length = s.active.toNat
  jobs : s.processed ++ s.workers.flatMap Worker.inHand ++ s.files = pushed events

/-- There are not two runs of the worker, and when nothing more is to happen every job is processed. -/
structure Served (events : List (Event J)) (s : State J) : Prop where
  one : s.workers.length ≤ 1
  all : s.callers = [] → s.workers = [] → s.files = [] ∧ s.processed = pushed events

/-- When the flag is cleared no job has come, or a caller has still to look at the flag. -/
def Clears (s : State J) : Event J → Prop
  | .worker k => s.workers[k]? = some .leave → s.files = [] ∨ s.callers ≠ []
  | _ => True

theorem pushed_append (es es' : List (Event J)) : pushed (es ++ es') = pushed es ++ pushed es' := List.flatMap_append

theorem Inv.length_le {events : List (Event J)} {s : State J} (h : Inv events s) : s.workers.length ≤ 1 :=
  Nat.le_trans (Nat.le_add_left _ _) (Nat.le_trans (Nat.le_of_eq h.single) (Bool.toNat_le _))

/-- With a single worker it is the one that is at its step. -/
theorem Inv.workers_eq {events : List (Event J)} {s : State J} (h : Inv events s) {k : Nat} {w : Worker J}
    (hw : s.workers[k]? = some w) : k = 0 ∧ s.workers = [w] := by
  have hle := h.length_le
  obtain ⟨hk, hget⟩ := List.getElem?_eq_some_iff.mp hw
  have hzero : k = 0 := by omega
  subst hzero
  obtain ⟨v, hv⟩ := List.length_eq_one_iff.mp (Nat.le_antisymm hle hk)
  refine ⟨rfl, ?_⟩
  rw [hv] at hw ⊢
  rw [Option.some.inj hw]

variable {events : List (Event J)} {s : State J}

theorem start_inv : Inv ([] : List (Event J)) start := ⟨rfl, rfl⟩

theorem push_inv (h : Inv events s) (file : J) :
    Inv (events ++ [.push file]) { s with files := s.files ++ [file], callers := s.callers ++ [.test] } := by
  constructor
  · rw [List.countP_append]
    exact h.single
  · rw [pushed_append, ← h.jobs, List.append_assoc _ s.files]
    rfl

theorem call_inv (h : Inv events s) {i : Nat} {c : Caller} (hc : s.callers[i]? = some c) :
    Inv (events ++ [.caller i]) (call i s c) := by
  have hjobs : pushed (events ++ [.caller i]) = pushed events := by
    rw [pushed_append]
    exact List.append_nil _
  have hsingle := h.single
  have herase := Keyed.countP_eraseIdx hc fun c => c = .start
  have hset := Keyed.countP_set hc (fun c => c = .start) .start
  cases c with
  | test =>
    rw [call]
    split
    next hactive =>
      refine ⟨?_, hjobs.symm ▸ h.jobs⟩
      rw [hactive] at hsingle
      simp only [decide_false, reduceCtorEq, Bool.toNat_false] at herase
      dsimp only
      rw [hactive]
      omega
    next hactive =>
      refine ⟨?_, hjobs.symm ▸ h.jobs⟩
      rw [Bool.not_eq_true] at hactive
      rw [hactive] at hsingle
      simp only [decide_false, decide_true, reduceCtorEq, Bool.toNat_false, Bool.toNat_true] at hset hsingle ⊢
      omega
  | start =>
    rw [call]
    constructor
    · simp only [decide_true, Bool.toNat_true, List.length_append, List.length_singleton] at herase ⊢
      omega
    · rw [hjobs, ← h.jobs, List.flatMap_append]
      simp only [List.flatMap_cons, Worker.inHand, List.flatMap_nil, List.append_nil]

theorem work_inv (h : Inv events s) {k : Nat} {w : Worker J} (hw : s.workers[k]? = some w) :
    Inv (events ++ [.worker k]) (work k s w) := by
  have hpushed : pushed (events ++ [.worker k]) = pushed events := by
    rw [pushed_append]
    exact List.append_nil _
  obtain ⟨rfl, hone⟩ := h.workers_eq hw
  obtain ⟨hsingle, hjobs⟩ := h
  rw [← hpushed] at hjobs
  rw [hone] at hsingle hjobs
  cases w with
  | pop =>
    rw [work]
    cases hfiles : s.files with
    | nil =>
      rw [hfiles] at hjobs
      dsimp only
      rw [hone]
      exact ⟨hsingle, hjobs⟩
    | cons next files =>
      rw [hfiles] at hjobs
      dsimp only
      rw [hone]
      refine ⟨hsingle, ?_⟩
      rw [← hjobs]
      simp [Worker.inHand]
  | process next =>
    rw [work, hone]
    refine ⟨hsingle, ?_⟩
    rw [← hjobs]
    simp [Worker.inHand]
  | leave =>
    rw [work, hone]
    refine ⟨?_, ?_⟩
    · rw [List.length_singleton] at hsingle
      have := Bool.toNat_le s.active
      dsimp only [List.eraseIdx_cons_zero]
      rw [Bool.toNat_false, List.length_nil]
      omega
    · rw [← hjobs]
      simp [Worker.inHand]

/-- What one step leaves. -/
theorem step_inv (h : Inv events s) {e : Event J} {t : State J} (ht : step s e = some t) : Inv (events ++ [e]) t := by
  cases e with
  | push file =>
    obtain rfl := Option.some.inj ht
    exact push_inv h file
  | caller i =>
    obtain ⟨c, hc, rfl⟩ := Option.map_eq_some_iff.mp ht
    exact call_inv h hc
  | worker k =>
    obtain ⟨w, hw, rfl⟩ := Option.map_eq_some_iff.mp ht
    exact work_inv h hw

theorem run_inv (hs : Runs.run step start events = some s) : Inv events s := by
  induction events using List.reverseRecOn generalizing s with
  | nil =>
    obtain rfl := Option.some.inj hs
    exact start_inv
  | append_singleton es e ih =>
    rw [Runs.run_append, Option.bind_eq_some_iff] at hs
    obtain ⟨r, hr, hs⟩ := hs
    rw [Runs.run_singleton] at hs
    exact step_inv (ih hr) hs

/-- When nothing is pending and no job is left every job has been processed. -/
theorem Inv.processed_eq (h : Inv events s) (hw : s.workers = []) (hf : s.files = []) : s.processed = pushed events := by
  rw [← h.jobs, hw, hf, List.flatMap_nil, List.append_nil, List.append_nil]

/-- After a step that meets the condition another one is pending as long as a job is in the queue. -/
theorem step_pending (h : Inv events s) {e : Event J} (hm : Clears s e) {t : State J} (ht : step s e = some t) : t.files ≠ [] → t.callers ≠ [] ∨ t.workers ≠ [] := by
  have hinv := step_inv h ht
  intro hfiles
  cases e with
  | push file =>
    obtain rfl := Option.some.inj ht
    exact Or.inl (List.append_ne_nil_of_right_ne_nil _ (List.cons_ne_nil _ _))
  | caller i =>
    obtain ⟨c, hc, rfl⟩ := Option.map_eq_some_iff.mp ht
    cases c with
    | test =>
      rw [call] at hinv hfiles ⊢
      split at hinv
      next hactive =>
        rw [if_pos hactive] at hfiles ⊢
        by_cases hnone : s.workers = []
        · -- another caller is to start the thread
          refine Or.inl fun hcallers => ?_
          have hsingle := hinv.single
          dsimp only at hcallers hsingle
          rw [hcallers, hnone, hactive] at hsingle
          cases hsingle
        · exact Or.inr hnone
      next hactive =>
        rw [if_neg hactive]
        refine Or.inl fun hcallers => ?_
        have hlen := congrArg List.length hcallers
        rw [List.length_set] at hlen
        rw [List.length_eq_zero_iff.mp hlen] at hc
        cases hc
    | start => exact Or.inr (List.append_ne_nil_of_right_ne_nil _ (List.cons_ne_nil _ _))
  | worker k =>
    obtain ⟨w, hw, rfl⟩ := Option.map_eq_some_iff.mp ht
    obtain ⟨rfl, hone⟩ := h.workers_eq hw
    cases w with
    | pop =>
      rw [work, hone]
      refine Or.inr ?_
      split <;> exact List.cons_ne_nil _ _
    | process next =>
      rw [work, hone]
      exact Or.inr (List.cons_ne_nil _ _)
    | leave =>
      obtain hempty | hcallers := hm hw
      · exact absurd hempty hfiles
      · exact Or.inl hcallers

theorem run_pending (hm : Runs.Each step Clears start events) (hs : Runs.run step start events = some s) :
    s.files ≠ [] → s.callers ≠ [] ∨ s.workers ≠ [] := by
  induction events using List.reverseRecOn generalizing s with
  | nil =>
    obtain rfl := Option.some.inj hs
    exact fun hfiles => absurd rfl hfiles
  | append_singleton es e _ =>
    obtain ⟨_, he⟩ := Runs.each_append_singleton hm
    rw [Runs.run_append, Option.bind_eq_some_iff] at hs
    obtain ⟨r, hr, hs⟩ := hs
    rw [Runs.run_singleton] at hs
    exact step_pending (run_inv hr) (he r hr) hs

/-- No job is lost in a run exactly if every time the flag is cleared the queue is empty or a caller has still to look
at the flag. -/
theorem run_served_iff (events : List (Event J)) :
    (∀ i t, Runs.run step start (events.take i) = some t → Served (events.take i) t) ↔
      Runs.Each step Clears start events := by
  constructor
  · intro h i hi s hs
    cases he : events[i] with
    | push | caller => trivial
    | worker k =>
      intro hw
      by_contra hlost
      rw [not_or, not_not] at hlost
      have hone := ((run_inv hs).workers_eq hw).2
      obtain rfl := ((run_inv hs).workers_eq hw).1
      have ht : Runs.run step start (events.take (i + 1)) = some (work 0 s .leave) := by
        rw [Runs.run_take_succ hi, hs, Option.bind_some, he, step, hw]
        rfl
      have hempty : (work 0 s .leave).workers = [] := by rw [work, hone]; rfl
      exact hlost.1 ((h (i + 1) _ ht).all hlost.2 hempty).1
  · intro h i t ht
    have hinv := run_inv ht
    refine ⟨hinv.length_le, fun hcallers hworkers => ?_⟩
    have hfiles : t.files = [] := by
      by_contra hfiles
      exact (run_pending (Runs.each_take h i) ht hfiles).elim (fun hc => hc hcallers) fun hw => hw hworkers
    exact ⟨hfiles, hinv.processed_eq hworkers hfiles⟩

/-- A second job comes when the worker has found the queue empty, and its caller finds the flag set. -/
def lostJob : List (Event FilePair) :=
  [.push (str "/t/a", str "/d/a"), .caller 0, .caller 0, .worker 0, .worker 0, .worker 0,
    .push (str "/t/b", str "/d/b"), .caller 0, .worker 0]

theorem not_run_served :
    ¬∀ i t, Runs.run step start (lostJob.take i) = some t → Served (lostJob.take i) t := by
  intro h
  have hs : Runs.run step start (lostJob.take 9) =
      some ⟨[(str "/t/b", str "/d/b")], false, [], [], [(str "/t/a", str "/d/a")]⟩ := by decide
  exact absurd ((h 9 _ hs).all rfl rfl).1 (by decide)

end Dcpp.BackgroundWorker
