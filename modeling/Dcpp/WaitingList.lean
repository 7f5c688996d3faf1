import Dcpp.UploadManager

-- The users that wait for a slot, over the runs of the `UploadManager`.
namespace Dcpp.UploadManager

variable {U : Type} [DecidableEq U]

/-- The list has each user once, and the map has the same users. -/
structure Waiting (s : State U) : Prop where
  nodup : s.waitingUsers.Nodup
  keys : ∀ u, u ∈ s.waitingFiles.map Prod.fst ↔ u ∈ s.waitingUsers

/-- `queue_position` after the search for a user, which counts the users that it looks at. -/
def queuePosition (user : U) : List U → Nat
  | [] => 0
  | u :: users => if u = user then 1 else queuePosition user users + 1

/-- What `addFailedUpload` returns. -/
def failedUploadPosition (user : U) (s : State U) : Nat := queuePosition user s.waitingUsers

/-- The user is at the position, counted from one. -/
def IsPosition (user : U) (users : List U) (n : Nat) : Prop := 0 < n ∧ users[n - 1]? = some user

theorem queuePosition_of_mem {user : U} {users : List U} (h : user ∈ users) :
    IsPosition user users (queuePosition user users) := by
  induction users with
  | nil => cases h
  | cons u users ih =>
    rw [queuePosition]
    split
    next hu => exact ⟨Nat.one_pos, by rw [hu]; rfl⟩
    next hu =>
      obtain ⟨hpos, hget⟩ := ih (List.mem_of_ne_of_mem (Ne.symm hu) h)
      refine ⟨Nat.succ_pos _, ?_⟩
      obtain ⟨n, hn⟩ := Nat.exists_eq_add_of_lt hpos
      rw [Nat.zero_add] at hn
      rw [hn] at hget ⊢
      exact hget

/-- The search goes to the end of the list for a user that is not in it. -/
theorem queuePosition_of_notMem {user : U} {users : List U} (h : user ∉ users) :
    queuePosition user users = users.length := by
  induction users with
  | nil => rfl
  | cons u users ih =>
    rw [List.mem_cons, not_or] at h
    rw [queuePosition, if_neg (Ne.symm h.1), ih h.2, List.length_cons]

theorem waitingUsers_addFailedUpload (user : U) (filename : Bytes) (s : State U) :
    (addFailedUpload user filename s).waitingUsers =
      if user ∈ s.waitingUsers then s.waitingUsers else s.waitingUsers ++ [user] := by
  rw [addFailedUpload]
  dsimp only
  by_cases h : user ∈ s.waitingUsers
  · rw [if_pos h, if_pos (List.contains_iff_mem.mpr h)]
  · rw [if_neg h, if_neg fun hc => h (List.contains_iff_mem.mp hc)]

/-- The position is that of the user exactly if the user has been waiting. -/
theorem failedUploadPosition_iff (user : U) (filename : Bytes) (s : State U) :
    IsPosition user (addFailedUpload user filename s).waitingUsers (failedUploadPosition user s) ↔
      user ∈ s.waitingUsers := by
  rw [waitingUsers_addFailedUpload, failedUploadPosition]
  constructor
  · intro h
    by_contra hmem
    rw [if_neg hmem, queuePosition_of_notMem hmem] at h
    have hlt : s.waitingUsers.length - 1 < s.waitingUsers.length := Nat.sub_lt h.1 Nat.one_pos
    rw [IsPosition, List.getElem?_append_left hlt] at h
    exact hmem (List.mem_of_getElem? h.2)
  · intro h
    rw [if_pos h]
    exact queuePosition_of_mem h

theorem mem_insertFile {user u : U} {filename : Bytes} {files : List (U × List Bytes)} :
    u ∈ (insertFile user filename files).map Prod.fst ↔ u = user ∨ u ∈ files.map Prod.fst := by
  induction files with
  | nil => simp [insertFile]
  | cons i files ih =>
    rw [insertFile]
    split
    next hi => rw [List.map_cons, List.map_cons, List.mem_cons, List.mem_cons, hi, or_self_left]
    next => rw [List.map_cons, List.map_cons, List.mem_cons, List.mem_cons, ih, or_left_comm]

theorem addFailedUpload_waiting {s : State U} (h : Waiting s) (user : U) (filename : Bytes) :
    Waiting (addFailedUpload user filename s) := by
  have husers := waitingUsers_addFailedUpload user filename s
  constructor
  · rw [husers]
    split
    next => exact h.nodup
    next hmem =>
      exact (List.perm_append_singleton user s.waitingUsers).nodup_iff.mpr (List.nodup_cons.mpr ⟨hmem, h.nodup⟩)
  · intro u
    rw [husers]
    refine mem_insertFile.trans ?_
    rw [h.keys u]
    split
    next hmem => exact or_iff_right_of_imp fun hu => hu ▸ hmem
    next => rw [List.mem_append, List.mem_singleton, or_comm]

theorem clearUserFiles_waiting {s : State U} (h : Waiting s) (source : U) : Waiting (clearUserFiles source s) := by
  rw [clearUserFiles]
  split
  next =>
    refine ⟨h.nodup.erase source, fun u => ?_⟩
    rw [h.nodup.mem_erase_iff, ← h.keys u, List.mem_map, List.mem_map]
    constructor
    · intro ⟨i, hi, hu⟩
      rw [List.mem_filter, decide_eq_true_iff] at hi
      exact ⟨hu ▸ hi.2, i, hi.1, hu⟩
    · intro ⟨hne, i, hi, hu⟩
      exact ⟨i, List.mem_filter.mpr ⟨hi, decide_eq_true (hu ▸ hne)⟩, hu⟩
  next => exact h

omit [DecidableEq U] in
/-- A step that leaves both alone keeps them in order. -/
theorem Waiting.congr {s t : State U} (h : Waiting s) (hu : t.waitingUsers = s.waitingUsers)
    (hf : t.waitingFiles = s.waitingFiles) : Waiting t := by
  constructor
  · rw [hu]
    exact h.nodup
  · rw [hu, hf]
    exact h.keys

theorem notifyLoop_waiting (isOnline : U → Bool) (tick : Nat) (waiting : List U) (freeslots : Int) {s : State U}
    (h : Waiting s) : Waiting (notifyLoop isOnline tick waiting freeslots s) := by
  induction waiting generalizing freeslots s with
  | nil => exact h
  | cons wu waiting ih =>
    have hclear := clearUserFiles_waiting h wu
    rw [notifyLoop]
    split
    next =>
      dsimp only
      split
      next => exact ih _ (hclear.congr rfl rfl)
      next => exact ih _ hclear
    next => exact h

theorem expire_waiting (aTick : Nat) (connecting : List (U × Nat)) {s : State U} (h : Waiting s) :
    Waiting (expire aTick connecting s) := by
  induction connecting generalizing s with
  | nil => exact h
  | cons i connecting ih =>
    rw [expire]
    split
    next => exact ih ((clearUserFiles_waiting h i.1).congr rfl rfl)
    next => exact ih h

theorem dropUser_waiting {s : State U} (h : Waiting s) (user : U) (gotFullSlot : Bool) :
    Waiting (dropUser user gotFullSlot s) := by
  have hs : Waiting { s with reservedSlots := s.reservedSlots.erase user } := h.congr rfl rfl
  rw [dropUser]
  dsimp only
  split
  next => exact (clearUserFiles_waiting hs user).congr rfl rfl
  next => exact hs

omit [DecidableEq U] in
theorem gainSlot_waiting {s : State U} (h : Waiting s) (i : Nat) (c : UserConnection U) (extraSlot free : Bool) :
    Waiting (gainSlot i c extraSlot free s) := by
  rw [gainSlot]
  split
  next =>
    split
    next => exact h.congr rfl rfl
    next => exact h.congr rfl rfl
  next => exact h.congr rfl rfl

theorem startUpload_waiting {s : State U} (h : Waiting s) (i : Nat) (c : UserConnection U)
    (extraSlot gotFullSlot free : Bool) : Waiting (startUpload i c extraSlot gotFullSlot free s) := by
  have hs : Waiting { s with uploads := s.uploads ++ [i] } := h.congr rfl rfl
  rw [startUpload]
  split
  next => exact hs.congr rfl rfl
  next => exact dropUser_waiting (gainSlot_waiting hs i c extraSlot free) c.user gotFullSlot

theorem proceed_waiting {settings : Settings} {s t : State U} (h : Waiting s) {i : Nat} {a : Answers}
    {c : UserConnection U} (ht : proceed settings i a c s = some t) : Waiting t := by
  rw [proceed] at ht
  cases hp : c.place with
  | idle | removed =>
    rw [hp] at ht
    cases ht
  | askReserved | askFree | choose | removing | decrement | removingExtra | decrementExtra =>
    rw [hp] at ht
    obtain rfl := Option.some.inj ht
    exact h.congr rfl rfl
  | refused r =>
    rw [hp] at ht
    obtain rfl := Option.some.inj ht
    have hs : Waiting (setConnection i { c with place := .idle } s) := h.congr rfl rfl
    exact addFailedUpload_waiting hs _ _
  | prepare extraSlot gotFullSlot free =>
    rw [hp] at ht
    obtain rfl := Option.some.inj ht
    split
    next => exact startUpload_waiting h i c extraSlot gotFullSlot free
    next => exact h.congr rfl rfl

/-- What one event leaves. -/
theorem step_waiting {settings : Settings} {s t : State U} (h : Waiting s) {e : Event U}
    (ht : step settings s e = some t) : Waiting t := by
  cases e with
  | addConnection | reserveSlot =>
    obtain rfl := Option.some.inj ht
    exact h.congr rfl rfl
  | request i r =>
    obtain ⟨c, _, ht⟩ := Option.bind_eq_some_iff.mp ht
    rw [request] at ht
    split at ht
    next =>
      obtain rfl := Option.some.inj ht
      exact h.congr rfl rfl
    next => cases ht
  | proceed i a =>
    obtain ⟨c, _, ht⟩ := Option.bind_eq_some_iff.mp ht
    exact proceed_waiting h ht
  | transmitDone i =>
    obtain ⟨c, _, ht⟩ := Option.bind_eq_some_iff.mp ht
    rw [transmitDone] at ht
    split at ht
    next =>
      obtain rfl := Option.some.inj ht
      exact h.congr rfl rfl
    next => cases ht
  | failed i =>
    obtain ⟨c, _, ht⟩ := Option.bind_eq_some_iff.mp ht
    rw [failed] at ht
    split at ht
    next =>
      obtain rfl := Option.some.inj ht
      exact h.congr rfl rfl
    next => cases ht
  | second isOnline tick =>
    obtain rfl := Option.some.inj ht
    rw [notifyQueuedUsers]
    split
    next => exact notifyLoop_waiting isOnline tick _ _ h
    next => exact h
  | minute aTick =>
    obtain rfl := Option.some.inj ht
    exact expire_waiting aTick _ h
  | userDisconnected aUser =>
    obtain rfl := Option.some.inj ht
    exact clearUserFiles_waiting h aUser

omit [DecidableEq U] in
theorem start_waiting : Waiting (start : State U) := by
  constructor
  · exact List.nodup_nil
  · exact fun _ => Iff.rfl

/-- In every state that is reached list and map are in order, and `addFailedUpload` returns the position of exactly the
users that wait already. -/
theorem run_waiting_iff (settings : Settings) {events : List (Event U)} {s : State U}
    (hs : run settings events = some s) :
    Waiting s ∧ ∀ user filename, Waiting (addFailedUpload user filename s) ∧
      (IsPosition user (addFailedUpload user filename s).waitingUsers (failedUploadPosition user s) ↔
        user ∈ s.waitingUsers) := by
  have h : Waiting s :=
    @Runs.run_preserves _ _ (step settings) Waiting (fun _ _ => True) (fun _ _ _ h _ ht => step_waiting h ht) _ _
      start_waiting events (fun _ _ _ _ => trivial) hs
  exact ⟨h, fun user filename => ⟨addFailedUpload_waiting h user filename, failedUploadPosition_iff user filename s⟩⟩

/-- Without slots a user asks for a file and is refused. -/
def noSlots : Settings := ⟨0, 3⟩

def refusedRun : List (Event Nat) :=
  [.addConnection 7 false false, .request 0 ⟨str "/a", false⟩, .proceed 0 ⟨false, false, false⟩,
    .proceed 0 ⟨false, false, false⟩, .proceed 0 ⟨false, false, false⟩, .proceed 0 ⟨false, false, false⟩]

theorem run_waiting_iff_refusedRun : ∃ s, run noSlots refusedRun = some s ∧ Waiting s ∧ ∀ user filename,
    Waiting (addFailedUpload user filename s) ∧
      (IsPosition user (addFailedUpload user filename s).waitingUsers (failedUploadPosition user s) ↔
        user ∈ s.waitingUsers) := by
  obtain ⟨s, hs⟩ := Option.isSome_iff_exists.mp (show (run noSlots refusedRun).isSome = true by decide)
  exact ⟨s, hs, run_waiting_iff noSlots hs⟩

/-- The first user that is refused is told the position 0. -/
theorem not_run_waiting : ¬∀ s user filename, run noSlots (refusedRun.take 5) = some s →
    IsPosition user (addFailedUpload user filename s).waitingUsers (failedUploadPosition user s) := by
  intro h
  cases hs : run noSlots (refusedRun.take 5) with
  | none => exact absurd hs (by decide)
  | some s =>
    have hempty : (run noSlots (refusedRun.take 5)).map (fun s => s.waitingUsers) = some [] := by decide
    rw [hs] at hempty
    have hempty : s.waitingUsers = [] := Option.some.inj hempty
    have hpos := (h s 7 (str "/a") hs).1
    rw [failedUploadPosition, hempty] at hpos
    exact absurd hpos (by decide)

end Dcpp.UploadManager
