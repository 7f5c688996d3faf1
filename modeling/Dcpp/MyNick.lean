import Dcpp.ConnectionManager

-- What `on(MyNick)` does to the items of other users.
namespace Dcpp.ConnectionManager

variable {U C : Type} [DecidableEq C]

/-- The items that the loop goes past. -/
def passed (env : Env U C) (cid : C) (downloads : List (ConnectionQueueItem U)) : List (ConnectionQueueItem U) :=
  downloads.takeWhile fun cqi => !pending env cid cqi

def belongsTo (env : Env U C) (cqi : ConnectionQueueItem U) (cid : Option C) : Prop :=
  cqi.user.map env.getCID = cid

instance (env : Env U C) (cqi : ConnectionQueueItem U) (cid : Option C) : Decidable (belongsTo env cqi cid) :=
  inferInstanceAs (Decidable (cqi.user.map env.getCID = cid))

theorem belongsTo_of_pending {env : Env U C} {cid : C} {cqi : ConnectionQueueItem U} (h : pending env cid cqi = true) :
    belongsTo env cqi (some cid) := by
  simp only [pending, Bool.and_eq_true, decide_eq_true_eq] at h
  exact h.2

theorem passed_getElem? (env : Env U C) (cid : C) (l : List (ConnectionQueueItem U)) {i : Nat}
    (hi : i < (passed env cid l).length) : (passed env cid l)[i]? = l[i]? := by
  obtain ⟨rest, hrest⟩ := List.takeWhile_prefix (l := l) fun cqi => !pending env cid cqi
  conv_rhs => rw [← hrest]
  exact (List.getElem?_append_left hi).symm

/-- The loop changes the items that it goes past and the one at which it stops. -/
theorem resetErrors_getElem? (env : Env U C) (cid : C) (l : List (ConnectionQueueItem U)) (i : Nat) :
    (resetErrors env cid l)[i]? =
      l[i]?.map fun cqi => if i ≤ (passed env cid l).length then { cqi with errors := 0 } else cqi := by
  induction l generalizing i with
  | nil => simp [resetErrors]
  | cons cqi l ih =>
    cases i with
    | zero => simp [resetErrors]
    | succ i =>
      by_cases hp : pending env cid cqi = true
      · simp [resetErrors, passed, hp]
      · have hlen : (passed env cid (cqi :: l)).length = (passed env cid l).length + 1 := by simp [passed, hp]
        simp only [resetErrors, hp, Bool.false_eq_true, if_false, List.getElem?_cons_succ, ih, hlen, Nat.add_le_add_iff_right]

/-- The item at which the loop stops is one of the user. -/
theorem pending_of_length_passed {env : Env U C} {cid : C} {l : List (ConnectionQueueItem U)}
    {cqi : ConnectionQueueItem U} (h : l[(passed env cid l).length]? = some cqi) : pending env cid cqi = true := by
  induction l with
  | nil => simp at h
  | cons x l ih =>
    by_cases hp : pending env cid x = true
    · have hx : x = cqi := by simpa [passed, hp] using h
      exact hx ▸ hp
    · apply ih
      simpa [passed, hp] using h

/-- Items of other users that the loop goes past have no errors that it could forget. -/
def PassesNoErrors (env : Env U C) (cid : C) (downloads : List (ConnectionQueueItem U)) : Prop :=
  ∀ cqi ∈ passed env cid downloads, ¬belongsTo env cqi (some cid) → cqi.errors = 0

/-- What the loop leaves of the items of other users. -/
theorem resetErrors_leaves_iff (env : Env U C) (cid : C) (l : List (ConnectionQueueItem U)) :
    (∀ (i : Nat) cqi, l[i]? = some cqi → ¬belongsTo env cqi (some cid) → (resetErrors env cid l)[i]? = some cqi) ↔
      PassesNoErrors env cid l := by
  constructor
  · intro h cqi hcqi hother
    obtain ⟨i, hi, rfl⟩ := List.mem_iff_getElem.mp hcqi
    have hl : l[i]? = some (passed env cid l)[i] := by
      rw [← passed_getElem? env cid l hi, List.getElem?_eq_getElem hi]
    have hsame := h i _ hl hother
    rw [resetErrors_getElem?, hl, Option.map_some, if_pos (Nat.le_of_lt hi), Option.some.injEq] at hsame
    exact (congrArg ConnectionQueueItem.errors hsame).symm
  · intro h i cqi hl hother
    rw [resetErrors_getElem?, hl, Option.map_some, Option.some.injEq]
    split
    next hi =>
      obtain hi | rfl := Nat.lt_or_eq_of_le hi
      · have hmem : cqi ∈ passed env cid l := by
          apply List.mem_of_getElem? (i := i)
          rw [passed_getElem? env cid l hi, hl]
        have herrors := h cqi hmem hother
        rw [← herrors]
      · exact absurd (belongsTo_of_pending (pending_of_length_passed hl)) hother
    next => rfl

theorem onNick_cqis (env : Env U C) (aNick : Bytes) (uc : UserConnection U) (s : State U C) :
    (onNick env aNick uc s).cqis = Function.update s.cqis .DOWNLOAD
      (resetErrors env (env.makeCid aNick uc.hubUrl) (s.cqis .DOWNLOAD)) := by
  rw [onNick]
  split
  next => rfl
  next =>
    split
    next => rfl
    next =>
      split
      next => rfl
      next => rfl

/-- The user that the nick stands for; none when the handler does not get as far as the downloads. -/
def identified (env : Env U C) (aNick : Bytes) (uc : UserConnection U) (s : State U C) : Option C :=
  if uc.state ≠ .SUPNICK then none
  else if uc.incoming then
    match s.expectedConnections.find? fun e => e.1 = aNick with
    | none => none
    | some (_, _, hubUrl) => if hubUrl = [] then none else some (env.makeCid aNick hubUrl)
  else some (env.makeCid aNick uc.hubUrl)

theorem onMyNick_cqis (env : Env U C) (aNick : Bytes) (uc : UserConnection U) (s : State U C) :
    (onMyNick env aNick uc s).cqis = match identified env aNick uc s with
      | none => s.cqis
      | some cid => Function.update s.cqis .DOWNLOAD (resetErrors env cid (s.cqis .DOWNLOAD)) := by
  rw [onMyNick, identified]
  by_cases hstate : uc.state ≠ .SUPNICK
  · rw [if_pos hstate, if_pos hstate]
  · rw [if_neg hstate, if_neg hstate]
    by_cases hin : uc.incoming = true
    · rw [if_pos hin, if_pos hin]
      cases s.expectedConnections.find? fun e => e.1 = aNick with
      | none => rfl
      | some e =>
        obtain ⟨nick, myNick, hubUrl⟩ := e
        dsimp only
        split
        next => rfl
        next => exact onNick_cqis env aNick _ _
    · rw [if_neg hin, if_neg hin]
      exact onNick_cqis env aNick uc s

/-- Every item of another user is after the nick what it was before, at its place. -/
def LeavesOthers (env : Env U C) (aNick : Bytes) (uc : UserConnection U) (s : State U C) : Prop :=
  ∀ type (i : Nat) cqi, (s.cqis type)[i]? = some cqi → ¬belongsTo env cqi (identified env aNick uc s) →
    ((onMyNick env aNick uc s).cqis type)[i]? = some cqi

/-- The nick leaves the items of other users alone exactly when it is not looked up, or when none of those that
the loop goes past before it finds the user has errors. -/
theorem onMyNick_leavesOthers_iff (env : Env U C) (aNick : Bytes) (uc : UserConnection U) (s : State U C) :
    LeavesOthers env aNick uc s ↔
      ∀ cid, identified env aNick uc s = some cid → PassesNoErrors env cid (s.cqis .DOWNLOAD) := by
  rw [LeavesOthers, onMyNick_cqis]
  cases hcid : identified env aNick uc s with
  | none =>
    dsimp only
    constructor
    · intro _ cid h
      cases h
    · intro _ type i cqi hi _
      exact hi
  | some cid =>
    dsimp only
    constructor
    · intro h cid' hcid'
      obtain rfl := Option.some.inj hcid'
      apply (resetErrors_leaves_iff env cid (s.cqis .DOWNLOAD)).mp
      intro i cqi hi hother
      simpa using h .DOWNLOAD i cqi hi hother
    · intro h type i cqi hi hother
      by_cases htype : type = .DOWNLOAD
      · subst htype
        rw [Function.update_self]
        exact (resetErrors_leaves_iff env cid _).mpr (h cid rfl) i cqi hi hother
      · rw [Function.update_of_ne htype]
        exact hi

/-- Users are numbers, and a nick that is a digit belongs to the user with that number. -/
def numbers : Env Nat Nat where
  requireTls := false
  enableCcpm := false
  isTrusted := false
  verifyKeyprint := true
  getCID := id
  ofBase32 _ := 0
  makeCid aNick _ := (aNick.headD 0).toNat - '0'.toNat
  findUser cid := some cid
  isOnline _ := true
  isTls _ := false
  startDownload := true
  gotDownload := true
  token := []

/-- A connection that the client has made, and that has not heard a nick yet. -/
def connecting : UserConnection Nat :=
  ⟨0, .SUPNICK, true, false, false, false, false, false, false, false, false, none, [], str "hub", false⟩

/-- The first user has failed three times, and is to be left alone for three minutes. -/
def throttled : State Nat Nat where
  cqis
    | .DOWNLOAD => [⟨[], 1000, 3, .WAITING, .DOWNLOAD, some 1⟩, ⟨[], 0, 0, .CONNECTING, .DOWNLOAD, some 2⟩]
    | _ => []
  userConnections := [connecting]
  nextId := 1
  tokens := []
  expectedConnections := []
  shuttingDown := false

/-- The second user connects. -/
theorem not_leavesOthers : ¬∀ env aNick uc s, LeavesOthers (U := Nat) (C := Nat) env aNick uc s := by
  intro h
  have hfirst := h numbers (str "2") connecting throttled .DOWNLOAD 0 ⟨[], 1000, 3, .WAITING, .DOWNLOAD, some 1⟩
    rfl (by decide)
  exact absurd hfirst (by decide)

end Dcpp.ConnectionManager
