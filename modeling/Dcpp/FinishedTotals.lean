import Dcpp.FinishedManager

-- The totals count each transfer once, but for the checks.
namespace Dcpp.FinishedManager

open Tally

/-- The totals that the entries have. -/
inductive Account (U : Type) where
  | transferred (upload : Bool) (user : U)
  | userMilliSeconds (upload : Bool) (user : U)
  | actual (upload : Bool) (file : Bytes)
  | fileMilliSeconds (upload : Bool) (file : Bytes)

namespace Account

section

variable {U : Type}

/-- What the entry has, or nothing where there is none. -/
def read (a : Account U) (s : State U) : Int :=
  match a with
  | transferred upload user => (s.getMapByUser upload user).elim 0 fun i => i.transferred
  | userMilliSeconds upload user => (s.getMapByUser upload user).elim 0 fun i => i.milliSeconds
  | actual upload file => (s.getMapByFile upload file).elim 0 fun i => i.actual
  | fileMilliSeconds upload file => (s.getMapByFile upload file).elim 0 fun i => i.milliSeconds

def amount (r : Report U) : Account U → Int
  | transferred _ _ => r.t.pos
  | userMilliSeconds _ _ => r.milliSeconds
  | actual _ _ => r.t.actual
  | fileMilliSeconds _ _ => r.milliSeconds

end

variable {U : Type} [DecidableEq U]

/-- Whether a transfer belongs to the entry. -/
def mine (up : Bool) (r : Report U) : Account U → Bool
  | transferred upload user => upload = up ∧ r.t.user.user = user
  | userMilliSeconds upload user => upload = up ∧ r.t.user.user = user
  | actual upload file => upload = up ∧ r.file up = file
  | fileMilliSeconds upload file => upload = up ∧ r.file up = file

def share (a : Account U) (up : Bool) (r : Report U) : Int := if a.mine up r then a.amount r else 0

end Account

namespace Report

variable {U : Type}

/-- The transfer has moved nothing and has taken no time. -/
def Nothing (r : Report U) : Prop := r.t.pos = 0 ∧ r.t.actual = 0 ∧ r.milliSeconds = 0

instance (r : Report U) : Decidable r.Nothing := inferInstanceAs (Decidable (_ ∧ _ ∧ _))

/-- Whether the handler comes to the entries. -/
def entered (r : Report U) (upload : Bool) : Bool := r.listed && (r.sizePos upload).isSome

theorem entered_of_inQueue {r : Report U} (isFile : r.t.type = .TYPE_FILE)
    (inQueue : (r.moment.sizeInfo r.t.path).1 ≠ -1) : r.entered false = true := by
  simp [entered, listed, sizePos, file, isFile, inQueue]

end Report

variable {U : Type} [DecidableEq U]

namespace Event

/-- What a transfer counts for a total: that of its end, if it is one of those that are listed. -/
def due (a : Account U) : Event U → Int
  | .complete upload r => if r.listed then a.share upload r else 0
  | .failed upload r => if r.t.pos > 0 ∧ r.listed then a.share upload r else 0
  | .crcChecked _ _ _ => 0

/-- What the handler adds. -/
def added (a : Account U) : Event U → Int
  | .complete upload r => if r.entered upload then a.share upload r else 0
  | .failed upload r => if r.t.pos > 0 ∧ r.entered upload then a.share upload r else 0
  | .crcChecked r _ _ => a.share false r

omit [DecidableEq U] in
/-- A check of the file succeeded. -/
def Checks (upload : Bool) (file : Bytes) : Event U → Prop
  | .crcChecked r _ _ => upload = false ∧ r.file false = file
  | _ => False

omit [DecidableEq U] in
/-- A transfer that is listed is entered, or there is nothing to enter; and there is nothing that a check adds. -/
def Once : Event U → Prop
  | .complete upload r => r.listed = true → (r.sizePos upload).isSome = true ∨ r.Nothing
  | .failed upload r => r.t.pos > 0 → r.listed = true → (r.sizePos upload).isSome = true
  | .crcChecked r _ _ => r.Nothing

end Event

/-- A file that is marked. -/
def State.checked (s : State U) (upload : Bool) (file : Bytes) : Bool :=
  (s.getMapByFile upload file).elim false fun i => i.crc32Checked

/-- The totals are those of the transfers, each of them once, and the marks are those of the checks. -/
structure Right (s : State U) (es : List (Event U)) : Prop where
  totals : ∀ a : Account U, a.read s = total (Event.due a) es
  checked : ∀ upload file, s.checked upload file = true ↔ ∃ e ∈ es, e.Checks upload file

theorem onComplete_of_not {s : State U} {r : Report U} {upload : Bool} (h : r.entered upload = false)
    (crc32Checked : Bool) : onComplete s r upload crc32Checked = s := by
  rw [Report.entered, Bool.and_eq_false_iff] at h
  rw [onComplete]
  split
  next hl =>
    split
    next => rfl
    next size pos hs =>
      obtain h | h := h
      · exact absurd (hl.symm.trans h) (by decide)
      · rw [hs] at h
        cases h
  next => rfl

/-- What a transfer does to the entries of its file and its user. -/
theorem onComplete_of_entered {s : State U} {r : Report U} {upload : Bool} (h : r.entered upload = true)
    (crc32Checked : Bool) : ∃ size pos,
      (onComplete s r upload crc32Checked) =
        (s.setFile upload (r.file upload)
          (fileItem r upload crc32Checked size pos (s.getMapByFile upload (r.file upload)))).setUser upload
          r.t.user.user (userItem r upload (s.getMapByUser upload r.t.user.user)) := by
  rw [Report.entered, Bool.and_eq_true, Option.isSome_iff_exists] at h
  obtain ⟨hl, ⟨size, pos⟩, hs⟩ := h
  refine ⟨size, pos, ?_⟩
  rw [onComplete, if_pos hl, hs]
  simp only [State.getMapByUser_setFile]

theorem read_onComplete (a : Account U) (s : State U) (r : Report U) (upload crc32Checked : Bool) :
    a.read (onComplete s r upload crc32Checked) = a.read s + if r.entered upload then a.share upload r else 0 := by
  cases h : r.entered upload with
  | false => simp [onComplete_of_not h]
  | true =>
    obtain ⟨size, pos, hs⟩ := onComplete_of_entered (s := s) h crc32Checked
    rw [hs, if_pos rfl]
    cases a with
    | transferred up user | userMilliSeconds up user =>
      by_cases hup : up = upload
      · subst hup
        by_cases hu : r.t.user.user = user
        · subst hu
          cases hi : s.getMapByUser up r.t.user.user <;>
            simp [Account.read, Account.share, Account.mine, Account.amount, hi, userItem, FinishedUserItem.update,
              FinishedItemBase.update]
        · simp [Account.read, Account.share, Account.mine, hu, Function.update_of_ne (Ne.symm hu)]
      · simp [Account.read, Account.share, Account.mine, hup]
    | actual up file | fileMilliSeconds up file =>
      by_cases hup : up = upload
      · subst hup
        by_cases hf : r.file up = file
        · subst hf
          cases hi : s.getMapByFile up (r.file up) <;>
            simp [Account.read, Account.share, Account.mine, Account.amount, hi, fileItem, FinishedFileItem.update,
              FinishedItemBase.update]
        · simp [Account.read, Account.share, Account.mine, hf, Function.update_of_ne (Ne.symm hf)]
      · simp [Account.read, Account.share, Account.mine, hup]

/-- A file is marked by a transfer of it that is checked. -/
theorem checked_onComplete (s : State U) (r : Report U) (upload crc32Checked up : Bool) (file : Bytes) :
    (onComplete s r upload crc32Checked).checked up file = true ↔
      s.checked up file = true ∨
        r.entered upload = true ∧ crc32Checked = true ∧ up = upload ∧ r.file upload = file := by
  cases h : r.entered upload with
  | false => simp [onComplete_of_not h]
  | true =>
    obtain ⟨size, pos, hs⟩ := onComplete_of_entered (s := s) h crc32Checked
    rw [hs, State.checked, State.checked]
    by_cases hup : up = upload
    · subst hup
      by_cases hf : r.file up = file
      · subst hf
        cases hi : s.getMapByFile up (r.file up) with
        | none => simp [fileItem]
        | some i => cases crc32Checked <;> simp [fileItem, FinishedFileItem.update]
      · simp [hf, Function.update_of_ne (Ne.symm hf)]
    · simp [hup]

theorem read_step (a : Account U) (s : State U) (e : Event U) : a.read (step s e) = a.read s + e.added a := by
  cases e with
  | complete upload r => exact read_onComplete a s r upload false
  | failed upload r =>
    rw [step]
    split
    next h => simp [read_onComplete, Event.added, h]
    next h => simp [Event.added, h]
  | crcChecked r isFile inQueue =>
    rw [step, read_onComplete, if_pos (Report.entered_of_inQueue isFile inQueue)]
    rfl

theorem checked_step (s : State U) (e : Event U) (upload : Bool) (file : Bytes) :
    (step s e).checked upload file = true ↔ s.checked upload file = true ∨ e.Checks upload file := by
  cases e with
  | complete up r => simp [step, checked_onComplete, Event.Checks]
  | failed up r =>
    rw [step]
    split
    next => simp [checked_onComplete, Event.Checks]
    next => simp [Event.Checks]
  | crcChecked r isFile inQueue =>
    simp [step, checked_onComplete, Event.Checks, Report.entered_of_inQueue isFile inQueue]

omit [DecidableEq U] in
theorem read_start (a : Account U) : a.read start = 0 := by
  cases a with
  | transferred upload user | userMilliSeconds upload user => cases upload <;> rfl
  | actual upload file | fileMilliSeconds upload file => cases upload <;> rfl

theorem read_run (a : Account U) (es : List (Event U)) : a.read (run es) = total (Event.added a) es := by
  have h := foldl_total (read_step a) start es
  rwa [read_start, zero_add] at h

theorem checked_run (es : List (Event U)) (upload : Bool) (file : Bytes) :
    (run es).checked upload file = true ↔ ∃ e ∈ es, e.Checks upload file := by
  induction es using List.reverseRecOn with
  | nil => cases upload <;> simp [run, start, State.checked, State.getMapByFile]
  | append_singleton es e ih =>
    rw [run, List.foldl_append, List.foldl_cons, List.foldl_nil, checked_step]
    rw [run] at ih
    rw [ih]
    simp [or_and_right, exists_or]

/-- What an event adds is what is due for it in all totals. -/
theorem added_eq_due_iff (e : Event U) : (∀ a : Account U, e.added a = e.due a) ↔ e.Once := by
  have hown : ∀ (r : Report U) (up : Bool), (∀ a : Account U, a.share up r = 0) ↔ r.Nothing := by
    intro r up
    constructor
    · intro h
      have hpos := h (.transferred up r.t.user.user)
      have hactual := h (.actual up (r.file up))
      have htime := h (.userMilliSeconds up r.t.user.user)
      simp only [Account.share, Account.mine, Account.amount, and_self, decide_true, if_true] at hpos hactual htime
      exact ⟨by omega, by omega, by omega⟩
    · rintro ⟨hpos, hactual, htime⟩ a
      cases a <;> simp [Account.share, Account.amount, hpos, hactual, htime]
  cases e with
  | complete upload r =>
    cases hl : r.listed with
    | false => simp [Event.added, Event.due, Event.Once, Report.entered, hl]
    | true =>
      cases hs : (r.sizePos upload).isSome with
      | true => simp [Event.added, Event.due, Event.Once, Report.entered, hl, hs]
      | false =>
        simp only [Event.added, Event.due, Event.Once, Report.entered, hl, hs, Bool.and_false, Bool.false_eq_true,
          if_false, if_true, false_or, forall_const, eq_comm (a := (0 : Int))]
        exact hown r upload
  | failed upload r =>
    by_cases hp : r.t.pos > 0
    · cases hl : r.listed with
      | false => simp [Event.added, Event.due, Event.Once, Report.entered, hl]
      | true =>
        cases hs : (r.sizePos upload).isSome with
        | true => simp [Event.added, Event.due, Event.Once, Report.entered, hl, hs]
        | false =>
          simp only [Event.added, Event.due, Event.Once, Report.entered, hl, hs, hp, Bool.and_false,
            Bool.false_eq_true, and_false, and_self, if_false, if_true, forall_const, eq_comm (a := (0 : Int)), hown]
          exact iff_of_false (fun h => absurd h.1 (Nat.ne_of_gt hp)) not_false
    · simp [Event.added, Event.due, Event.Once, hp]
  | crcChecked r isFile inQueue => exact hown r false

/-- The totals are right in every state of a run if and only if no transfer is left out and no check adds anything. -/
theorem run_right_iff (es : List (Event U)) :
    (∀ before, before <+: es → Right (run before) before) ↔ ∀ e ∈ es, e.Once := by
  have htotals : ∀ a : Account U, (∀ before, before <+: es → a.read (run before) = total (Event.due a) before) ↔
      ∀ e ∈ es, e.added a = e.due a := by
    intro a
    rw [← prefixes_iff]
    simp only [read_run]
  constructor
  · intro h e he
    rw [← added_eq_due_iff]
    intro a
    exact (htotals a).mp (fun before hb => (h before hb).totals a) e he
  · intro h before hb
    refine ⟨fun a => ?_, fun upload file => checked_run before upload file⟩
    exact (htotals a).mpr (fun e he => (added_eq_due_iff e).mpr (h e he) a) before hb

/-- A file of one byte from the user 0, over in one millisecond, while the queue has its file of two bytes. -/
def oneByte : Report Nat where
  t := ⟨.TYPE_FILE, str "/a", ⟨0, []⟩, 1, 1, 1, 0⟩
  moment := ⟨false, 1, 0, fun _ => (2, 0), fun _ => 2⟩
  started := Nat.zero_le 1

/-- The check of a download counts its bytes again for the user, and its time for both. -/
theorem not_totals_right : ¬∀ es : List (Event Nat), Right (run es) es := by
  intro h
  have htotals := (h [.complete false oneByte, .crcChecked oneByte rfl (by decide)]).totals (.transferred false 0)
  revert htotals
  decide

end Dcpp.FinishedManager
