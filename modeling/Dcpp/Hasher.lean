import Dcpp.Bytes
import Dcpp.Library.Runs

namespace Dcpp.HashManager

/-- The next statement of the worker; what it hashes is what `fname` names. -/
inductive Hasher.Worker where
  | waiting | woken | testing | rebuilding | taking
  | hashing (fname : Bytes)
  | pausing (fname : Bytes)
  | ended
deriving DecidableEq

/-- What is left of a call that sets a flag and signals, which takes no lock. -/
inductive Hasher.Call where
  | test
  | signal (extra : Bool)
deriving DecidableEq

/-- `s` is the count of the semaphore and `paused` an `unsigned`. -/
structure Hasher where
  w : List (Bytes × Int)
  s : Nat
  stop : Bool
  paused : Nat
  rebuild : Bool
  worker : Hasher.Worker
  calls : List Hasher.Call
deriving DecidableEq

namespace Hasher

/-- `++` and `--` on an `unsigned`. -/
def UINT_SIZE : Nat := 2 ^ 32

def increment (n : Nat) : Nat := (n + 1) % UINT_SIZE

def decrement (n : Nat) : Nat := (n + (UINT_SIZE - 1)) % UINT_SIZE

/-- The map keeps its keys in order, and refuses one that it has. -/
def insert (fileName : Bytes) (size : Int) : List (Bytes × Int) → Option (List (Bytes × Int))
  | [] => some [(fileName, size)]
  | i :: w =>
    if fileName < i.1 then some ((fileName, size) :: i :: w)
    else if fileName = i.1 then none
    else (insert fileName size w).map (i :: ·)

def signal (h : Hasher) : Hasher := { h with s := h.s + 1 }

def hashFile (fileName : Bytes) (size : Int) (h : Hasher) : Hasher :=
  match insert fileName size h.w with
  | none => h
  | some w =>
    if 0 < h.paused then { h with w := w, paused := increment h.paused }
    else signal { h with w := w }

/-- Whether hashing was already paused, and the hasher afterwards. -/
def pause (h : Hasher) : Bool × Hasher := (h.paused ≠ 0, { h with paused := increment h.paused })

/-- The loop from where `paused` has been decremented. -/
def signals : Nat → Hasher → Hasher
  | 0, h => { h with paused := 0 }
  | n + 1, h => signals n (signal h)

def resume (h : Hasher) : Hasher := signals (decrement h.paused) h

def isPaused (h : Hasher) : Bool := 0 < h.paused

/-- `strncmp` finds no difference; a string ends at its first NUL. -/
def strncmp : Nat → Bytes → Bytes → Bool
  | 0, _, _ => true
  | n + 1, a, b =>
    if a.headD 0 = b.headD 0 then a.headD 0 = 0 || strncmp n a.tail b.tail else false

def stopHashing (baseDir : Bytes) (h : Hasher) : Hasher :=
  { h with w := h.w.filter fun i => !strncmp baseDir.length baseDir i.1 }

def scheduleRebuild (h : Hasher) : Hasher := { h with rebuild := true, calls := .test :: h.calls }

def shutdown (h : Hasher) : Hasher := { h with stop := true, calls := .test :: h.calls }

/-- The next statement of a call that has set its flag. -/
def call (i : Nat) (h : Hasher) : Option Hasher :=
  h.calls[i]?.map fun
    | .test => { h with calls := h.calls.set i (.signal (h.paused ≠ 0)) }
    | .signal true => signal { h with calls := h.calls.set i (.signal false) }
    | .signal false => signal { h with calls := h.calls.eraseIdx i }

/-- The worker blocks while the semaphore is at zero. -/
def wait (next : Worker) (h : Hasher) : Option Hasher :=
  if 0 < h.s then some { h with s := h.s - 1, worker := next } else none

def take (h : Hasher) : Hasher :=
  match h.w with
  | [] => { h with worker := .hashing [] }
  | i :: w => { h with w := w, worker := .hashing i.1 }

def instantPause (fname : Bytes) (h : Hasher) : Hasher :=
  if 0 < h.paused then { h with paused := increment h.paused, worker := .pausing fname } else h

/-- One statement of `run`; `chunk` says whether the file that is hashed has more to read. -/
def work (chunk : Bool) (h : Hasher) : Option Hasher :=
  match h.worker with
  | .waiting => wait .woken h
  | .woken => some { h with worker := if h.stop then .ended else .testing }
  | .testing => some { h with worker := if h.rebuild then .rebuilding else .taking }
  | .rebuilding => some { h with rebuild := false, worker := .waiting }
  | .taking => some (take h)
  | .hashing fname =>
    some (if chunk && !fname.isEmpty then instantPause fname h else { h with worker := .waiting })
  | .pausing fname => wait (.hashing fname) h
  | .ended => none

inductive Event where
  | hashFile (fileName : Bytes) (size : Int)
  | stopHashing (baseDir : Bytes)
  | pause
  | resume
  | scheduleRebuild
  | shutdown
  | call (i : Nat)
  | work (chunk : Bool)
deriving DecidableEq

/-- A section under the lock is one step. -/
def step (h : Hasher) : Event → Option Hasher
  | .hashFile fileName size => some (h.hashFile fileName size)
  | .stopHashing baseDir => some (h.stopHashing baseDir)
  | .pause => some h.pause.2
  | .resume => some h.resume
  | .scheduleRebuild => some h.scheduleRebuild
  | .shutdown => some h.shutdown
  | .call i => h.call i
  | .work chunk => h.work chunk

def start : Hasher := ⟨[], 0, false, 0, false, .waiting, []⟩

/-- The steps that increment `paused`. -/
def Raises (h : Hasher) : Event → Prop
  | .hashFile fileName size => (insert fileName size h.w).isSome ∧ 0 < h.paused
  | .pause => True
  | .work chunk => 0 < h.paused ∧ chunk = true ∧ ∃ fname, h.worker = .hashing fname ∧ fname ≠ []
  | _ => False

instance (h : Hasher) : Decidable (∃ fname, h.worker = .hashing fname ∧ fname ≠ []) :=
  match hw : h.worker with
  | .hashing fname => decidable_of_iff (fname ≠ []) (by simp)
  | .waiting | .woken | .testing | .rebuilding | .taking | .pausing _ | .ended => isFalse (by simp)

instance (h : Hasher) : (e : Event) → Decidable (h.Raises e)
  | .hashFile fileName size => inferInstanceAs (Decidable ((insert fileName size h.w).isSome = true ∧ 0 < h.paused))
  | .pause => isTrue trivial
  | .work chunk => inferInstanceAs
    (Decidable (0 < h.paused ∧ chunk = true ∧ ∃ fname, h.worker = .hashing fname ∧ fname ≠ []))
  | .stopHashing _ | .resume | .scheduleRebuild | .shutdown | .call _ => isFalse id

theorem uint_size_pos : 0 < UINT_SIZE := by
  unfold UINT_SIZE
  exact Nat.two_pow_pos 32

theorem raises_pos {h : Hasher} {e : Event} (hr : h.Raises e) (hne : e ≠ .pause) : 0 < h.paused := by
  cases e with
  | hashFile _ _ => exact hr.2
  | pause => exact absurd rfl hne
  | work _ => exact hr.1
  | _ => exact hr.elim

theorem increment_eq {n : Nat} (h : n + 1 < UINT_SIZE) : increment n = n + 1 := Nat.mod_eq_of_lt h

theorem increment_lt (n : Nat) : increment n < UINT_SIZE := Nat.mod_lt _ uint_size_pos

theorem decrement_eq {n : Nat} (h : 0 < n) (hn : n < UINT_SIZE) : decrement n = n - 1 := by
  have hsum : n + (UINT_SIZE - 1) = n - 1 + UINT_SIZE := by omega
  rw [decrement, hsum, Nat.add_mod_right, Nat.mod_eq_of_lt (by omega)]

theorem insert_length {fileName : Bytes} {size : Int} {w w' : List (Bytes × Int)}
    (h : insert fileName size w = some w') : w'.length = w.length + 1 := by
  induction w generalizing w' with
  | nil =>
    obtain rfl := Option.some.inj h
    rfl
  | cons i w ih =>
    rw [insert] at h
    split_ifs at h with hlt heq
    · obtain rfl := Option.some.inj h
      rfl
    · obtain ⟨v, hv, rfl⟩ := Option.map_eq_some_iff.mp h
      rw [List.length_cons, ih hv, List.length_cons]

theorem signals_eq (n : Nat) (h : Hasher) : signals n h = { h with s := h.s + n, paused := 0 } := by
  induction n generalizing h with
  | zero => rfl
  | succ n ih =>
    rw [signals, ih, signal]
    have hsum : h.s + 1 + n = h.s + (n + 1) := by omega
    rw [hsum]

/-- `resume` lets the hasher run, whatever the counter was. -/
theorem resume_eq (h : Hasher) : resume h = { h with s := h.s + decrement h.paused, paused := 0 } :=
  signals_eq _ h

theorem resume_paused (h : Hasher) : h.resume.paused = 0 := by
  rw [resume_eq]

/-- What `hashFile` does: the file is there already, or one more signal or pause counts for it. -/
theorem hashFile_cases (fileName : Bytes) (size : Int) (h : Hasher) :
    hashFile fileName size h = h ∧ (insert fileName size h.w).isSome = false ∨
      ∃ w, insert fileName size h.w = some w ∧ w.length = h.w.length + 1 ∧
        (0 < h.paused ∧ hashFile fileName size h = { h with w := w, paused := increment h.paused } ∨
          h.paused = 0 ∧ hashFile fileName size h = { h with w := w, s := h.s + 1 }) := by
  rw [hashFile]
  cases hi : insert fileName size h.w with
  | none => exact Or.inl ⟨rfl, rfl⟩
  | some w =>
    refine Or.inr ⟨w, rfl, insert_length hi, ?_⟩
    by_cases hp : 0 < h.paused
    · exact Or.inl ⟨hp, if_pos hp⟩
    · exact Or.inr ⟨by omega, if_neg hp⟩

/-- What a call that is under way does: it looks at the counter, signals once and goes on, or signals
and ends. -/
theorem call_cases {i : Nat} {h t : Hasher} (hc : call i h = some t) :
    (∃ l, l.length = h.calls.length ∧ (t = { h with calls := l } ∨ t = { h with s := h.s + 1, calls := l })) ∨
      ∃ l, l.length + 1 = h.calls.length ∧ t = { h with s := h.s + 1, calls := l } := by
  rw [call] at hc
  obtain ⟨c, hget, rfl⟩ := Option.map_eq_some_iff.mp hc
  obtain ⟨hi, -⟩ := List.getElem?_eq_some_iff.mp hget
  cases c with
  | test => exact Or.inl ⟨_, List.length_set, Or.inl rfl⟩
  | signal extra =>
    cases extra with
    | true => exact Or.inl ⟨_, List.length_set, Or.inr rfl⟩
    | false =>
      have hlen : (h.calls.eraseIdx i).length + 1 = h.calls.length := by
        rw [List.length_eraseIdx_of_lt hi]
        omega
      exact Or.inr ⟨_, hlen, rfl⟩

/-- What the worker does in one statement. -/
inductive Works (h : Hasher) (chunk : Bool) : Hasher → Prop where
  | wake (hw : h.worker = .waiting) (hs : 0 < h.s) : Works h chunk { h with s := h.s - 1, worker := .woken }
  | testStop (hw : h.worker = .woken) :
    Works h chunk { h with worker := if h.stop then .ended else .testing }
  | testRebuild (hw : h.worker = .testing) :
    Works h chunk { h with worker := if h.rebuild then .rebuilding else .taking }
  | rebuild (hw : h.worker = .rebuilding) : Works h chunk { h with rebuild := false, worker := .waiting }
  | none (hw : h.worker = .taking) (hnil : h.w = []) : Works h chunk { h with worker := .hashing [] }
  | take (hw : h.worker = .taking) {i : Bytes × Int} {w : List (Bytes × Int)} (hcons : h.w = i :: w) :
    Works h chunk { h with w := w, worker := .hashing i.1 }
  | done {fname : Bytes} (hw : h.worker = .hashing fname) (hr : ¬h.Raises (.work chunk)) :
    Works h chunk { h with worker := .waiting }
  | read {fname : Bytes} (hw : h.worker = .hashing fname) (hr : ¬h.Raises (.work chunk)) : Works h chunk h
  | pause {fname : Bytes} (hw : h.worker = .hashing fname) (hr : h.Raises (.work chunk)) :
    Works h chunk { h with paused := increment h.paused, worker := .pausing fname }
  | goOn {fname : Bytes} (hw : h.worker = .pausing fname) (hs : 0 < h.s) :
    Works h chunk { h with s := h.s - 1, worker := .hashing fname }

theorem wait_eq {next : Worker} {h t : Hasher} (hw : wait next h = some t) :
    0 < h.s ∧ { h with s := h.s - 1, worker := next } = t := by
  rw [wait] at hw
  split_ifs at hw with hs
  exact ⟨hs, Option.some.inj hw⟩

theorem works_of_work {chunk : Bool} {h t : Hasher} (ht : work chunk h = some t) : Works h chunk t := by
  rw [work] at ht
  cases hw : h.worker with
  | waiting =>
    rw [hw] at ht
    obtain ⟨hs, rfl⟩ := wait_eq ht
    exact .wake hw hs
  | woken =>
    rw [hw] at ht
    obtain rfl := Option.some.inj ht
    exact .testStop hw
  | testing =>
    rw [hw] at ht
    obtain rfl := Option.some.inj ht
    exact .testRebuild hw
  | rebuilding =>
    rw [hw] at ht
    obtain rfl := Option.some.inj ht
    exact .rebuild hw
  | taking =>
    rw [hw] at ht
    obtain rfl := Option.some.inj ht
    cases hcons : h.w with
    | nil =>
      have htake : take h = { h with worker := .hashing [] } := by rw [take, hcons]
      exact htake ▸ .none hw hcons
    | cons i w =>
      have htake : take h = { h with w := w, worker := .hashing i.1 } := by rw [take, hcons]
      exact htake ▸ .take hw hcons
  | hashing fname =>
    rw [hw] at ht
    obtain rfl := Option.some.inj ht
    by_cases hc : (chunk && !fname.isEmpty) = true
    · rw [if_pos hc, instantPause]
      rw [Bool.and_eq_true, Bool.not_eq_true', List.isEmpty_eq_false_iff] at hc
      by_cases hp : 0 < h.paused
      · rw [if_pos hp]
        exact .pause hw ⟨hp, hc.1, fname, hw, hc.2⟩
      · rw [if_neg hp]
        exact .read hw fun hr => hp hr.1
    · rw [if_neg hc]
      refine .done hw fun ⟨_, hchunk, fname', hw', hne⟩ => hc ?_
      obtain rfl := Worker.hashing.inj (hw.symm.trans hw')
      rw [Bool.and_eq_true, Bool.not_eq_true', List.isEmpty_eq_false_iff]
      exact ⟨hchunk, hne⟩
  | pausing fname =>
    rw [hw] at ht
    obtain ⟨hs, rfl⟩ := wait_eq ht
    exact .goOn hw hs
  | ended =>
    rw [hw] at ht
    cases ht

theorem step_of_raises {h : Hasher} {e : Event} (hr : h.Raises e) :
    ∃ t, step h e = some t ∧ t.paused = increment h.paused := by
  cases e with
  | hashFile fileName size =>
    refine ⟨_, rfl, ?_⟩
    obtain ⟨heq, hn⟩ | ⟨w, -, -, ⟨-, heq⟩ | ⟨hp, -⟩⟩ := hashFile_cases fileName size h
    · exact absurd (hn.symm.trans hr.1) Bool.false_ne_true
    · rw [heq]
    · exact absurd hp (Nat.ne_of_gt hr.2)
  | pause => exact ⟨_, rfl, rfl⟩
  | work chunk =>
    obtain ⟨hp, rfl, fname, hw, hne⟩ := hr
    refine ⟨{ h with paused := increment h.paused, worker := .pausing fname }, ?_, rfl⟩
    have hc : (true && !fname.isEmpty) = true := by
      rw [Bool.true_and, Bool.not_eq_true', List.isEmpty_eq_false_iff]
      exact hne
    change work true h = _
    rw [work, hw]
    dsimp only
    rw [if_pos hc, instantPause, if_pos hp]
  | stopHashing _ => exact hr.elim
  | resume => exact hr.elim
  | scheduleRebuild => exact hr.elim
  | shutdown => exact hr.elim
  | call _ => exact hr.elim

/-- The steps that increment the counter do so, `resume` sets it to zero, and the others leave it. -/
theorem step_paused {h t : Hasher} {e : Event} (ht : step h e = some t) :
    h.Raises e ∧ t.paused = increment h.paused ∨
      ¬h.Raises e ∧ (e = .resume ∧ t.paused = 0 ∨ e ≠ .resume ∧ t.paused = h.paused) := by
  cases e with
  | hashFile fileName size =>
    obtain rfl := Option.some.inj ht
    obtain ⟨heq, hn⟩ | ⟨w, hi, -, ⟨hp, heq⟩ | ⟨hp, heq⟩⟩ := hashFile_cases fileName size h
    · refine Or.inr ⟨fun hr => ?_, Or.inr ⟨nofun, congrArg paused heq⟩⟩
      exact Bool.false_ne_true (hn.symm.trans hr.1)
    · exact Or.inl ⟨⟨by rw [hi]; rfl, hp⟩, congrArg paused heq⟩
    · exact Or.inr ⟨fun hr => Nat.ne_of_gt hr.2 hp, Or.inr ⟨nofun, by rw [heq]⟩⟩
  | pause =>
    obtain rfl := Option.some.inj ht
    exact Or.inl ⟨trivial, rfl⟩
  | resume =>
    obtain rfl := Option.some.inj ht
    exact Or.inr ⟨id, Or.inl ⟨rfl, congrArg paused (resume_eq h)⟩⟩
  | stopHashing _ =>
    obtain rfl := Option.some.inj ht
    exact Or.inr ⟨id, Or.inr ⟨nofun, rfl⟩⟩
  | scheduleRebuild =>
    obtain rfl := Option.some.inj ht
    exact Or.inr ⟨id, Or.inr ⟨nofun, rfl⟩⟩
  | shutdown =>
    obtain rfl := Option.some.inj ht
    exact Or.inr ⟨id, Or.inr ⟨nofun, rfl⟩⟩
  | call i =>
    refine Or.inr ⟨id, Or.inr ⟨nofun, ?_⟩⟩
    obtain ⟨_, _, rfl | rfl⟩ | ⟨_, _, rfl⟩ := call_cases ht <;> rfl
  | work chunk =>
    have hkeeps {next : Worker}(hw : h.worker = next)
        (hne : ∀ fname, next ≠ .hashing fname) :
        ¬h.Raises (.work chunk) := fun ⟨_, _, fname, hw', _⟩ => hne fname (hw.symm.trans hw')
    cases works_of_work ht with
    | pause hw hr => exact Or.inl ⟨hr, rfl⟩
    | done hw hr => exact Or.inr ⟨hr, Or.inr ⟨nofun, rfl⟩⟩
    | read hw hr => exact Or.inr ⟨hr, Or.inr ⟨nofun, rfl⟩⟩
    | wake hw _ => exact Or.inr ⟨hkeeps hw nofun, Or.inr ⟨nofun, rfl⟩⟩
    | testStop hw => exact Or.inr ⟨hkeeps hw nofun, Or.inr ⟨nofun, rfl⟩⟩
    | testRebuild hw => exact Or.inr ⟨hkeeps hw nofun, Or.inr ⟨nofun, rfl⟩⟩
    | rebuild hw => exact Or.inr ⟨hkeeps hw nofun, Or.inr ⟨nofun, rfl⟩⟩
    | none hw _ => exact Or.inr ⟨hkeeps hw nofun, Or.inr ⟨nofun, rfl⟩⟩
    | take hw _ => exact Or.inr ⟨hkeeps hw nofun, Or.inr ⟨nofun, rfl⟩⟩
    | goOn hw _ => exact Or.inr ⟨hkeeps hw nofun, Or.inr ⟨nofun, rfl⟩⟩

end Hasher

end Dcpp.HashManager
