import Mathlib.Tactic.Common
import Dcpp.Bytes

-- The tokens that limit the transfers.
namespace Dcpp.ThrottleManager

/-- A product of `int`s, which is undefined when it does not fit. -/
def intMul (a b : Int) : Option Int := if -2 ^ 31 ≤ a * b ∧ a * b < 2 ^ 31 then some (a * b) else none

/-- The tokens of one direction, with the limit at the last refill and the bytes that were moved since. -/
structure Bucket where
  tokens : Int
  moved : Nat
  limit : Nat
deriving DecidableEq

/-- A throttled call for up to `len` bytes: the limit and the number of transfers that it has read before it takes its
turn. -/
structure Call where
  limit : Nat
  limit_pos : 0 < limit
  transfers : Nat
  transfers_pos : 0 < transfers
  len : Nat
  len_pos : 0 < len

namespace Bucket

def start : Bucket := ⟨0, 0, 0⟩

/-- `on(Second)` for one direction. -/
def refill (limit : Nat) : Option Bucket := (intMul limit 1024).map fun tokens => ⟨tokens, 0, limit⟩

/-- The bytes that a call may move. The numbers are not greater than the tokens, so they fit in each of the types that
they are converted to. -/
def portion (c : Call) (b : Bucket) : Option Int :=
  (intMul c.limit 1024).map fun product => min (product / c.transfers) (min c.len b.tokens)

end Bucket

structure State where
  down : Bucket
  up : Bucket
deriving DecidableEq

inductive Act where
  | refillDown (downLimit : Nat)
  | refillUp (upLimit : Nat)
  /-- A read from a socket that has `got` bytes. -/
  | read (c : Call) (got : Nat)
  /-- A write to a socket that takes `taken` bytes. -/
  | write (c : Call) (taken : Nat)

/-- The section of `read` under the lock: the tokens are taken after the socket is read. -/
def read (c : Call) (got : Nat) (b : Bucket) : Option Bucket :=
  if 0 < b.tokens then
    (b.portion c).map fun readSize =>
      let readSize := min (got : Int) readSize
      if 0 < readSize then { b with tokens := b.tokens - readSize, moved := b.moved + readSize.toNat } else b
  else some b

/-- The section of `write` under the lock, and what is sent behind it: the tokens are taken before. -/
def write (c : Call) (taken : Nat) (b : Bucket) : Option Bucket :=
  if 0 < b.tokens then
    (b.portion c).map fun len =>
      { b with tokens := b.tokens - len, moved := b.moved + (min (taken : Int) len).toNat }
  else some b

/-- One section under a lock. There is no state behind undefined behaviour. -/
def step (s : State) : Act → Option State
  | .refillDown downLimit => (Bucket.refill downLimit).map fun b => { s with down := b }
  | .refillUp upLimit => (Bucket.refill upLimit).map fun b => { s with up := b }
  | .read c got => (read c got s.down).map fun b => { s with down := b }
  | .write c taken => (write c taken s.up).map fun b => { s with up := b }

def start : State := ⟨Bucket.start, Bucket.start⟩

/-- The tokens are not negative, and what was moved since the refill is within its limit. -/
structure Bucket.Kept (b : Bucket) : Prop where
  nonneg : 0 ≤ b.tokens
  moved_le : b.moved ≤ b.limit * 1024

/-- A throttled read that gets tokens asks the socket for a byte at least. -/
def Asks (s : State) : Act → Prop
  | .read c _ => 0 < s.down.tokens → ∃ readSize, s.down.portion c = some readSize ∧ 1 ≤ readSize
  | _ => True

/-- What is asked of a run. -/
def RunsWell : State → List Act → Prop
  | s, [] => s.down.Kept ∧ s.up.Kept
  | s, a :: acts => s.down.Kept ∧ s.up.Kept ∧ Asks s a ∧ ∃ s', step s a = some s' ∧ RunsWell s' acts

/-- The limits are below 2 GiB/s, and a read that gets tokens finds no more downloads than the limit has bytes. -/
def Moderate (s : State) : Act → Prop
  | .refillDown downLimit => downLimit < 2 ^ 21
  | .refillUp upLimit => upLimit < 2 ^ 21
  | .read c _ => 0 < s.down.tokens → c.limit < 2 ^ 21 ∧ c.transfers ≤ c.limit * 1024
  | .write c _ => 0 < s.up.tokens → c.limit < 2 ^ 21

def ModerateRun : State → List Act → Prop
  | _, [] => True
  | s, a :: acts => Moderate s a ∧ ∀ s', step s a = some s' → ModerateRun s' acts

theorem intMul_limit (limit : Nat) : intMul limit 1024 = if limit < 2 ^ 21 then some ((limit : Int) * 1024) else none := by
  rw [intMul]
  by_cases h : limit < 2 ^ 21
  · rw [if_pos h, if_pos (by omega)]
  · rw [if_neg h, if_neg (by omega)]

namespace Bucket

/-- What is moved and what is left came with the refill. -/
structure Inv (b : Bucket) : Prop where
  nonneg : 0 ≤ b.tokens
  sum_le : b.moved + b.tokens ≤ b.limit * 1024

/-- Tokens may be taken for more than what is moved. -/
theorem Inv.move {b : Bucket} (h : Inv b) {n : Int} {m : Nat} (hm : m ≤ n) (hn : n ≤ b.tokens) :
    Inv { b with tokens := b.tokens - n, moved := b.moved + m } := by
  obtain ⟨hnonneg, hsum⟩ := h
  constructor
  · dsimp only
    omega
  · dsimp only
    omega

theorem Inv.kept {b : Bucket} (h : Inv b) : b.Kept := by
  obtain ⟨hnonneg, hsum⟩ := h
  exact ⟨hnonneg, by omega⟩

theorem refill_eq (limit : Nat) :
    refill limit = if limit < 2 ^ 21 then some ⟨limit * 1024, 0, limit⟩ else none := by
  rw [refill, intMul_limit]
  split <;> rfl

theorem portion_eq (c : Call) (b : Bucket) : b.portion c =
    if c.limit < 2 ^ 21 then some (min ((c.limit : Int) * 1024 / c.transfers) (min c.len b.tokens)) else none := by
  rw [portion, intMul_limit]
  split <;> rfl

/-- A portion is within the tokens, and empty where there are more transfers than bytes. -/
theorem portion_bounds {c : Call} {b : Bucket} {n : Int} (htokens : 0 < b.tokens) (h : b.portion c = some n) :
    0 ≤ n ∧ n ≤ b.tokens ∧ (1 ≤ n ↔ c.transfers ≤ c.limit * 1024) := by
  rw [portion_eq] at h
  split at h
  next =>
    obtain rfl := Option.some_inj.mp h
    have htransfers : (0 : Int) < c.transfers := by exact_mod_cast c.transfers_pos
    have hslice : 0 ≤ (c.limit : Int) * 1024 / c.transfers := Int.ediv_nonneg (by omega) (Int.le_of_lt htransfers)
    have hone : 1 ≤ (c.limit : Int) * 1024 / c.transfers ↔ c.transfers ≤ c.limit * 1024 := by
      rw [Int.le_ediv_iff_mul_le htransfers]
      omega
    have hlen := c.len_pos
    refine ⟨by omega, by omega, ?_⟩
    rw [← hone]
    omega
  next => cases h

end Bucket

theorem read_inv {c : Call} {got : Nat} {b b' : Bucket} (hb : b.Inv) (h : read c got b = some b') : b'.Inv := by
  rw [read] at h
  split at h
  next htokens =>
    obtain ⟨n, hn, rfl⟩ := Option.map_eq_some_iff.mp h
    obtain ⟨hn0, hle, -⟩ := Bucket.portion_bounds htokens hn
    dsimp only
    split
    · exact hb.move (by omega) (by omega)
    · exact hb
  next =>
    obtain rfl := Option.some_inj.mp h
    exact hb

theorem write_inv {c : Call} {taken : Nat} {b b' : Bucket} (hb : b.Inv) (h : write c taken b = some b') : b'.Inv := by
  rw [write] at h
  split at h
  next htokens =>
    obtain ⟨n, hn, rfl⟩ := Option.map_eq_some_iff.mp h
    obtain ⟨hn0, hle, -⟩ := Bucket.portion_bounds htokens hn
    exact hb.move (by omega) hle
  next =>
    obtain rfl := Option.some_inj.mp h
    exact hb

structure Inv (s : State) : Prop where
  down : s.down.Inv
  up : s.up.Inv

theorem refill_inv {limit : Nat} {b : Bucket} (h : Bucket.refill limit = some b) : b.Inv := by
  rw [Bucket.refill_eq] at h
  split at h
  next =>
    obtain rfl := Option.some_inj.mp h
    constructor
    · dsimp only
      omega
    · dsimp only
      omega
  next => cases h

theorem step_inv {s s' : State} {a : Act} (hs : Inv s) (h : step s a = some s') : Inv s' := by
  obtain ⟨hdown, hup⟩ := hs
  cases a with
  | refillDown downLimit =>
    rw [step, Option.map_eq_some_iff] at h
    obtain ⟨b, hb, rfl⟩ := h
    exact ⟨refill_inv hb, hup⟩
  | refillUp upLimit =>
    rw [step, Option.map_eq_some_iff] at h
    obtain ⟨b, hb, rfl⟩ := h
    exact ⟨hdown, refill_inv hb⟩
  | read c got =>
    rw [step, Option.map_eq_some_iff] at h
    obtain ⟨b, hb, rfl⟩ := h
    exact ⟨read_inv hdown hb, hup⟩
  | write c taken =>
    rw [step, Option.map_eq_some_iff] at h
    obtain ⟨b, hb, rfl⟩ := h
    exact ⟨hdown, write_inv hup hb⟩

/-- A refill is moderate when it is well-defined. -/
theorem isSome_refill (limit : Nat) : (Bucket.refill limit).isSome ↔ limit < 2 ^ 21 := by
  rw [Bucket.refill_eq]
  split
  next h => exact iff_of_true rfl h
  next h => exact iff_of_false Bool.false_ne_true h

theorem isSome_portion (c : Call) (b : Bucket) : (b.portion c).isSome ↔ c.limit < 2 ^ 21 := by
  rw [Bucket.portion_eq]
  split
  next h => exact iff_of_true rfl h
  next h => exact iff_of_false Bool.false_ne_true h

/-- A section is well-defined, and asks for a byte, exactly when it is moderate. -/
theorem moderate_iff (s : State) (a : Act) : Moderate s a ↔ Asks s a ∧ ∃ s', step s a = some s' := by
  rw [← Option.isSome_iff_exists]
  cases a with
  | refillDown downLimit => simp only [Moderate, Asks, step, Option.isSome_map, true_and, isSome_refill]
  | refillUp upLimit => simp only [Moderate, Asks, step, Option.isSome_map, true_and, isSome_refill]
  | read c got =>
    simp only [Moderate, Asks, step, Option.isSome_map, read]
    by_cases htokens : 0 < s.down.tokens
    · simp only [htokens, if_true, true_implies, Option.isSome_map, isSome_portion]
      constructor
      · rintro ⟨hlimit, htransfers⟩
        obtain ⟨n, hn⟩ := Option.isSome_iff_exists.mp ((isSome_portion c s.down).mpr hlimit)
        exact ⟨⟨n, hn, (Bucket.portion_bounds htokens hn).2.2.mpr htransfers⟩, hlimit⟩
      · rintro ⟨⟨n, hn, hone⟩, hlimit⟩
        exact ⟨hlimit, (Bucket.portion_bounds htokens hn).2.2.mp hone⟩
    · simp [htokens]
  | write c taken =>
    simp only [Moderate, Asks, step, Option.isSome_map, write, true_and]
    by_cases htokens : 0 < s.up.tokens
    · simp only [htokens, if_true, true_implies, Option.isSome_map, isSome_portion]
    · simp [htokens]

theorem runsWell_iff_of_inv {s : State} (hs : Inv s) (acts : List Act) : RunsWell s acts ↔ ModerateRun s acts := by
  induction acts generalizing s with
  | nil => exact iff_of_true ⟨hs.down.kept, hs.up.kept⟩ trivial
  | cons a acts ih =>
    rw [RunsWell, ModerateRun, moderate_iff]
    constructor
    · rintro ⟨-, -, hasks, s', hs', hrun⟩
      refine ⟨⟨hasks, s', hs'⟩, fun t ht => ?_⟩
      obtain rfl := Option.some_inj.mp (hs'.symm.trans ht)
      exact (ih (step_inv hs hs')).mp hrun
    · rintro ⟨⟨hasks, s', hs'⟩, hrun⟩
      exact ⟨hs.down.kept, hs.up.kept, hasks, s', hs', (ih (step_inv hs hs')).mpr (hrun s' hs')⟩

theorem start_inv : Inv start := by
  have h : Bucket.start.Inv := ⟨Int.le_refl 0, Int.le_refl 0⟩
  exact ⟨h, h⟩

/-- Every run keeps the account, and its reads ask for a byte, exactly when all its sections are moderate. -/
theorem runsWell_iff (acts : List Act) : RunsWell start acts ↔ ModerateRun start acts :=
  runsWell_iff_of_inv start_inv acts

/-- A read under the limit of 1 KiB/s, with 1025 downloads. -/
def crowded : Call := ⟨1, Nat.succ_pos _, 1025, Nat.succ_pos _, 1024, Nat.succ_pos _⟩

theorem not_runsWell : ¬∀ acts, RunsWell start acts := by
  intro h
  obtain ⟨-, -, -, s, hs, -, -, hasks, -⟩ := h [.refillDown 1, .read crowded 0]
  have hs : (⟨⟨1024, 0, 1⟩, Bucket.start⟩ : State) = s := Option.some_inj.mp hs
  subst hs
  obtain ⟨n, hn, hone⟩ := hasks (by decide)
  rw [Bucket.portion_eq, if_pos (by decide)] at hn
  have hn : min 0 (min 1024 1024) = n := Option.some_inj.mp hn
  omega

end Dcpp.ThrottleManager
