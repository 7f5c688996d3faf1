import Mathlib.Algebra.Order.BigOperators.Group.List
import Mathlib.Algebra.Order.Group.Int
import Mathlib.Algebra.Ring.Int.Defs
import Dcpp.Hasher

-- What the hasher shows of its progress.
namespace Dcpp.HashManager

/-- A `Hasher` with its `currentSize`. The other two are no members: the size that was recorded for the file that is
hashed, and the bytes read from it so far. -/
structure Progress where
  hasher : Hasher
  currentSize : Int64
  recorded : Int
  read : Nat
deriving DecidableEq

namespace Progress

/-- What the callback of `read` makes of `currentSize`, with the conversions of the source. -/
def decrease (currentSize : Int64) (n : UInt64) : Int64 := (max (currentSize.toUInt64 - n) 0).toInt64

def take (p : Progress) : Progress :=
  match p.hasher.w with
  | [] => p
  | i :: _ => { p with currentSize := Int64.ofInt i.2, recorded := i.2, read := 0 }

/-- What a statement of the worker does to the members here; `n` is the length of the chunk that is read, if one is. -/
def count (chunk : Bool) (n : UInt64) (p : Progress) : Progress :=
  match p.hasher.worker with
  | .taking => p.take
  | .hashing fname =>
    if chunk && !fname.isEmpty then { p with currentSize := decrease p.currentSize n, read := p.read + n.toNat }
    else { p with currentSize := 0, recorded := 0, read := 0 }
  | _ => p

def change (p : Progress) (e : Hasher.Event × UInt64) : Progress :=
  match e.1 with
  | .work chunk => p.count chunk e.2
  | _ => p

def step (p : Progress) (e : Hasher.Event × UInt64) : Option Progress :=
  (p.hasher.step e.1).map fun h => { p.change e with hasher := h }

def start : Progress := ⟨Hasher.start, 0, 0, 0⟩

/-- The `bytesLeft` of `getStats`. -/
def bytesLeft (p : Progress) : UInt64 :=
  p.hasher.w.foldl (fun bytesLeft i => bytesLeft + UInt64.ofInt i.2) 0 + p.currentSize.toUInt64

/-- The sizes of the current file and of those that wait. -/
def sizes (p : Progress) : Int := p.recorded + (p.hasher.w.map Prod.snd).sum

/-- What is shown to be left is no more than there was. -/
def Within (p : Progress) : Prop := p.currentSize.toInt ≤ p.recorded ∧ (p.bytesLeft.toNat : Int) ≤ p.sizes

/-- The size of a file, in 64 bits with a sign. -/
def IsSize (size : Int) : Prop := 0 ≤ size ∧ size < 2 ^ 63

/-- A file is queued with a size. -/
def Sized (e : Hasher.Event × UInt64) : Prop :=
  match e.1 with
  | .hashFile _ size => IsSize size
  | _ => True

/-- The sizes are sizes, and the counter is what is left of the one recorded, in 64 bits. -/
structure Counted (p : Progress) : Prop where
  queued : ∀ i ∈ p.hasher.w, IsSize i.2
  recorded : IsSize p.recorded
  counter : p.currentSize = Int64.ofInt (p.recorded - p.read)

theorem isSize_zero : IsSize 0 := ⟨Int.le_refl 0, by decide⟩

theorem start_counted : Counted start := ⟨nofun, isSize_zero, rfl⟩

theorem max_zero (x : UInt64) : max x 0 = x := by
  change (if x ≤ 0 then 0 else x) = x
  split
  next h => exact UInt64.le_antisymm UInt64.zero_le h
  next => rfl

/-- The guard does nothing: no unsigned number is below zero. -/
theorem decrease_eq (z : Int) (n : UInt64) : decrease (Int64.ofInt z) n = Int64.ofInt (z - n.toNat) := by
  have hn : n.toInt64 = Int64.ofInt n.toNat := by
    rw [Int64.ofInt_eq_ofNat, ← UInt64.toInt64_ofNat', UInt64.ofNat_toNat]
  rw [decrease, max_zero, UInt64.toInt64_sub, Int64.toInt64_toUInt64, Int64.ofInt_sub, hn]

theorem take_counted {p : Progress} (hc : Counted p) : Counted p.take ∧ p.take.hasher = p.hasher := by
  obtain ⟨hqueued, hrecorded, hcounter⟩ := hc
  rw [take]
  cases hw : p.hasher.w with
  | nil => exact ⟨⟨hqueued, hrecorded, hcounter⟩, rfl⟩
  | cons i w =>
    have hsize : IsSize i.2 := hqueued i (hw ▸ List.mem_cons_self)
    refine ⟨⟨hqueued, hsize, ?_⟩, rfl⟩
    dsimp only
    rw [Nat.cast_zero, Int.sub_zero]

theorem count_counted {p : Progress} (hc : Counted p) (chunk : Bool) (n : UInt64) :
    Counted (p.count chunk n) ∧ (p.count chunk n).hasher = p.hasher := by
  rw [count]
  split
  next => exact take_counted hc
  next fname _ =>
    obtain ⟨hqueued, hrecorded, hcounter⟩ := hc
    split
    next =>
      refine ⟨⟨hqueued, hrecorded, ?_⟩, rfl⟩
      dsimp only
      rw [hcounter, decrease_eq, Int.sub_sub, Nat.cast_add]
    next => exact ⟨⟨hqueued, isSize_zero, rfl⟩, rfl⟩
  next => exact ⟨hc, rfl⟩

theorem change_counted {p : Progress} (hc : Counted p) (e : Hasher.Event × UInt64) :
    Counted (p.change e) ∧ (p.change e).hasher = p.hasher := by
  rw [change]
  split
  next chunk _ => exact count_counted hc chunk e.2
  next => exact ⟨hc, rfl⟩

theorem insert_mem {fileName : Bytes} {size : Int} {w w' : List (Bytes × Int)}
    (h : Hasher.insert fileName size w = some w') {i : Bytes × Int} (hi : i ∈ w') : i = (fileName, size) ∨ i ∈ w := by
  induction w generalizing w' with
  | nil =>
    obtain rfl := Option.some.inj h
    exact Or.inl (List.mem_singleton.mp hi)
  | cons j w ih =>
    rw [Hasher.insert] at h
    split_ifs at h with hlt heq
    · obtain rfl := Option.some.inj h
      exact List.mem_cons.mp hi
    · obtain ⟨v, hv, rfl⟩ := Option.map_eq_some_iff.mp h
      obtain rfl | hi := List.mem_cons.mp hi
      · exact Or.inr List.mem_cons_self
      · exact (ih hv hi).imp_right (List.mem_cons_of_mem j)

/-- A file waits after a step only if it did before, or is queued by it. -/
theorem step_mem {h t : Hasher} {e : Hasher.Event} (ht : h.step e = some t) {i : Bytes × Int} (hi : i ∈ t.w) :
    i ∈ h.w ∨ ∃ fileName size, e = .hashFile fileName size ∧ i = (fileName, size) := by
  cases e with
  | hashFile fileName size =>
    obtain rfl := Option.some.inj ht
    obtain ⟨heq, -⟩ | ⟨w, hw, -, ⟨-, heq⟩ | ⟨-, heq⟩⟩ := Hasher.hashFile_cases fileName size h
    · rw [heq] at hi
      exact Or.inl hi
    all_goals
      rw [heq] at hi
      obtain hnew | hold := insert_mem hw hi
      · exact Or.inr ⟨fileName, size, rfl, hnew⟩
      · exact Or.inl hold
  | stopHashing baseDir =>
    obtain rfl := Option.some.inj ht
    exact Or.inl (List.mem_filter.mp hi).1
  | pause =>
    obtain rfl := Option.some.inj ht
    exact Or.inl hi
  | resume =>
    obtain rfl := Option.some.inj ht
    rw [Hasher.resume_eq] at hi
    exact Or.inl hi
  | scheduleRebuild =>
    obtain rfl := Option.some.inj ht
    exact Or.inl hi
  | shutdown =>
    obtain rfl := Option.some.inj ht
    exact Or.inl hi
  | call j =>
    obtain ⟨l, -, rfl | rfl⟩ | ⟨l, -, rfl⟩ := Hasher.call_cases ht
    all_goals exact Or.inl hi
  | work chunk =>
    cases Hasher.works_of_work ht with
    | take hw hcons =>
      left
      rw [hcons]
      exact List.mem_cons_of_mem _ hi
    | _ => exact Or.inl hi

theorem step_counted {p t : Progress} (hc : Counted p) {e : Hasher.Event × UInt64} (he : Sized e)
    (ht : step p e = some t) : Counted t := by
  rw [step, Option.map_eq_some_iff] at ht
  obtain ⟨h, hstep, rfl⟩ := ht
  obtain ⟨⟨-, hrecorded, hcounter⟩, -⟩ := change_counted hc e
  refine ⟨fun i hi => ?_, hrecorded, hcounter⟩
  obtain hold | ⟨fileName, size, heq, rfl⟩ := step_mem hstep hi
  · exact hc.queued i hold
  · rwa [Sized, heq] at he

theorem run_counted {events : List (Hasher.Event × UInt64)} (hsized : ∀ e ∈ events, Sized e) {p : Progress}
    (hp : Runs.run step start events = some p) : Counted p := by
  refine Runs.run_preserves (fun p e t hc (he : Sized e) ht => step_counted hc he ht) start_counted ?_ hp
  exact fun i hi _ _ => hsized _ (List.getElem_mem hi)

theorem toUInt64_ofInt (z : Int) : (Int64.ofInt z).toUInt64 = UInt64.ofInt z := by
  apply UInt64.toNat_inj.mp
  rw [← Int64.toNat_toBitVec, UInt64.ofInt, UInt64.toNat_ofNat']
  change (BitVec.ofInt 64 z).toNat = _
  rw [BitVec.toNat_ofInt]
  omega

theorem toNat_ofInt (z : Int) : ((UInt64.ofInt z).toNat : Int) = z % 2 ^ 64 := by
  rw [UInt64.ofInt, UInt64.toNat_ofNat']
  omega

theorem foldl_ofInt (w : List (Bytes × Int)) (z : Int) :
    w.foldl (fun bytesLeft i => bytesLeft + UInt64.ofInt i.2) (UInt64.ofInt z) =
      UInt64.ofInt (z + (w.map Prod.snd).sum) := by
  induction w generalizing z with
  | nil => rw [List.map_nil, List.sum_nil, Int.add_zero, List.foldl_nil]
  | cons i w ih => rw [List.foldl_cons, ← UInt64.ofInt_add, ih, List.map_cons, List.sum_cons, Int.add_assoc]

theorem Counted.bytesLeft {p : Progress} (hc : Counted p) : (p.bytesLeft.toNat : Int) = (p.sizes - p.read) % 2 ^ 64 := by
  have hsum : p.hasher.w.foldl (fun bytesLeft i => bytesLeft + UInt64.ofInt i.2) 0 =
      UInt64.ofInt (0 + (p.hasher.w.map Prod.snd).sum) := foldl_ofInt p.hasher.w 0
  rw [Progress.bytesLeft, hsum, hc.counter, toUInt64_ofInt, ← UInt64.ofInt_add, toNat_ofInt, sizes]
  congr 1
  omega

theorem Counted.sizes_nonneg {p : Progress} (hc : Counted p) : 0 ≤ p.sizes := by
  have hsum : 0 ≤ (p.hasher.w.map Prod.snd).sum := by
    apply List.sum_nonneg
    intro size hsize
    obtain ⟨i, hi, rfl⟩ := List.mem_map.mp hsize
    exact (hc.queued i hi).1
  have hrecorded := hc.recorded.1
  rw [sizes]
  omega

/-- In every state that is reached, no more is shown to be left than there was, exactly when the bytes read from the
current file, up to multiples of `2 ^ 64`, are at most the sizes of the current and the waiting files, and pass the
recorded size by at most `2 ^ 63`. -/
theorem run_within_iff {events : List (Hasher.Event × UInt64)} (hsized : ∀ e ∈ events, Sized e) {p : Progress}
    (hp : Runs.run step start events = some p) :
    p.Within ↔ (p.read % 2 ^ 64 : Nat) ≤ p.recorded + 2 ^ 63 ∧ (p.read % 2 ^ 64 : Nat) ≤ p.sizes := by
  have hc := run_counted hsized hp
  obtain ⟨hnonneg, hlt⟩ := hc.recorded
  have hsizes := hc.sizes_nonneg
  rw [Within, hc.bytesLeft, hc.counter, Int64.toInt_ofInt]
  refine and_congr ?_ (by omega)
  rw [Int.bmod_def, show (Int64.size : Int) = 2 ^ 64 from rfl]
  split <;> omega

/-- A file of one byte is queued and taken. -/
def oneByte : List (Hasher.Event × UInt64) :=
  [(.hashFile (str "/a") 1, 0), (.work false, 0), (.work false, 0), (.work false, 0), (.work false, 0)]

/-- The chunk has what was recorded. -/
theorem run_within_iff_oneByte : ∃ p, Runs.run step start (oneByte ++ [(.work true, 1)]) = some p ∧
    (p.Within ↔ (p.read % 2 ^ 64 : Nat) ≤ p.recorded + 2 ^ 63 ∧ (p.read % 2 ^ 64 : Nat) ≤ p.sizes) := by
  have hsized : ∀ e ∈ oneByte ++ [(.work true, 1)], Sized e := by
    simp [oneByte, Sized, IsSize]
  obtain ⟨p, hp⟩ := Option.isSome_iff_exists.mp
    (show (Runs.run step start (oneByte ++ [(.work true, 1)])).isSome by decide)
  exact ⟨p, hp, run_within_iff hsized hp⟩

/-- The file has grown to two bytes, and `2 ^ 64 - 1` bytes are shown to be left. -/
theorem not_run_within : ¬∀ (events : List (Hasher.Event × UInt64)) (p : Progress), (∀ e ∈ events, Sized e) →
    Runs.run step start events = some p → p.Within := by
  intro h
  have hsized : ∀ e ∈ oneByte ++ [(.work true, 2)], Sized e := by
    simp [oneByte, Sized, IsSize]
  obtain ⟨p, hp⟩ := Option.isSome_iff_exists.mp
    (show (Runs.run step start (oneByte ++ [(.work true, 2)])).isSome by decide)
  have hleft : (Runs.run step start (oneByte ++ [(.work true, 2)])).any
      (fun p => p.sizes < p.bytesLeft.toNat) = true := by decide +kernel
  rw [hp] at hleft
  exact absurd (h _ p hsized hp).2 (Int.not_le.mpr (of_decide_eq_true hleft))

end Progress

end Dcpp.HashManager
