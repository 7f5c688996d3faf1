import Mathlib.Algebra.Order.Field.Rat
import Mathlib.Tactic.NormNum
import Dcpp.Library.Runs

-- The size of the segments that a connection asks for.
namespace Dcpp.UserConnection

/-- A result of signed 64-bit arithmetic, if it does not overflow. -/
def int64 (n : Int) : Option Int := if -2 ^ 63 ≤ n ∧ n < 2 ^ 63 then some n else none

/-- The milliseconds that a segment should take. -/
def SEGMENT_TIME : Int := 120 * 1000
def MIN_CHUNK_SIZE : Int := 512 * 1024

/-- How long `targetSize` would take with the speed of the last segment. -/
def msecs (targetSize lastChunk : Int) (ticks : Nat) : ℚ :=
  let lastSpeed : ℚ := 1000 * lastChunk / ticks
  1000 * targetSize / lastSpeed

def updateChunkSize (leafSize lastChunk : Int) (ticks : Nat) (chunkSize : Int) : Option Int :=
  if chunkSize = 0 then some (max MIN_CHUNK_SIZE (min lastChunk (1024 * 1024)))
  -- such fast transfers cannot be relied on
  else if ticks ≤ 10 then int64 (chunkSize * 2)
  else
    let targetSize := chunkSize
    let msecs := msecs targetSize lastChunk ticks
    if msecs < SEGMENT_TIME.tdiv 4 then int64 (targetSize * 2)
    else if msecs < SEGMENT_TIME / 1.25 then int64 (targetSize + leafSize)
    else if msecs < SEGMENT_TIME * 1.25 then some targetSize
    else if msecs < SEGMENT_TIME * 4 then (int64 (targetSize - chunkSize)).map (max MIN_CHUNK_SIZE)
    else some (max MIN_CHUNK_SIZE (targetSize.tdiv 2))

/-- What a segment calls for, from the fastest to the slowest. -/
inductive Pace where
  | double
  | add
  | keep
  | least
  | halve
deriving DecidableEq

def Pace.next (leafSize chunkSize : Int) : Pace → Int
  | .double => chunkSize * 2
  | .add => chunkSize + leafSize
  | .keep => chunkSize
  | .least => MIN_CHUNK_SIZE
  | .halve => max MIN_CHUNK_SIZE (chunkSize / 2)

/-- The pace of a segment, by the time that `chunkSize` would take. -/
def pace (lastChunk : Int) (ticks : Nat) (chunkSize : Int) : Pace :=
  if ticks ≤ 10 ∨ msecs chunkSize lastChunk ticks < 30000 then .double
  else if msecs chunkSize lastChunk ticks < 96000 then .add
  else if msecs chunkSize lastChunk ticks < 150000 then .keep
  else if msecs chunkSize lastChunk ticks < 480000 then .least
  else .halve

theorem min_chunk_size_pos : 0 < MIN_CHUNK_SIZE := by decide

theorem updateChunkSize_first (leafSize lastChunk : Int) (ticks : Nat) :
    updateChunkSize leafSize lastChunk ticks 0 = some (max MIN_CHUNK_SIZE (min lastChunk (1024 * 1024))) :=
  if_pos rfl

/-- Later calls change the size by the pace. -/
theorem updateChunkSize_eq (leafSize lastChunk : Int) (ticks : Nat) {chunkSize : Int} (h : MIN_CHUNK_SIZE ≤ chunkSize) :
    updateChunkSize leafSize lastChunk ticks chunkSize =
      match pace lastChunk ticks chunkSize with
      | .double => int64 (chunkSize * 2)
      | .add => int64 (chunkSize + leafSize)
      | p => some (p.next leafSize chunkSize) := by
  have hpos := min_chunk_size_pos
  have h4 : ((SEGMENT_TIME.tdiv 4 : Int) : ℚ) = 30000 := by
    rw [show SEGMENT_TIME.tdiv 4 = 30000 by decide]
    norm_num
  have h125 : (SEGMENT_TIME : ℚ) / 1.25 = 96000 := by norm_num [SEGMENT_TIME]
  have h125' : (SEGMENT_TIME : ℚ) * 1.25 = 150000 := by norm_num [SEGMENT_TIME]
  have h4' : (SEGMENT_TIME : ℚ) * 4 = 480000 := by norm_num [SEGMENT_TIME]
  rw [updateChunkSize, if_neg (by omega), pace]
  dsimp only
  rw [h4, h125, h125', h4', Int.sub_self]
  by_cases hfast : ticks ≤ 10
  · rw [if_pos hfast, if_pos (Or.inl hfast)]
  · rw [if_neg hfast]
    by_cases h1 : msecs chunkSize lastChunk ticks < 30000
    · rw [if_pos h1, if_pos (Or.inr h1)]
    · rw [if_neg h1, if_neg (not_or.mpr ⟨hfast, h1⟩)]
      by_cases h2 : msecs chunkSize lastChunk ticks < 96000
      · rw [if_pos h2, if_pos h2]
      · rw [if_neg h2, if_neg h2]
        by_cases h3 : msecs chunkSize lastChunk ticks < 150000
        · rw [if_pos h3, if_pos h3]
          rfl
        · rw [if_neg h3, if_neg h3]
          by_cases h5 : msecs chunkSize lastChunk ticks < 480000
          · rw [if_pos h5, if_pos h5]
            rfl
          · rw [if_neg h5, if_neg h5, Int.tdiv_eq_ediv_of_nonneg (by omega)]
            rfl

/-- The order of the paces. -/
def Pace.rank : Pace → Nat
  | .double => 0
  | .add => 1
  | .keep => 2
  | .least => 3
  | .halve => 4

theorem msecs_mono {chunkSize lastChunk : Int} (hc : 0 ≤ chunkSize) (hl : 0 < lastChunk) {ticks ticks' : Nat}
    (h : ticks ≤ ticks') : msecs chunkSize lastChunk ticks ≤ msecs chunkSize lastChunk ticks' := by
  have hl' : (0 : ℚ) < lastChunk := by exact_mod_cast hl
  have hc' : (0 : ℚ) ≤ chunkSize := by exact_mod_cast hc
  have ht : (ticks : ℚ) ≤ ticks' := by exact_mod_cast h
  have heq : ∀ n : Nat, msecs chunkSize lastChunk n = chunkSize / lastChunk * n := by
    intro n
    rw [msecs, div_div_eq_mul_div, mul_assoc, mul_div_mul_left _ _ (by norm_num : (1000 : ℚ) ≠ 0), div_mul_eq_mul_div]
  rw [heq, heq]
  exact mul_le_mul_of_nonneg_left ht (div_nonneg hc' hl'.le)

/-- A slower transfer has no faster pace. -/
theorem pace_mono {chunkSize lastChunk : Int} (hc : 0 ≤ chunkSize) (hl : 0 < lastChunk) {ticks ticks' : Nat}
    (h : ticks ≤ ticks') : (pace lastChunk ticks chunkSize).rank ≤ (pace lastChunk ticks' chunkSize).rank := by
  have hm := msecs_mono hc hl h
  have hfast : ∀ {x : ℚ}, ticks' ≤ 10 ∨ msecs chunkSize lastChunk ticks' < x → ticks ≤ 10 ∨ msecs chunkSize lastChunk ticks < x :=
    fun h' => h'.imp h.trans hm.trans_lt
  rw [pace, pace]
  by_cases h1 : ticks' ≤ 10 ∨ msecs chunkSize lastChunk ticks' < 30000
  · rw [if_pos (hfast h1)]
    exact Nat.zero_le _
  · rw [if_neg h1]
    by_cases h2 : msecs chunkSize lastChunk ticks' < 96000
    · rw [if_pos h2, if_pos (hm.trans_lt h2)]
      split <;> decide
    · rw [if_neg h2]
      by_cases h3 : msecs chunkSize lastChunk ticks' < 150000
      · rw [if_pos h3, if_pos (hm.trans_lt h3)]
        repeat' split
        all_goals decide
      · rw [if_neg h3]
        by_cases h4 : msecs chunkSize lastChunk ticks' < 480000
        · rw [if_pos h4, if_pos (hm.trans_lt h4)]
          repeat' split
          all_goals decide
        · rw [if_neg h4]
          repeat' split
          all_goals decide

/-- The new size is a number of 64 bits. -/
def Pace.Fits (leafSize chunkSize : Int) : Pace → Prop
  | .double => chunkSize < 2 ^ 62
  | .add => chunkSize + leafSize < 2 ^ 63
  | _ => True

theorem int64_eq_some_iff {n : Int} (hn : 0 ≤ n) (m : Int) : int64 n = some m ↔ m = n ∧ n < 2 ^ 63 := by
  rw [int64]
  split
  next h => rw [Option.some_inj, and_iff_left h.2, eq_comm]
  next h => exact iff_of_false nofun fun hm => h ⟨by omega, hm.2⟩

theorem updateChunkSize_eq_some_iff {leafSize lastChunk : Int} (hl : 0 ≤ leafSize) {ticks : Nat} {chunkSize m : Int}
    (h : MIN_CHUNK_SIZE ≤ chunkSize) : updateChunkSize leafSize lastChunk ticks chunkSize = some m ↔
      m = (pace lastChunk ticks chunkSize).next leafSize chunkSize ∧
        (pace lastChunk ticks chunkSize).Fits leafSize chunkSize := by
  have hpos := min_chunk_size_pos
  rw [updateChunkSize_eq _ _ _ h]
  cases pace lastChunk ticks chunkSize with
  | double =>
    refine (int64_eq_some_iff (by omega) m).trans ?_
    rw [Pace.next, Pace.Fits]
    omega
  | add => exact int64_eq_some_iff (by omega) m
  | keep | least | halve => exact Option.some_inj.trans (eq_comm.trans (and_iff_left trivial).symm)

theorem Pace.min_le_next {leafSize chunkSize : Int} (hl : 0 ≤ leafSize) (h : MIN_CHUNK_SIZE ≤ chunkSize) (p : Pace) :
    MIN_CHUNK_SIZE ≤ p.next leafSize chunkSize := by
  have hpos := min_chunk_size_pos
  cases p with
  | double =>
    rw [next]
    omega
  | add =>
    rw [next]
    omega
  | keep => exact h
  | least => exact le_rfl
  | halve => exact le_max_left _ _

/-- A slower pace leads to a larger size only when a leaf is larger than the size, and from the size that is least to
half of a large one. -/
theorem Pace.next_le_iff {leafSize chunkSize : Int} (hl : 0 ≤ leafSize) (h : MIN_CHUNK_SIZE ≤ chunkSize) {p q : Pace}
    (hpq : p.rank ≤ q.rank) : q.next leafSize chunkSize ≤ p.next leafSize chunkSize ↔
      (p = .double → q = .add → leafSize ≤ chunkSize) ∧
        (p = .least → q = .halve → chunkSize < 2 * MIN_CHUNK_SIZE + 2) := by
  have hpos := min_chunk_size_pos
  cases p <;> cases q <;>
    simp only [rank, next, reduceCtorEq, false_imp_iff, forall_const, and_true, true_and, iff_true] at hpq ⊢ <;> omega

/-- What `updateChunkSize` is called with after a segment. -/
structure Chunk where
  leafSize : Int
  lastChunk : Int
  ticks : Nat
deriving DecidableEq

def Chunk.Valid (k : Chunk) : Prop := 0 ≤ k.leafSize ∧ 0 < k.lastChunk

def step (chunkSize : Int) (k : Chunk) : Option Int := updateChunkSize k.leafSize k.lastChunk k.ticks chunkSize

/-- The condition on a call: the size is doubled only below 2^62, and a leaf is added only if the sum has 64 bits. -/
def Fits (chunkSize : Int) (k : Chunk) : Prop :=
  chunkSize = 0 ∨ (pace k.lastChunk k.ticks chunkSize).Fits k.leafSize chunkSize

theorem step_first {chunkSize : Int} (h : chunkSize = 0) (k : Chunk) :
    ∃ c, step chunkSize k = some c ∧ MIN_CHUNK_SIZE ≤ c := by
  subst h
  exact ⟨_, updateChunkSize_first _ _ _, le_max_left _ _⟩

/-- A call gives a size, which is not too small, exactly under the condition. -/
theorem step_iff {chunkSize : Int} (h : chunkSize = 0 ∨ MIN_CHUNK_SIZE ≤ chunkSize) {k : Chunk} (hk : k.Valid) :
    (∃ c, step chunkSize k = some c ∧ MIN_CHUNK_SIZE ≤ c) ↔ Fits chunkSize k := by
  obtain h | h := h
  · exact iff_of_true (step_first h k) (Or.inl h)
  · have hpos := min_chunk_size_pos
    rw [Fits, or_iff_right (by omega)]
    constructor
    · intro ⟨c, hc, _⟩
      exact ((updateChunkSize_eq_some_iff hk.1 h).mp hc).2
    · intro hfits
      exact ⟨_, (updateChunkSize_eq_some_iff hk.1 h).mpr ⟨rfl, hfits⟩, Pace.min_le_next hk.1 h _⟩

/-- Each call of a sequence gives a size that is not too small. -/
def Bounded (chunks : List Chunk) : Prop :=
  ∀ i, 0 < i → i ≤ chunks.length → ∃ c, Runs.run step 0 (chunks.take i) = some c ∧ MIN_CHUNK_SIZE ≤ c

theorem run_bounded {chunks : List Chunk} (hv : ∀ k ∈ chunks, k.Valid) (hm : Runs.Each step Fits 0 chunks) :
    ∃ c, Runs.run step 0 chunks = some c ∧ (chunks = [] ∧ c = 0 ∨ MIN_CHUNK_SIZE ≤ c) := by
  induction chunks using List.reverseRecOn with
  | nil => exact ⟨0, rfl, Or.inl ⟨rfl, rfl⟩⟩
  | append_singleton ks k ih =>
    obtain ⟨hks, hk⟩ := Runs.each_append_singleton hm
    obtain ⟨c, hc, hmin⟩ := ih (fun k' hk' => hv k' (List.mem_append_left _ hk')) hks
    obtain ⟨c', hc', hmin'⟩ := (step_iff (hmin.imp_left And.right) (hv k (List.mem_append_right _ List.mem_cons_self))).mpr (hk c hc)
    refine ⟨c', ?_, Or.inr hmin'⟩
    rw [Runs.run_append, hc, Option.bind_some, Runs.run_singleton, hc']

theorem bounded_iff {chunks : List Chunk} (hv : ∀ k ∈ chunks, k.Valid) :
    Bounded chunks ↔ Runs.Each step Fits 0 chunks := by
  constructor
  · intro h i hi c hc
    have hmin : c = 0 ∨ MIN_CHUNK_SIZE ≤ c := by
      cases i with
      | zero => exact Or.inl (Option.some.inj hc).symm
      | succ i =>
        obtain ⟨c', hc', hmin⟩ := h (i + 1) (Nat.succ_pos i) hi.le
        rw [hc'] at hc
        exact Or.inr (Option.some.inj hc ▸ hmin)
    refine (step_iff hmin (hv _ (List.getElem_mem hi))).mp ?_
    obtain ⟨c', hc', hmin'⟩ := h (i + 1) (Nat.succ_pos i) hi
    rw [Runs.run_take_succ hi, hc, Option.bind_some] at hc'
    exact ⟨c', hc', hmin'⟩
  · intro hm i hpos hi
    obtain ⟨c, hc, hmin⟩ := run_bounded (fun k hk => hv k (List.mem_of_mem_take hk)) (Runs.each_take hm i)
    refine ⟨c, hc, hmin.resolve_left fun hnil => ?_⟩
    have hlen := congrArg List.length hnil.1
    rw [List.length_take_of_le hi] at hlen
    exact absurd hlen hpos.ne'

/-- The condition on two calls from the same state: not a fast and a slower one with a leaf larger than the size, and
not a slow and a slower one with a size of twice the least and more. -/
def Steady (leafSize lastChunk : Int) (ticks ticks' : Nat) (chunkSize : Int) : Prop :=
  chunkSize = 0 ∨
    (pace lastChunk ticks chunkSize = .double → pace lastChunk ticks' chunkSize = .add → leafSize ≤ chunkSize) ∧
      (pace lastChunk ticks chunkSize = .least → pace lastChunk ticks' chunkSize = .halve →
        chunkSize < 2 * MIN_CHUNK_SIZE + 2)

theorem updateChunkSize_le_iff {chunkSize leafSize lastChunk : Int} (h : chunkSize = 0 ∨ MIN_CHUNK_SIZE ≤ chunkSize)
    (hl : 0 ≤ leafSize) (hlast : 0 < lastChunk) {ticks ticks' : Nat} (ht : ticks ≤ ticks') {m m' : Int}
    (hm : updateChunkSize leafSize lastChunk ticks chunkSize = some m)
    (hm' : updateChunkSize leafSize lastChunk ticks' chunkSize = some m') :
    m' ≤ m ↔ Steady leafSize lastChunk ticks ticks' chunkSize := by
  obtain rfl | h := h
  · rw [updateChunkSize_first] at hm hm'
    rw [← Option.some.inj hm, ← Option.some.inj hm']
    exact iff_of_true le_rfl (Or.inl rfl)
  · have hpos := min_chunk_size_pos
    rw [((updateChunkSize_eq_some_iff hl h).mp hm).1, ((updateChunkSize_eq_some_iff hl h).mp hm').1,
      Pace.next_le_iff hl h (pace_mono (by omega) hlast ht), Steady, or_iff_right (by omega)]

/-- Small segments that each take no time. -/
def fast (n : Nat) : List Chunk := List.replicate n ⟨1024, 1024, 0⟩

theorem fast_valid (n : Nat) : ∀ k ∈ fast n, k.Valid := by
  intro k hk
  rw [List.eq_of_mem_replicate hk]
  exact ⟨by decide, by decide⟩

end Dcpp.UserConnection
