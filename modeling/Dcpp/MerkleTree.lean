import Dcpp.Library.HashTree
import Mathlib.Data.List.Induction

namespace Dcpp

/-- A hash value: `BYTES` bytes of `data`. -/
abbrev HashValue (BYTES : Nat) := Vector UInt8 BYTES

/-- `Hasher`: `update` and `finalize` over the bytes given so far. -/
abbrev Hasher (BYTES : Nat) := List UInt8 → HashValue BYTES

/-- What a tree computes with its `Hasher`: the hash of a base block, and `combine`. -/
structure TreeHasher (V : Type) where
  hashBase : List UInt8 → V
  combine : V → V → V

/-- A base block is hashed after a zero byte, two values after a byte 1. -/
def Hasher.tree {BYTES : Nat} (H : Hasher BYTES) : TreeHasher (HashValue BYTES) where
  hashBase data := H (0 :: data)
  combine a b := H (1 :: (a.toList ++ b.toList))

@[simp] theorem Hasher.tree_hashBase {BYTES : Nat} (H : Hasher BYTES) (data : List UInt8) :
    H.tree.hashBase data = H (0 :: data) := rfl

@[simp] theorem Hasher.tree_combine {BYTES : Nat} (H : Hasher BYTES) (a b : HashValue BYTES) :
    H.tree.combine a b = H (1 :: (a.toList ++ b.toList)) := rfl

/-- The state of a `MerkleTree`. The last element of the source's `blocks` is the
head of the list here. -/
structure MerkleTree (V : Type) where
  blocks : List (V × Nat)
  leaves : List V
  root : V
  fileSize : Nat
  blockSize : Nat
deriving DecidableEq

namespace MerkleTree

open Chunks HashTree

def baseBlockSize : Nat := 1024

variable {V : Type} (H : TreeHasher V)

/-- `MerkleTree(int64_t aBlockSize)`. -/
def ofBlockSize [Inhabited V] (aBlockSize : Nat) : MerkleTree V :=
  ⟨[], [], default, 0, aBlockSize⟩

/-- `MerkleTree(int64_t aFileSize, int64_t aBlockSize, const MerkleValue& aRoot)`. -/
def ofRoot (aFileSize aBlockSize : Nat) (aRoot : V) : MerkleTree V :=
  ⟨[], [aRoot], aRoot, aFileSize, aBlockSize⟩

def calcBlocks (aFileSize aBlockSize : Nat) : Nat :=
  max ((aFileSize + aBlockSize - 1) / aBlockSize) 1

/-- The loop of `reduceBlocks`, on `blocks` and `leaves`. -/
def reduceBlocks (blockSize : Nat) :
    List (V × Nat) → List V →
      List (V × Nat) × List V
  | b :: a :: blocks, leaves =>
    if a.2 = b.2 then
      if a.2 * 2 = blockSize then reduceBlocks blockSize blocks (leaves ++ [H.combine a.1 b.1])
      else reduceBlocks blockSize ((H.combine a.1 b.1, a.2 * 2) :: blocks) leaves
    else (b :: a :: blocks, leaves)
  | blocks, leaves => (blocks, leaves)
termination_by blocks => blocks.length
decreasing_by
  all_goals
    simp only [List.length_cons]
    omega

/-- The body of the loop of `update`. -/
def addBase (t : MerkleTree V) (buf : List UInt8) : MerkleTree V :=
  if baseBlockSize < t.blockSize then
    let r := reduceBlocks H t.blockSize ((H.hashBase buf, baseBlockSize) :: t.blocks) t.leaves
    { t with blocks := r.1, leaves := r.2 }
  else { t with leaves := t.leaves ++ [H.hashBase buf] }

/-- The `do` loop of `update`: it runs once even for an empty `data`. -/
def updateLoop (t : MerkleTree V) (data : List UInt8) : MerkleTree V :=
  let t := addBase H t (data.take baseBlockSize)
  if data.length ≤ baseBlockSize then t else updateLoop t (data.drop baseBlockSize)
termination_by data.length
decreasing_by
  simp only [baseBlockSize, List.length_drop] at *
  omega

/-- Skips an empty `data` once there is something in the tree. -/
def update (t : MerkleTree V) (data : List UInt8) : MerkleTree V :=
  if data.length = 0 ∧ ¬(t.leaves = [] ∧ t.blocks = []) then t
  else
    let r := updateLoop H t data
    { r with fileSize := r.fileSize + data.length }

/-- `int64_t l = blockSize; while(l * 2 < length) l *= 2;` -/
def splitLength (length : Nat) : Nat → Nat → Nat
  | 0, l => l
  | fuel + 1, l => if l * 2 < length then splitLength length fuel (l * 2) else l

/-- The recursion of `getHash`; the index of a leaf is cast to `uint32_t`. The
result is `none` where the source reads past the leaves. -/
def getHash (t : MerkleTree V) : Nat → Nat → Nat → Option (V)
  | 0, _, _ => none
  | fuel + 1, start, length =>
    if length ≤ t.blockSize then t.leaves[start / t.blockSize % 2 ^ 32]?
    else
      let l := splitLength length length t.blockSize
      match getHash t fuel start l, getHash t fuel (start + l) (length - l) with
      | some a, some b => some (H.combine a b)
      | _, _ => none

def setFileSize (t : MerkleTree V) (aSize : Nat) : MerkleTree V := { t with fileSize := aSize }

def calcRoot (t : MerkleTree V) : Option (MerkleTree V) :=
  (getHash H t (t.fileSize + 1) 0 t.fileSize).map fun r => { t with root := r }

/-- The loop of `finalize` that puts the remaining blocks together. -/
def collapse : List (V × Nat) → List (V × Nat)
  | b :: a :: blocks => collapse ((H.combine a.1 b.1, a.2) :: blocks)
  | blocks => blocks
termination_by blocks => blocks.length

def finalize (t : MerkleTree V) : Option (MerkleTree V) :=
  let t := if t.leaves = [] ∧ t.blocks = [] then update H t [] else t
  let blocks := collapse H t.blocks
  calcRoot H { t with blocks := blocks, leaves := t.leaves ++ (blocks.head?.map Prod.fst).toList }

def getLeafData {BYTES : Nat} (t : MerkleTree (HashValue BYTES)) : List UInt8 :=
  t.leaves.flatMap Vector.toList

/-- `MerkleValue(aData + i * BYTES)`. -/
def leafAt {BYTES : Nat} (aData : List UInt8) (i : Nat) : HashValue BYTES :=
  Vector.ofFn fun j : Fin BYTES => aData.getD (i * BYTES + j) 0

/-- `MerkleTree(int64_t aFileSize, int64_t aBlockSize, uint8_t* aData)`. -/
def ofLeafData {BYTES : Nat} (H : TreeHasher (HashValue BYTES)) (aFileSize aBlockSize : Nat)
    (aData : List UInt8) : Option (MerkleTree (HashValue BYTES)) :=
  calcRoot H
    { blocks := [], leaves := (List.range (calcBlocks aFileSize aBlockSize)).map (leafAt aData),
      root := default, fileSize := aFileSize, blockSize := aBlockSize }

@[simp] theorem reduceBlocks_nil (B : Nat) (leaves : List V) :
    reduceBlocks H B [] leaves = ([], leaves) := by
  rw [reduceBlocks]
  simp

@[simp] theorem reduceBlocks_singleton (B : Nat) (b : V × Nat)
    (leaves : List V) : reduceBlocks H B [b] leaves = ([b], leaves) := by
  rw [reduceBlocks]
  simp

@[simp] theorem collapse_singleton (b : V × Nat) : collapse H [b] = [b] := by
  rw [collapse]
  simp

/-- The base blocks of some data; no data still makes one, which is empty. -/
def baseBlocks (data : List UInt8) : List (List UInt8) :=
  if data = [] then [[]] else chunks baseBlockSize data

theorem baseBlocks_ne_nil (data : List UInt8) : baseBlocks data ≠ [] := by
  rw [baseBlocks]
  split
  · simp
  · exact chunks_ne_nil (by decide) ‹_›

theorem updateLoop_eq (t : MerkleTree V) (data : List UInt8) :
    updateLoop H t data = (baseBlocks data).foldl (addBase H) t := by
  have hpos : 0 < baseBlockSize := by decide
  induction hn : data.length using Nat.strong_induction_on generalizing t data with
  | _ n ih =>
    rw [updateLoop, baseBlocks]
    by_cases hd : data = []
    · simp [hd]
    · have hlen := List.length_pos_iff.mpr hd
      rw [if_neg hd, chunks_of_ne_nil hpos hd, List.foldl_cons]
      obtain hle | hlt := le_or_gt data.length baseBlockSize
      · rw [List.drop_eq_nil_of_le hle, chunks_nil, List.foldl_nil]
        exact if_pos hle
      · have hdrop : data.drop baseBlockSize ≠ [] := by
          rw [← List.length_pos_iff, List.length_drop]
          omega
        have h := ih (data.drop baseBlockSize).length (by rw [List.length_drop]; omega)
          (addBase H t (data.take baseBlockSize)) _ rfl
        rw [baseBlocks, if_neg hdrop] at h
        rw [← h]
        exact if_neg (by omega)

theorem addBase_fileSize (t : MerkleTree V) (buf : List UInt8) :
    (addBase H t buf).fileSize = t.fileSize := by
  rw [addBase]
  split <;> rfl

theorem updateLoop_fileSize (t : MerkleTree V) (data : List UInt8) :
    (updateLoop H t data).fileSize = t.fileSize := by
  rw [updateLoop_eq]
  generalize baseBlocks data = bufs
  induction bufs generalizing t with
  | nil => rfl
  | cons buf bufs ih => rw [List.foldl_cons, ih, addBase_fileSize]

variable [Inhabited V]

/-- Pushing a perfect subtree and reducing: equal neighbours are combined until
the sizes differ again or a leaf of `blockSize` is complete. -/
theorem reduceBlocks_stack {u B k : Nat} (hB : ∀ m < k, u * 2 ^ m ≠ B) (hu : 0 < u)
    {rest : List (V × Nat)} {xs : List V}
    (hs : Stack H.combine u rest xs) (j : Nat) (zs : List V)
    (hz : zs.length = 2 ^ j) (hj : j < k) (htop : ∀ e ∈ rest.head?, u * 2 ^ j ≤ e.2)
    (leaves : List V) :
    (xs.length + zs.length < 2 ^ k →
      ∃ s, reduceBlocks H B ((rootOf H.combine zs, u * 2 ^ j) :: rest) leaves = (s, leaves) ∧
        Stack H.combine u s (xs ++ zs)) ∧
    (xs.length + zs.length = 2 ^ k → u * 2 ^ k = B →
      reduceBlocks H B ((rootOf H.combine zs, u * 2 ^ j) :: rest) leaves =
        ([], leaves ++ [rootOf H.combine (xs ++ zs)])) := by
  have hjk := Nat.pow_lt_pow_right (a := 2) (by omega) hj
  induction hs generalizing j zs with
  | nil =>
    refine ⟨fun _ => ⟨_, reduceBlocks_singleton H B _ leaves, ?_⟩, fun h => ?_⟩
    · exact Stack.cons Stack.nil hz (by simp)
    · simp only [List.length_nil] at h
      omega
  | @cons rest xs ys i hs hlen htop' ih =>
    have hji : 2 ^ j ≤ 2 ^ i := Nat.le_of_mul_le_mul_left (htop _ rfl) hu
    have hji' : j ≤ i := (Nat.pow_le_pow_iff_right (by omega)).mp hji
    have hj0 := Nat.two_pow_pos j
    have hp : 2 ^ (j + 1) = 2 ^ j * 2 := pow_succ 2 j
    simp only [List.length_append]
    obtain rfl | hlt := eq_or_lt_of_le hji'
    · have hcomb : H.combine (rootOf H.combine ys) (rootOf H.combine zs) =
          rootOf H.combine (ys ++ zs) := by
        rw [rootOf_append H.combine hlen (by omega) (by omega)]
      have hsize : u * 2 ^ j * 2 = u * 2 ^ (j + 1) := by rw [hp, Nat.mul_assoc]
      have hlen2 : (ys ++ zs).length = 2 ^ (j + 1) := by
        rw [List.length_append]
        omega
      rw [reduceBlocks, if_pos rfl, hcomb, hsize]
      by_cases hk : j + 1 < k
      · rw [if_neg (hB _ hk)]
        have htop'' : ∀ e ∈ rest.head?, u * 2 ^ (j + 1) ≤ e.2 := by
          intro e he
          cases rest with
          | nil => simp at he
          | cons a rest =>
            obtain rfl : a = e := by simpa using he
            obtain ⟨m, hm, -⟩ := hs.pow
            have hlt := htop' _ rfl
            rw [hm] at hlt ⊢
            have hjm := (Nat.pow_lt_pow_iff_right (by omega)).mp (Nat.lt_of_mul_lt_mul_left hlt)
            exact Nat.mul_le_mul_left u (Nat.pow_le_pow_right (by omega) hjm)
        have h := ih (j + 1) (ys ++ zs) hlen2 hk htop'' (Nat.pow_lt_pow_right (by omega) hk)
        rw [hlen2, ← List.append_assoc] at h
        have hsum : xs.length + ys.length + zs.length = xs.length + 2 ^ (j + 1) := by omega
        rw [hsum]
        exact h
      · obtain rfl : k = j + 1 := by omega
        refine ⟨fun h => absurd h (by omega), fun h hBk => ?_⟩
        have hxs : xs = [] := List.length_eq_zero_iff.mp (by omega)
        have hrest : rest = [] := hs.nil_iff.mpr hxs
        rw [if_pos hBk, hrest, hxs, reduceBlocks_nil, List.nil_append]
    · have hne : u * 2 ^ i ≠ u * 2 ^ j := by
        have := Nat.pow_lt_pow_right (a := 2) (by omega) hlt
        have := Nat.mul_lt_mul_of_pos_left this hu
        omega
      rw [reduceBlocks, if_neg hne]
      refine ⟨fun _ => ⟨_, rfl, ?_⟩, fun h _ => ?_⟩
      · exact Stack.cons (Stack.cons hs hlen htop') hz (by
          intro e he
          obtain rfl : _ = e := by simpa using he
          exact lt_of_le_of_ne (Nat.mul_le_mul_left u hji) (Ne.symm hne))
      · exfalso
        obtain ⟨m, hm, hd⟩ := (Stack.cons hs hlen htop').pow
        have him : i = m := by
          have := Nat.eq_of_mul_eq_mul_left hu hm
          exact Nat.pow_right_injective (le_refl 2) this
        subst him
        have h1 : 2 ^ (j + 1) ∣ (xs ++ ys).length := Nat.dvd_trans (pow_dvd_pow 2 hlt) hd
        have h2 : 2 ^ (j + 1) ∣ 2 ^ k := pow_dvd_pow 2 hj
        rw [← h, ← List.length_append, hz] at h2
        have h3 := (Nat.dvd_add_right h1).mp h2
        have := Nat.le_of_dvd hj0 h3
        omega

/-- Putting the stack together yields the root over its whole row. -/
theorem collapse_stack {u : Nat} (hu : 0 < u) {rest : List (V × Nat)}
    {xs : List V} (hs : Stack H.combine u rest xs) {n : Nat}
    {zs : List V} (hz : 0 < zs.length)
    (htop : ∀ e ∈ rest.head?, u * zs.length ≤ e.2) :
    ((collapse H ((rootOf H.combine zs, n) :: rest)).head?.map Prod.fst).toList =
      [rootOf H.combine (xs ++ zs)] := by
  induction hs generalizing n zs with
  | nil => simp
  | @cons rest xs ys i hs hlen htop' ih =>
    have hle : zs.length ≤ 2 ^ i := Nat.le_of_mul_le_mul_left (htop _ rfl) hu
    rw [collapse, ← rootOf_append H.combine hlen hz hle, List.append_assoc]
    refine ih (by simp; omega) ?_
    intro e he
    cases rest with
    | nil => simp at he
    | cons a rest =>
      obtain rfl : a = e := by simpa using he
      obtain ⟨m, hm, -⟩ := hs.pow
      have hlt := htop' _ rfl
      rw [hm] at hlt ⊢
      have him := (Nat.pow_lt_pow_iff_right (by omega)).mp (Nat.lt_of_mul_lt_mul_left hlt)
      have h2 := Nat.pow_le_pow_right (n := 2) (by omega) (Nat.succ_le_of_lt him)
      rw [Nat.succ_eq_add_one, pow_succ] at h2
      refine Nat.mul_le_mul_left u ?_
      rw [List.length_append]
      omega

/-- What the tree holds after the base hashes `xs`, on top of the leaves `pre`:
every complete group is a leaf, and the stack has the rest. -/
def Built (k : Nat) (pre xs : List V) (t : MerkleTree V) : Prop :=
  t.blockSize = baseBlockSize * 2 ^ k ∧ ∃ full rest, xs = full ++ rest ∧ 2 ^ k ∣ full.length ∧
    rest.length < 2 ^ k ∧ t.leaves = pre ++ (chunks (2 ^ k) full).map (rootOf H.combine) ∧
    Stack H.combine baseBlockSize t.blocks rest

variable {H}

theorem addBase_built {k : Nat} {pre xs : List V} {t : MerkleTree V}
    (h : Built H k pre xs t) (buf : List UInt8) :
    Built H k pre (xs ++ [H.hashBase buf]) (addBase H t buf) := by
  obtain ⟨hB, full, rest, rfl, hfull, hrest, hleaves, hstack⟩ := h
  have hpos : 0 < baseBlockSize := by decide
  have hk := Nat.two_pow_pos k
  have hgroup : ∀ ys : List V, ys.length = 2 ^ k →
      2 ^ k ∣ (full ++ ys).length ∧ pre ++ (chunks (2 ^ k) (full ++ ys)).map (rootOf H.combine) =
        t.leaves ++ [rootOf H.combine ys] := by
    intro ys hys
    have hne : ys ≠ [] := by
      rw [← List.length_pos_iff]
      omega
    rw [chunks_append hfull, chunks_of_le hne hys.le, hleaves, List.length_append, hys]
    exact ⟨Nat.dvd_add hfull (dvd_refl _), by simp⟩
  rw [addBase]
  by_cases hk0 : k = 0
  · subst hk0
    rw [if_neg (by omega)]
    have hrest' : rest = [] := List.length_eq_zero_iff.mp (by omega)
    subst hrest'
    obtain ⟨hd, hl⟩ := hgroup [H.hashBase buf] rfl
    rw [rootOf_singleton] at hl
    exact ⟨hB, full ++ [H.hashBase buf], [], by simp, hd, by simp, hl.symm, hstack⟩
  · have hlt : baseBlockSize < t.blockSize := by
      have := Nat.one_lt_two_pow hk0
      rw [hB]
      exact lt_mul_of_one_lt_right hpos this
    have hB' : ∀ m < k, baseBlockSize * 2 ^ m ≠ t.blockSize := by
      intro m hm heq
      rw [hB] at heq
      have := Nat.pow_right_injective (le_refl 2) (Nat.eq_of_mul_eq_mul_left hpos heq)
      omega
    have htop : ∀ e ∈ t.blocks.head?, baseBlockSize * 2 ^ 0 ≤ e.2 := by
      intro e he
      cases hb : t.blocks with
      | nil => simp [hb] at he
      | cons a blocks =>
        rw [hb] at he hstack
        obtain rfl : a = e := by simpa using he
        obtain ⟨m, hm, -⟩ := hstack.pow
        rw [hm]
        exact Nat.mul_le_mul_left _ (Nat.pow_le_pow_right (by omega) (by omega))
    have h := reduceBlocks_stack H hB' hpos hstack 0 [H.hashBase buf] rfl
      (by omega) htop t.leaves
    rw [rootOf_singleton, pow_zero, Nat.mul_one] at h
    rw [if_pos hlt]
    obtain hlen | hlen := lt_or_eq_of_le (Nat.succ_le_of_lt hrest)
    · obtain ⟨s, hs, hst⟩ := h.1 hlen
      rw [hs]
      exact ⟨hB, full, rest ++ [H.hashBase buf], by simp, hfull, by simpa using hlen, hleaves, hst⟩
    · have hr := h.2 hlen hB.symm
      obtain ⟨hd, hl⟩ := hgroup (rest ++ [H.hashBase buf]) (by simpa using hlen)
      rw [hr]
      exact ⟨hB, full ++ (rest ++ [H.hashBase buf]), [], by simp, hd, hk, hl.symm, Stack.nil⟩

theorem foldl_addBase_built {k : Nat} {pre : List V} (bufs : List (List UInt8))
    {xs : List V} {t : MerkleTree V} (h : Built H k pre xs t) :
    Built H k pre (xs ++ bufs.map H.hashBase) (bufs.foldl (addBase H) t) := by
  induction bufs generalizing xs t with
  | nil => simpa using h
  | cons buf bufs ih => simpa using ih (addBase_built h buf)

theorem Built.empty_iff {k : Nat} {pre xs : List V} {t : MerkleTree V}
    (h : Built H k pre xs t) : t.leaves = [] ∧ t.blocks = [] ↔ pre = [] ∧ xs = [] := by
  obtain ⟨-, full, rest, rfl, -, -, hleaves, hstack⟩ := h
  have hfull : chunks (2 ^ k) full = [] ↔ full = [] := by
    refine ⟨fun hc => ?_, fun hf => by rw [hf, chunks_nil]⟩
    by_contra hne
    exact chunks_ne_nil (Nat.two_pow_pos k) hne hc
  rw [hleaves, hstack.nil_iff, List.append_eq_nil_iff, List.map_eq_nil_iff, hfull,
    List.append_eq_nil_iff, and_assoc]

/-- The base blocks that a sequence of `update` calls hashes. -/
def hashed (calls : List (List UInt8)) : List (List UInt8) :=
  calls.foldl (fun done data => if data = [] ∧ done ≠ [] then done else done ++ baseBlocks data) []

variable (H) in
def updates (t : MerkleTree V) (calls : List (List UInt8)) : MerkleTree V :=
  calls.foldl (update H) t

theorem updates_built (k : Nat) (calls : List (List UInt8)) :
    let t := updates H (ofBlockSize (baseBlockSize * 2 ^ k)) calls
    Built H k [] ((hashed calls).map H.hashBase) t ∧ t.fileSize = calls.flatten.length := by
  induction calls using List.reverseRecOn with
  | nil =>
    exact ⟨⟨rfl, [], [], rfl, by simp, Nat.two_pow_pos k, by simp [updates, ofBlockSize],
      Stack.nil⟩, rfl⟩
  | append_singleton calls data ih =>
    obtain ⟨hb, hf⟩ := ih
    simp only [updates, hashed, List.foldl_append, List.foldl_cons, List.foldl_nil] at hb hf ⊢
    generalize calls.foldl (update H) (ofBlockSize (baseBlockSize * 2 ^ k)) = t at hb hf ⊢
    generalize calls.foldl _ ([] : List (List UInt8)) = done at hb ⊢
    have hempty := hb.empty_iff
    simp only [true_and, List.map_eq_nil_iff] at hempty
    have hd : data.length = 0 ∧ ¬(t.leaves = [] ∧ t.blocks = []) ↔ data = [] ∧ ¬done = [] := by
      rw [hempty, List.length_eq_zero_iff]
    rw [update]
    by_cases hskip : data = [] ∧ ¬done = []
    · rw [if_pos (hd.mpr hskip), if_pos hskip]
      exact ⟨hb, by simp [hf, hskip.1]⟩
    · rw [if_neg (fun h => hskip (hd.mp h)), if_neg hskip, List.map_append]
      have hl := foldl_addBase_built (baseBlocks data) hb
      rw [← updateLoop_eq] at hl
      exact ⟨hl, by simp [updateLoop_fileSize, hf]⟩

/-- Every call but the last carries whole base blocks. -/
def Aligned (calls : List (List UInt8)) : Prop := ∀ c ∈ calls.dropLast, baseBlockSize ∣ c.length

theorem foldl_hashed {done : List (List UInt8)} (hdone : done ≠ []) {calls : List (List UInt8)}
    (h : Aligned calls) :
    calls.foldl (fun done data => if data = [] ∧ done ≠ [] then done else done ++ baseBlocks data)
      done = done ++ chunks baseBlockSize calls.flatten := by
  induction calls generalizing done with
  | nil => simp
  | cons c calls ih =>
    have hcalls : Aligned calls := by
      intro d hd
      cases calls with
      | nil => simp at hd
      | cons e calls => exact h d (by simp [hd])
    have hsplit : chunks baseBlockSize (c :: calls).flatten =
        chunks baseBlockSize c ++ chunks baseBlockSize calls.flatten := by
      cases calls with
      | nil => simp
      | cons e calls => exact chunks_append (h c (by simp)) _
    rw [List.foldl_cons, hsplit]
    by_cases hc : c = []
    · rw [if_pos ⟨hc, hdone⟩, ih hdone hcalls, hc, chunks_nil, List.nil_append]
    · rw [if_neg (fun hh => hc hh.1), baseBlocks, if_neg hc, ih (by simp [hdone]) hcalls,
        List.append_assoc]

theorem hashed_cons {c : List UInt8} {calls : List (List UInt8)} (h : Aligned (c :: calls)) :
    hashed (c :: calls) = baseBlocks c ++ chunks baseBlockSize calls.flatten := by
  have hcalls : Aligned calls := by
    intro d hd
    cases calls with
    | nil => simp at hd
    | cons e calls => exact h d (by simp [hd])
  rw [hashed, List.foldl_cons, if_neg (fun hh => hh.2 rfl), List.nil_append,
    foldl_hashed (baseBlocks_ne_nil c) hcalls]

/-- The first call carries data, unless there is none at all. -/
def StartsWithData (calls : List (List UInt8)) : Prop := calls.head? = some [] → calls.flatten = []

theorem hashed_eq {calls : List (List UInt8)} (h : Aligned calls) (hs : StartsWithData calls)
    (hne : calls ≠ []) : hashed calls = baseBlocks calls.flatten := by
  cases calls with
  | nil => exact absurd rfl hne
  | cons c calls =>
    rw [hashed_cons h]
    by_cases hc : c = []
    · have hf := hs (by simp [hc])
      have hf' : calls.flatten = [] := by simpa [hc] using hf
      rw [hf, hf', chunks_nil, hc, List.append_nil]
    · have hf : (c :: calls).flatten ≠ [] := by simp [hc]
      rw [baseBlocks, baseBlocks, if_neg hc, if_neg hf]
      cases calls with
      | nil => simp
      | cons e calls => exact (chunks_append (h c (by simp)) _).symm

/-- The leaves as `getHash` finds them, through an index of 32 bits. -/
def wrapped (leaves : List V) : List V :=
  (List.range leaves.length).map fun i => leaves.getD (i % 2 ^ 32) default

@[simp] theorem wrapped_length (leaves : List V) :
    (wrapped leaves).length = leaves.length := by
  simp [wrapped]

/-- The leaves as the root sees them tell two rows of the same length apart in their
first `2 ^ 32` places only. -/
theorem wrapped_eq_iff {l m : List V} (hlen : l.length = m.length) :
    wrapped l = wrapped m ↔ ∀ i < l.length, i < 2 ^ 32 → l[i]? = m[i]? := by
  constructor
  · intro h i hi h32
    have hi' := congrArg (fun l => l[i]?) h
    simp only [wrapped, List.getElem?_map, List.getElem?_range hi, ← hlen, Option.map_some,
      Nat.mod_eq_of_lt h32, Option.some.injEq, List.getD_eq_getElem?_getD,
      List.getElem?_eq_getElem hi, List.getElem?_eq_getElem (hlen ▸ hi), Option.getD_some] at hi'
    rw [List.getElem?_eq_getElem hi, List.getElem?_eq_getElem (hlen ▸ hi), hi']
  · intro h
    rw [wrapped, wrapped, ← hlen]
    refine List.map_congr_left fun i hi => ?_
    rw [List.mem_range] at hi
    rw [List.getD_eq_getElem?_getD, List.getD_eq_getElem?_getD,
      h _ ((Nat.mod_le i _).trans_lt hi) (Nat.mod_lt i (Nat.two_pow_pos 32))]

theorem splitLength_spec {length : Nat} (fuel l : Nat) (hl : 0 < l) (hlt : l < length)
    (hfuel : length ≤ l * 2 ^ fuel) :
    ∃ j, splitLength length fuel l = l * 2 ^ j ∧ l * 2 ^ j < length ∧
      length ≤ l * 2 ^ (j + 1) := by
  induction fuel generalizing l with
  | zero => exact absurd hfuel (by simpa using hlt)
  | succ fuel ih =>
    rw [splitLength]
    by_cases h : l * 2 < length
    · obtain ⟨j, hj, hj1, hj2⟩ := ih (l * 2) (by omega) h (by rwa [pow_succ', ← Nat.mul_assoc] at hfuel)
      refine ⟨j + 1, ?_, ?_, ?_⟩
      · rw [if_pos h, hj, pow_succ', Nat.mul_assoc]
      · rwa [pow_succ', ← Nat.mul_assoc]
      · rwa [pow_succ', ← Nat.mul_assoc]
    · exact ⟨0, by rw [if_neg h]; simp, by simpa using hlt, by simpa using h⟩

theorem calcBlocks_of_le {length B : Nat} (hB : 0 < B) (h : length ≤ B) :
    calcBlocks length B = 1 := by
  rw [calcBlocks]
  have : (length + B - 1) / B < 2 := (Nat.div_lt_iff_lt_mul hB).mpr (by omega)
  omega

theorem calcBlocks_of_pos {length B : Nat} (hB : 0 < B) (h : 0 < length) :
    calcBlocks length B = (length + B - 1) / B := by
  rw [calcBlocks]
  have : 1 ≤ (length + B - 1) / B := (Nat.le_div_iff_mul_le hB).mpr (by omega)
  omega

theorem calcBlocks_mul_add {length B : Nat} (hB : 0 < B) (h : 0 < length) (q : Nat) :
    calcBlocks (B * q + length) B = q + calcBlocks length B := by
  rw [calcBlocks_of_pos hB (by omega), calcBlocks_of_pos hB h,
    show B * q + length + B - 1 = length + B - 1 + B * q by omega, Nat.add_mul_div_left _ _ hB,
    Nat.add_comm]

theorem calcBlocks_mul {B q : Nat} (hB : 0 < B) (hq : 0 < q) : calcBlocks (B * q) B = q := by
  obtain ⟨p, rfl⟩ : ∃ p, q = p + 1 := ⟨q - 1, by omega⟩
  rw [Nat.mul_succ, calcBlocks_mul_add hB hB, calcBlocks_of_le hB le_rfl]

theorem calcBlocks_mono {a b B : Nat} (h : a ≤ b) : calcBlocks a B ≤ calcBlocks b B := by
  have : (a + B - 1) / B ≤ (b + B - 1) / B := Nat.div_le_div_right (by omega)
  rw [calcBlocks, calcBlocks]
  omega

theorem mul_lt_of_lt_calcBlocks {i length B : Nat} (hB : 0 < B) (hl : 0 < length)
    (h : i < calcBlocks length B) : i * B < length := by
  rw [calcBlocks_of_pos hB hl] at h
  have := (Nat.le_div_iff_mul_le hB).mp (Nat.succ_le_of_lt h)
  rw [Nat.succ_mul] at this
  omega

/-- `getHash` is the root over the leaves of the range it is asked for. -/
theorem getHash_eq {t : MerkleTree V} (hB : 0 < t.blockSize) (fuel s length : Nat)
    (hfuel : length < fuel) (hfit : s + calcBlocks length t.blockSize ≤ t.leaves.length) :
    getHash H t fuel (s * t.blockSize) length =
      some (rootOf H.combine
        (((wrapped t.leaves).drop s).take (calcBlocks length t.blockSize))) := by
  induction fuel generalizing s length with
  | zero => omega
  | succ fuel ih =>
    rw [getHash]
    obtain hle | hlt := le_or_gt length t.blockSize
    · rw [calcBlocks_of_le hB hle] at hfit ⊢
      have hs : s < t.leaves.length := by omega
      have hmod : s % 2 ^ 32 < t.leaves.length := (Nat.mod_le s _).trans_lt hs
      have htake : ((wrapped t.leaves).drop s).take 1 =
          [t.leaves.getD (s % 2 ^ 32) default] := by
        rw [List.drop_eq_getElem_cons (by simpa using hs), List.take_succ_cons, List.take_zero]
        simp [wrapped]
      rw [if_pos hle, htake, rootOf_singleton, Nat.mul_div_cancel _ hB,
        List.getD_eq_getElem?_getD, List.getElem?_eq_getElem hmod, Option.getD_some]
    · rw [if_neg (by omega)]
      obtain ⟨j, hj, hj1, hj2⟩ := splitLength_spec length t.blockSize hB hlt
        (Nat.lt_two_pow_self.le.trans (Nat.le_mul_of_pos_left _ hB))
      have hj0 := Nat.two_pow_pos j
      have hp : 2 ^ (j + 1) = 2 ^ j * 2 := pow_succ 2 j
      have hl : 0 < t.blockSize * 2 ^ j := Nat.mul_pos hB hj0
      obtain ⟨r, rfl⟩ : ∃ r, length = t.blockSize * 2 ^ j + r := ⟨_, (Nat.add_sub_cancel' hj1.le).symm⟩
      have hr : 0 < r := by omega
      have hr' : r ≤ t.blockSize * 2 ^ j := by
        rw [hp, ← Nat.mul_assoc] at hj2
        omega
      have hn := calcBlocks_mul_add hB hr (2 ^ j)
      have hl' := calcBlocks_mul hB hj0
      have hcr : 0 < calcBlocks r t.blockSize := by rw [calcBlocks]; omega
      have hcr' : calcBlocks r t.blockSize ≤ 2 ^ j := by
        rw [calcBlocks_of_pos hB hr]
        refine Nat.le_of_lt_succ ((Nat.div_lt_iff_lt_mul hB).mpr ?_)
        rw [Nat.succ_mul, Nat.mul_comm (2 ^ j)]
        omega
      have hleft := ih s (t.blockSize * 2 ^ j) (by omega) (by omega)
      have hright := ih (s + 2 ^ j) r (by omega) (by omega)
      rw [show (s + 2 ^ j) * t.blockSize = s * t.blockSize + t.blockSize * 2 ^ j by ring] at hright
      simp only [hj, hleft, Nat.add_sub_cancel_left, hright]
      rw [hn, hl', List.take_add, List.drop_drop]
      congr 1
      refine (rootOf_append H.combine (j := j) ?_ ?_ ?_).symm
      · simp only [List.length_take, List.length_drop, wrapped_length]
        omega
      · simp only [List.length_take, List.length_drop, wrapped_length]
        omega
      · simp only [List.length_take]
        omega

theorem calcRoot_eq {t : MerkleTree V} (hB : 0 < t.blockSize)
    (hfit : calcBlocks t.fileSize t.blockSize ≤ t.leaves.length) :
    calcRoot H t = some { t with
      root := rootOf H.combine ((wrapped t.leaves).take (calcBlocks t.fileSize t.blockSize)) } := by
  have h := getHash_eq (H := H) hB (t.fileSize + 1) 0 t.fileSize (by omega) (by omega)
  rw [Nat.zero_mul, List.drop_zero] at h
  rw [calcRoot, h, Option.map_some]

end MerkleTree

end Dcpp
