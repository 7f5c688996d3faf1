import Mathlib.Order.Bounds.Basic
import Dcpp.MerkleTree

-- The end of the download of a tree.
namespace Dcpp.DownloadManager

open HashTree MerkleTree

/-- The bytes of a hash that are there are fewer than the hash has. -/
structure MerkleTreeOutputStream (BYTES : Nat) where
  leaves : List (HashValue BYTES)
  buf : List UInt8
  bufPos_lt : buf.length < BYTES

namespace MerkleTreeOutputStream

variable {BYTES : Nat}

def write (s : MerkleTreeOutputStream BYTES) (b : List UInt8) : MerkleTreeOutputStream BYTES :=
  if hb : b = [] then s
  else if s.buf = [] ∧ BYTES ≤ b.length then write { s with leaves := s.leaves ++ [leafAt b 0] } (b.drop BYTES)
  else
    let bytes := min (BYTES - s.buf.length) b.length
    let buf := s.buf ++ b.take bytes
    if hfull : buf.length = BYTES then
      write ⟨s.leaves ++ [leafAt buf 0], [], (Nat.zero_le _).trans_lt s.bufPos_lt⟩ (b.drop bytes)
    else
      write ⟨s.leaves, buf, by
        have hlt := s.bufPos_lt
        simp only [buf, bytes, List.length_append, List.length_take] at hfull ⊢
        omega⟩ (b.drop bytes)
termination_by b.length
decreasing_by
  all_goals
    have hpos := List.length_pos_of_ne_nil hb
    have hlt := s.bufPos_lt
    simp only [List.length_drop]
    omega

/-- The bytes that a stream has taken. -/
def taken (s : MerkleTreeOutputStream BYTES) : List UInt8 := s.leaves.flatMap Vector.toList ++ s.buf

theorem leafAt_zero_toList {b : List UInt8} (h : BYTES ≤ b.length) :
    (leafAt b 0 : HashValue BYTES).toList = b.take BYTES := by
  apply List.ext_getElem
  · rw [Vector.length_toList, List.length_take, Nat.min_eq_left h]
  · intro i hi hi'
    rw [Vector.length_toList] at hi
    simp only [leafAt, Vector.getElem_toList, Vector.getElem_ofFn, List.getElem_take, Nat.zero_mul, Nat.zero_add]
    exact (List.getElem_eq_getD 0).symm

/-- No byte is lost. -/
theorem taken_write (s : MerkleTreeOutputStream BYTES) (b : List UInt8) : (s.write b).taken = s.taken ++ b := by
  induction s, b using write.induct with
  | case1 s => rw [write, dif_pos rfl, List.append_nil]
  | case2 s b hb hfull ih =>
    rw [write, dif_neg hb, if_pos hfull, ih, taken, taken]
    simp only [hfull.1, List.flatMap_append, List.flatMap_singleton, leafAt_zero_toList hfull.2, List.append_nil,
      List.append_assoc, List.take_append_drop]
  | case3 s b hb hpart bytes buf hfull ih =>
    rw [write, dif_neg hb, if_neg hpart, dif_pos hfull, ih, taken, taken, List.flatMap_append, List.flatMap_singleton,
      leafAt_zero_toList hfull.ge, List.take_of_length_le hfull.le]
    simp only [buf, List.append_nil, List.append_assoc, List.take_append_drop]
  | case4 s b hb hpart bytes buf hfull ih =>
    rw [write, dif_neg hb, if_neg hpart, dif_neg hfull, ih, taken, taken]
    simp only [buf, List.append_assoc, List.take_append_drop]

theorem leaves_length (s : MerkleTreeOutputStream BYTES) : s.leaves.length = s.taken.length / BYTES := by
  have hlt := s.bufPos_lt
  have hlen : s.taken.length = BYTES * s.leaves.length + s.buf.length := by
    rw [taken, List.length_append, List.length_flatMap]
    simp only [Vector.length_toList, List.map_const', List.sum_replicate_nat]
    rw [Nat.mul_comm]
  rw [hlen, Nat.mul_add_div (by omega), Nat.div_eq_of_lt hlt, Nat.add_zero]

end MerkleTreeOutputStream

section

variable {V : Type} (H : TreeHasher V)

/-- `while(bl * (int64_t)leaves.size() < fileSize) bl *= 2;`. The result is `none` where a product is too large for an
`int64_t`. -/
def coverLoop (size fileSize : Nat) : Nat → Nat → Option Nat
  | 0, _ => none
  | fuel + 1, bl =>
    if 2 ^ 63 ≤ bl * size then none
    else if bl * size < fileSize then
      if 2 ^ 63 ≤ bl * 2 then none else coverLoop size fileSize fuel (bl * 2)
    else some bl

/-- `splitLength` with an `int64_t`. -/
def splitLength64 (length : Nat) : Nat → Nat → Option Nat
  | 0, _ => none
  | fuel + 1, l =>
    if 2 ^ 63 ≤ l * 2 then none
    else if l * 2 < length then splitLength64 length fuel (l * 2)
    else some l

/-- `getHash` with numbers of the type `int64_t`. -/
def getHash64 (t : MerkleTree V) : Nat → Nat → Nat → Option V
  | 0, _, _ => none
  | fuel + 1, start, length =>
    if length ≤ t.blockSize then t.leaves[start / t.blockSize % 2 ^ 32]?
    else
      match splitLength64 length 64 t.blockSize with
      | none => none
      | some l =>
        match getHash64 t fuel start l, getHash64 t fuel (start + l) (length - l) with
        | some a, some b => some (H.combine a b)
        | _, _ => none

def calcRoot64 (t : MerkleTree V) : Option (MerkleTree V) :=
  (getHash64 H t (t.fileSize + 1) 0 t.fileSize).map fun r => { t with root := r }

/-- The end of the data of a tree: the tree, and if it is valid. -/
def endData [DecidableEq V] (tth : V) (tt : MerkleTree V) : Option (MerkleTree V × Bool) :=
  match coverLoop tt.leaves.length tt.fileSize 64 1024 with
  | none => none
  | some bl => (calcRoot64 H { tt with blockSize := bl }).map fun tt => (tt, tth = tt.root)

/-- The tree of a download when the data has come, in any parts. -/
def received (fileSize : Nat) (parts : List (List UInt8)) : MerkleTree (HashValue 24) :=
  let s := parts.foldl MerkleTreeOutputStream.write ⟨[], [], by decide⟩
  { ofBlockSize baseBlockSize with fileSize := fileSize, leaves := s.leaves }

/-- The combination of lists. -/
def lists : TreeHasher (List Nat) := ⟨fun _ => [], (· ++ ·)⟩

/-- The tree with the index of each leaf in its place. -/
def numbered (t : MerkleTree V) : MerkleTree (List Nat) :=
  ⟨[], (List.range t.leaves.length).map fun i => [i], [], t.fileSize, t.blockSize⟩

/-- The indices of the leaves that the root of a tree is made of. -/
def indices (t : MerkleTree V) : Option (List Nat) := (calcRoot64 lists (numbered t)).map MerkleTree.root

/-- The block sizes with which the leaves cover the file. -/
def covering (size fileSize : Nat) : Set Nat := {bl | (∃ k, bl = 1024 * 2 ^ k) ∧ fileSize ≤ bl * size}

/-- The result is right: the block size is the smallest, the root is that of the leaves of the file, and the tree is
valid if it is the one that was asked for. -/
structure Settles [Inhabited V] (tth : V) (tt : MerkleTree V) (r : MerkleTree V × Bool) : Prop where
  least : IsLeast (covering tt.leaves.length tt.fileSize) r.1.blockSize
  indices : indices r.1 = some (List.range (calcBlocks tt.fileSize r.1.blockSize))
  bound : calcBlocks tt.fileSize r.1.blockSize ≤ tt.leaves.length
  valid : r.2 = true ↔ rootOf H.combine (tt.leaves.take (calcBlocks tt.fileSize r.1.blockSize)) = tth

/-- The number of leaves and the size of a file for which the end of the data is right. -/
structure Manageable (size fileSize : Nat) : Prop where
  pos : 0 < size
  product : 1024 * size < 2 ^ 63
  file : fileSize ≤ 2 ^ 62
  blocks : ∀ bl, IsLeast (covering size fileSize) bl → fileSize ≤ bl * 2 ^ 32

theorem coverLoop_eq {size fileSize bl d fuel : Nat} (hlt : ∀ i < d, bl * 2 ^ i * size < fileSize)
    (hle : fileSize ≤ bl * 2 ^ d * size) (hsize : 0 < size) (hfit : bl * 2 ^ d * size < 2 ^ 63) (hfuel : d < fuel) :
    coverLoop size fileSize fuel bl = some (bl * 2 ^ d) := by
  induction d generalizing bl fuel with
  | zero =>
    obtain ⟨fuel, rfl⟩ := Nat.exists_eq_add_of_lt hfuel
    rw [pow_zero, Nat.mul_one] at hle hfit ⊢
    rw [Nat.zero_add, coverLoop, if_neg hfit.not_ge, if_neg hle.not_gt]
  | succ d ih =>
    obtain ⟨fuel, rfl⟩ : ∃ n, fuel = n + 1 := ⟨fuel - 1, by omega⟩
    have hstep : ∀ i, bl * 2 ^ (i + 1) = bl * 2 * 2 ^ i := fun i => by rw [pow_succ', Nat.mul_assoc]
    have hfirst := hlt 0 d.succ_pos
    rw [pow_zero, Nat.mul_one] at hfirst
    rw [hstep] at hle hfit ⊢
    have hdouble : bl * 2 < 2 ^ 63 :=
      ((Nat.le_mul_of_pos_right _ (Nat.two_pow_pos d)).trans (Nat.le_mul_of_pos_right _ hsize)).trans_lt hfit
    rw [coverLoop, if_neg (hfirst.trans_le hle |>.trans hfit).not_ge, if_pos hfirst, if_neg hdouble.not_ge]
    refine ih (fun i hi => ?_) hle hfit (by omega)
    rw [← hstep]
    exact hlt (i + 1) (Nat.succ_lt_succ hi)

theorem coverLoop_some {size fileSize bl fuel r : Nat} (h : coverLoop size fileSize fuel bl = some r) :
    ∃ d, r = bl * 2 ^ d ∧ (∀ i < d, bl * 2 ^ i * size < fileSize) ∧ fileSize ≤ r * size ∧ r * size < 2 ^ 63 := by
  induction fuel generalizing bl with
  | zero => cases h
  | succ fuel ih =>
    rw [coverLoop] at h
    split at h
    next => cases h
    next hfit =>
      split at h
      next hlt =>
        split at h
        next => cases h
        next =>
          obtain ⟨d, rfl, hall, hle, hfit⟩ := ih h
          refine ⟨d + 1, by rw [pow_succ', Nat.mul_assoc], fun i hi => ?_, hle, hfit⟩
          cases i with
          | zero => rwa [pow_zero, Nat.mul_one]
          | succ i =>
            rw [pow_succ', ← Nat.mul_assoc]
            exact hall i (Nat.lt_of_succ_lt_succ hi)
      next hle =>
        obtain rfl := Option.some.inj h
        exact ⟨0, (Nat.mul_one _).symm, nofun, Nat.le_of_not_lt hle, Nat.lt_of_not_le hfit⟩

theorem splitLength64_eq {length : Nat} (hlen : length ≤ 2 ^ 62) {fuel fuel' l : Nat} (hlt : l < length)
    (hfuel : length ≤ l * 2 ^ fuel) (hfuel' : length ≤ l * 2 ^ fuel') :
    splitLength64 length fuel l = some (splitLength length fuel' l) := by
  induction fuel generalizing l fuel' with
  | zero => exact absurd hfuel (by rw [pow_zero, Nat.mul_one]; exact hlt.not_ge)
  | succ fuel ih =>
    cases fuel' with
    | zero => exact absurd hfuel' (by rw [pow_zero, Nat.mul_one]; exact hlt.not_ge)
    | succ fuel' =>
      rw [splitLength64, splitLength, if_neg (by omega)]
      split
      next hnext =>
        rw [pow_succ', ← Nat.mul_assoc] at hfuel hfuel'
        exact ih hnext hfuel hfuel'
      next => rfl

/-- The length that is doubled beyond 2^62 overflows. -/
theorem splitLength64_none {length : Nat} (hlen : 2 ^ 62 < length) (fuel m : Nat) (hlt : 2 ^ m < length) :
    splitLength64 length fuel (2 ^ m) = none := by
  induction fuel generalizing m with
  | zero => rfl
  | succ fuel ih =>
    rw [splitLength64, ← pow_succ]
    split
    next => rfl
    next hfit =>
      have hm : m + 1 < 63 := (Nat.pow_lt_pow_iff_right Nat.one_lt_two).mp (Nat.lt_of_not_le hfit)
      have hnext : 2 ^ (m + 1) < length := (Nat.pow_le_pow_right Nat.two_pos (Nat.le_of_lt_succ hm)).trans_lt hlen
      rw [if_pos hnext]
      exact ih (m + 1) hnext

theorem getHash64_eq {t : MerkleTree V} (hB : 0 < t.blockSize) (fuel start length : Nat) (hlen : length ≤ 2 ^ 62) :
    getHash64 H t fuel start length = getHash H t fuel start length := by
  induction fuel generalizing start length with
  | zero => rfl
  | succ fuel ih =>
    rw [getHash64, getHash]
    split
    next => rfl
    next hlt =>
      rw [Nat.not_le] at hlt
      have hfuel : ∀ n, length ≤ 2 ^ n → length ≤ t.blockSize * 2 ^ n :=
        fun n h => h.trans (Nat.le_mul_of_pos_left _ hB)
      obtain ⟨j, hj, hsplit, _⟩ := splitLength_spec length t.blockSize hB hlt (hfuel _ Nat.lt_two_pow_self.le)
      have hle : splitLength length length t.blockSize ≤ length := hj.trans_le hsplit.le
      rw [splitLength64_eq hlen hlt (hfuel 64 (hlen.trans (by decide))) (hfuel _ Nat.lt_two_pow_self.le)]
      dsimp only
      generalize splitLength length length t.blockSize = l at hle
      have hleft := ih start l (hle.trans hlen)
      have hright := ih (start + l) (length - l) ((Nat.sub_le _ _).trans hlen)
      cases hl : getHash H t fuel start l with
      | none =>
        rw [hl] at hleft
        rw [hleft]
      | some a =>
        rw [hl] at hleft
        cases hr : getHash H t fuel (start + l) (length - l) with
        | none =>
          rw [hr] at hright
          rw [hleft, hright]
        | some b =>
          rw [hr] at hright
          rw [hleft, hright]

theorem getHash64_none {t : MerkleTree V} {m : Nat} (hB : t.blockSize = 2 ^ m) {length : Nat} (hlen : 2 ^ 62 < length)
    (hlt : t.blockSize < length) (fuel start : Nat) : getHash64 H t fuel start length = none := by
  cases fuel with
  | zero => rfl
  | succ fuel => rw [getHash64, if_neg hlt.not_ge, hB, splitLength64_none hlen 64 m (hB ▸ hlt)]

theorem calcBlocks_le_iff {length B n : Nat} (hB : 0 < B) (hn : 0 < n) : calcBlocks length B ≤ n ↔ length ≤ B * n := by
  rw [calcBlocks, max_le_iff, ← Nat.lt_succ_iff, Nat.div_lt_iff_lt_mul hB, Nat.succ_mul, Nat.mul_comm n]
  omega

theorem wrapped_take [Inhabited V] {leaves : List V} {m : Nat} (h : m ≤ 2 ^ 32) (hm : m ≤ leaves.length) :
    (wrapped leaves).take m = leaves.take m := by
  apply List.ext_getElem
  · rw [List.length_take, List.length_take, wrapped_length]
  · intro i hi _
    rw [List.length_take, lt_min_iff] at hi
    have hmod : i % 2 ^ 32 = i := Nat.mod_eq_of_lt (hi.1.trans_le h)
    simp only [wrapped, List.getElem_take, List.getElem_map, List.getElem_range, hmod]
    rw [List.getD_eq_getElem?_getD, List.getElem?_eq_getElem (hi.1.trans_le hm), Option.getD_some]

theorem wrapped_numbered {t : MerkleTree V} {m : Nat} (h : m ≤ t.leaves.length) :
    (wrapped (numbered t).leaves).take m = (List.range m).map fun i => [i % 2 ^ 32] := by
  have hlen : (numbered t).leaves.length = t.leaves.length := by rw [numbered, List.length_map, List.length_range]
  apply List.ext_getElem
  · rw [List.length_take, wrapped_length, hlen, List.length_map, List.length_range, Nat.min_eq_left h]
  · intro i hi hi'
    rw [List.length_map, List.length_range] at hi'
    have hlt : i % 2 ^ 32 < t.leaves.length := (Nat.mod_le _ _).trans_lt (hi'.trans_le h)
    simp only [wrapped, numbered, List.getElem_take, List.getElem_map, List.getElem_range]
    rw [List.getD_eq_getElem?_getD, List.getElem?_map, List.getElem?_range hlt, Option.map_some, Option.getD_some]

theorem calcRoot64_eq [Inhabited V] {t : MerkleTree V} (hB : 0 < t.blockSize) (hfile : t.fileSize ≤ 2 ^ 62)
    (hfit : calcBlocks t.fileSize t.blockSize ≤ t.leaves.length) :
    calcRoot64 H t = some { t with
      root := rootOf H.combine ((wrapped t.leaves).take (calcBlocks t.fileSize t.blockSize)) } := by
  rw [calcRoot64, getHash64_eq H hB _ _ _ hfile]
  exact calcRoot_eq hB hfit

/-- The indices are those of the first leaves, as numbers of 32 bits. -/
theorem indices_eq {t : MerkleTree V} (hB : 0 < t.blockSize) (hfile : t.fileSize ≤ 2 ^ 62)
    (hfit : calcBlocks t.fileSize t.blockSize ≤ t.leaves.length) :
    indices t = some ((List.range (calcBlocks t.fileSize t.blockSize)).map (· % 2 ^ 32)) := by
  have hlen : (numbered t).leaves.length = t.leaves.length := by rw [numbered, List.length_map, List.length_range]
  rw [indices, calcRoot64_eq lists (t := numbered t) hB hfile (hlen ▸ hfit), Option.map_some]
  congr 1
  change rootOf (· ++ ·) ((wrapped (numbered t).leaves).take (calcBlocks t.fileSize t.blockSize)) = _
  rw [rootOf_lists, wrapped_numbered hfit, ← List.flatMap_def]
  exact List.map_eq_flatMap.symm

theorem map_mod_eq_range_iff {m n : Nat} (hn : 0 < n) : (List.range m).map (· % n) = List.range m ↔ m ≤ n := by
  constructor
  · intro h
    by_contra hlt
    have hget := congrArg (·[n]?) h
    rw [List.getElem?_map, List.getElem?_range (Nat.lt_of_not_le hlt), Option.map_some, Nat.mod_self] at hget
    exact hn.ne (Option.some.inj hget)
  · intro h
    conv_rhs => rw [← List.map_id (List.range m)]
    refine List.map_congr_left fun i hi => ?_
    exact Nat.mod_eq_of_lt ((List.mem_range.mp hi).trans_le h)

/-- The loop ends exactly with the smallest block size for which no product overflows. -/
theorem coverLoop_eq_some_iff {size fileSize bl : Nat} (hsize : 0 < size) :
    coverLoop size fileSize 64 1024 = some bl ↔ IsLeast (covering size fileSize) bl ∧ bl * size < 2 ^ 63 := by
  constructor
  · intro h
    obtain ⟨d, rfl, hall, hle, hfit⟩ := coverLoop_some h
    refine ⟨⟨⟨⟨d, rfl⟩, hle⟩, ?_⟩, hfit⟩
    rintro _ ⟨⟨k, rfl⟩, hk⟩
    by_contra hlt
    have hkd : k < d := (Nat.pow_lt_pow_iff_right Nat.one_lt_two).mp (Nat.lt_of_mul_lt_mul_left (Nat.lt_of_not_le hlt))
    exact (hall k hkd).not_ge hk
  · rintro ⟨⟨⟨⟨d, rfl⟩, hle⟩, hleast⟩, hfit⟩
    refine coverLoop_eq (fun i hi => ?_) hle hsize hfit ?_
    · by_contra hcover
      have hmem := hleast ⟨⟨i, rfl⟩, Nat.le_of_not_lt hcover⟩
      have := Nat.pow_lt_pow_right Nat.one_lt_two hi
      omega
    · by_contra hd
      have hpow := Nat.pow_le_pow_right Nat.two_pos (Nat.le_of_not_lt hd)
      have := Nat.le_mul_of_pos_right (1024 * 2 ^ d) hsize
      omega

theorem exists_isLeast_covering {size : Nat} (hsize : 0 < size) (fileSize : Nat) :
    ∃ bl, IsLeast (covering size fileSize) bl := by
  have hex : ∃ bl, bl ∈ covering size fileSize := by
    refine ⟨1024 * 2 ^ fileSize, ⟨fileSize, rfl⟩, ?_⟩
    have := Nat.lt_two_pow_self (n := fileSize)
    have := Nat.le_mul_of_pos_right (1024 * 2 ^ fileSize) hsize
    omega
  classical
  exact ⟨Nat.find hex, Nat.find_spec hex, fun bl hbl => Nat.find_min' hex hbl⟩

/-- The smallest block size overflows with the leaves only if the file is larger than 2^62. -/
theorem product_lt {size fileSize bl : Nat} (h : IsLeast (covering size fileSize) bl) (hsize : 1024 * size < 2 ^ 63)
    (hfile : fileSize ≤ 2 ^ 62) : bl * size < 2 ^ 63 := by
  obtain ⟨⟨⟨k, rfl⟩, hle⟩, hleast⟩ := h
  cases k with
  | zero => rwa [pow_zero, Nat.mul_one]
  | succ k =>
    have hlt : 1024 * 2 ^ k * size < fileSize := by
      by_contra hcover
      have hmem := hleast ⟨⟨k, rfl⟩, Nat.le_of_not_lt hcover⟩
      have := Nat.pow_lt_pow_right Nat.one_lt_two k.lt_succ_self
      omega
    rw [pow_succ, ← Nat.mul_assoc, Nat.mul_right_comm]
    omega

theorem calcBlocks_pos (length B : Nat) : 0 < calcBlocks length B := Nat.lt_of_lt_of_le Nat.one_pos (le_max_right _ _)

/-- A file of more than 2^62 bytes is too large for `getHash`. -/
theorem file_le {tt t : MerkleTree V} {bl : Nat} (h : IsLeast (covering tt.leaves.length tt.fileSize) bl)
    (hsize : 0 < tt.leaves.length) (hfit : bl * tt.leaves.length < 2 ^ 63)
    (hroot : calcRoot64 H { tt with blockSize := bl } = some t) : tt.fileSize ≤ 2 ^ 62 := by
  by_contra hlarge
  rw [Nat.not_le] at hlarge
  obtain ⟨⟨⟨k, rfl⟩, _⟩, _⟩ := h
  have hpow : 1024 * 2 ^ k = 2 ^ (10 + k) := (pow_add 2 10 k).symm
  have hle := Nat.le_mul_of_pos_right (1024 * 2 ^ k) hsize
  have hlt : 10 + k < 63 := (Nat.pow_lt_pow_iff_right Nat.one_lt_two).mp (hpow ▸ hle.trans_lt hfit)
  have hblock : 1024 * 2 ^ k < tt.fileSize := by
    rw [hpow]
    exact (Nat.pow_le_pow_right Nat.two_pos (Nat.le_of_lt_succ hlt)).trans_lt hlarge
  rw [calcRoot64, getHash64_none H hpow hlarge hblock] at hroot
  cases hroot

variable [Inhabited V] [DecidableEq V]

theorem manageable_of_settles {tth : V} {tt : MerkleTree V} {r : MerkleTree V × Bool} (h : endData H tth tt = some r)
    (hr : Settles H tth tt r) : Manageable tt.leaves.length tt.fileSize := by
  have hsize := (calcBlocks_pos _ _).trans_le hr.bound
  rw [endData] at h
  split at h
  next => cases h
  next bl hloop =>
    obtain ⟨hleast, hfit⟩ := (coverLoop_eq_some_iff hsize).mp hloop
    obtain ⟨t, ht, rfl⟩ := Option.map_eq_some_iff.mp h
    have hfile := file_le H hleast hsize hfit ht
    obtain ⟨v, _, rfl⟩ := Option.map_eq_some_iff.mp ht
    obtain ⟨⟨⟨k, rfl⟩, hle⟩, _⟩ := id hleast
    have hB : 0 < 1024 * 2 ^ k := Nat.mul_pos (by decide) (Nat.two_pow_pos k)
    have hindices := hr.indices
    rw [indices_eq (t := { tt with blockSize := 1024 * 2 ^ k, root := v }) hB hfile hr.bound, Option.some_inj,
      map_mod_eq_range_iff (Nat.two_pow_pos 32), calcBlocks_le_iff hB (Nat.two_pow_pos 32)] at hindices
    refine ⟨hsize, ?_, hfile, fun bl hbl => ?_⟩
    · exact (Nat.mul_le_mul_right _ (Nat.le_mul_of_pos_right _ (Nat.two_pow_pos k))).trans_lt hfit
    · rw [hbl.unique hleast]
      exact hindices

theorem settles_of_manageable (tth : V) {tt : MerkleTree V} (h : Manageable tt.leaves.length tt.fileSize) :
    ∃ r, endData H tth tt = some r ∧ Settles H tth tt r := by
  obtain ⟨bl, hleast⟩ := exists_isLeast_covering h.pos tt.fileSize
  have hloop := (coverLoop_eq_some_iff h.pos).mpr ⟨hleast, product_lt hleast h.product h.file⟩
  obtain ⟨⟨⟨k, hk⟩, hle⟩, _⟩ := id hleast
  have hB : 0 < bl := hk ▸ Nat.mul_pos (by decide) (Nat.two_pow_pos k)
  have hbound := (calcBlocks_le_iff hB h.pos).mpr hle
  have hblocks := (calcBlocks_le_iff hB (Nat.two_pow_pos 32)).mpr (h.blocks bl hleast)
  have hroot := calcRoot64_eq H (t := { tt with blockSize := bl }) hB h.file hbound
  rw [endData, hloop]
  dsimp only
  rw [hroot]
  refine ⟨_, rfl, hleast, ?_, hbound, ?_⟩
  · dsimp only
    rw [indices_eq (t := { tt with blockSize := bl, root := _ }) hB h.file hbound]
    exact congrArg some ((map_mod_eq_range_iff (Nat.two_pow_pos 32)).mpr hblocks)
  · dsimp only
    rw [wrapped_take hblocks hbound, decide_eq_true_iff]
    exact eq_comm

end

theorem received_leaves_length (fileSize : Nat) (parts : List (List UInt8)) :
    (received fileSize parts).leaves.length = parts.flatten.length / 24 := by
  have htaken : ∀ s : MerkleTreeOutputStream 24,
      (parts.foldl MerkleTreeOutputStream.write s).taken = s.taken ++ parts.flatten := by
    induction parts with
    | nil => intro s; rw [List.foldl_nil, List.flatten_nil, List.append_nil]
    | cons b parts ih =>
      intro s
      rw [List.foldl_cons, ih, MerkleTreeOutputStream.taken_write, List.flatten_cons, List.append_assoc]
  rw [received, MerkleTreeOutputStream.leaves_length, htaken]
  rfl

end Dcpp.DownloadManager
