import Dcpp.MerkleTree

namespace Dcpp.TigerTree

open Chunks HashTree MerkleTree

variable {V : Type} (H : TreeHasher V)

/-- The standard tree hash: data that fits in a base block is hashed as a leaf, and
longer data is split at the largest power of two of base blocks below its length. -/
def tigerRoot (data : List UInt8) : V :=
  if data.length ≤ baseBlockSize then H.hashBase data
  else
    let l := baseBlockSize * 2 ^ Nat.log2 ((data.length - 1) / baseBlockSize)
    H.combine (tigerRoot (data.take l)) (tigerRoot (data.drop l))
termination_by data.length
decreasing_by
  · rename_i h
    have h1 : (data.length - 1) / baseBlockSize ≠ 0 := by
      rw [Nat.div_ne_zero_iff]
      exact ⟨by decide, by omega⟩
    have h2 := Nat.log2_self_le h1
    have h3 := Nat.mul_le_mul_left baseBlockSize h2
    have h4 := Nat.mul_div_le (data.length - 1) baseBlockSize
    simp only [List.length_take]
    omega
  · have h1 : 0 < baseBlockSize * 2 ^ Nat.log2 ((data.length - 1) / baseBlockSize) :=
      Nat.mul_pos (by decide) (Nat.two_pow_pos _)
    simp only [List.length_drop]
    omega

theorem tigerRoot_of_le {data : List UInt8} (h : data.length ≤ baseBlockSize) :
    tigerRoot H data = H.hashBase data := by
  rw [tigerRoot, if_pos h]

theorem baseBlocks_of_le {data : List UInt8} (h : data.length ≤ baseBlockSize) :
    baseBlocks data = [data] := by
  rw [baseBlocks]
  split
  · rw [‹data = []›]
  · exact chunks_of_le ‹_› h

theorem baseBlocks_of_ne_nil {data : List UInt8} (h : data ≠ []) :
    baseBlocks data = chunks baseBlockSize data := if_neg h

variable [Inhabited V]

/-- The standard hash is the root over the hashes of the base blocks. -/
theorem tigerRoot_eq (data : List UInt8) :
    tigerRoot H data = rootOf H.combine ((baseBlocks data).map H.hashBase) := by
  have hpos : 0 < baseBlockSize := by decide
  induction hn : data.length using Nat.strong_induction_on generalizing data with
  | _ n ih =>
    rw [tigerRoot]
    obtain hle | hlt := le_or_gt data.length baseBlockSize
    · rw [if_pos hle, baseBlocks_of_le hle, List.map_singleton, rootOf_singleton]
    · rw [if_neg (by omega)]
      have hq : (data.length - 1) / baseBlockSize ≠ 0 := by
        rw [Nat.div_ne_zero_iff]
        exact ⟨by decide, by omega⟩
      have h1 := Nat.log2_self_le hq
      have h2 := Nat.lt_log2_self (n := (data.length - 1) / baseBlockSize)
      generalize Nat.log2 ((data.length - 1) / baseBlockSize) = j at h1 h2
      have hj0 := Nat.two_pow_pos j
      have hl0 : 0 < baseBlockSize * 2 ^ j := Nat.mul_pos hpos hj0
      have hl : baseBlockSize * 2 ^ j < data.length := by
        have := Nat.mul_le_mul_left baseBlockSize h1
        have := Nat.mul_div_le (data.length - 1) baseBlockSize
        omega
      have hl' : data.length ≤ baseBlockSize * 2 ^ j + baseBlockSize * 2 ^ j := by
        have := Nat.lt_mul_of_div_lt h2 hpos
        rw [pow_succ, Nat.mul_comm, ← Nat.mul_assoc] at this
        omega
      have htake : (data.take (baseBlockSize * 2 ^ j)).length = baseBlockSize * 2 ^ j := by
        simp only [List.length_take]
        omega
      have hdrop : (data.drop (baseBlockSize * 2 ^ j)).length =
          data.length - baseBlockSize * 2 ^ j := List.length_drop
      have hne : ∀ d : List UInt8, 0 < d.length → d ≠ [] := fun d => List.length_pos_iff.mp
      have hsplit : baseBlocks data = baseBlocks (data.take (baseBlockSize * 2 ^ j)) ++
          baseBlocks (data.drop (baseBlockSize * 2 ^ j)) := by
        rw [baseBlocks_of_ne_nil (hne _ (by omega)), baseBlocks_of_ne_nil (hne _ (by omega)),
          baseBlocks_of_ne_nil (hne _ (by omega)), ← chunks_append (by rw [htake]; simp),
          List.take_append_drop]
      have hleft : (baseBlocks (data.take (baseBlockSize * 2 ^ j))).length = 2 ^ j := by
        rw [baseBlocks_of_ne_nil (hne _ (by omega)), chunks_length hpos, htake,
          ← calcBlocks_of_pos hpos hl0, calcBlocks_mul hpos hj0]
      have hright : (baseBlocks (data.drop (baseBlockSize * 2 ^ j))).length ≤ 2 ^ j := by
        rw [baseBlocks_of_ne_nil (hne _ (by omega)), chunks_length hpos, hdrop]
        refine Nat.le_of_lt_succ ((Nat.div_lt_iff_lt_mul hpos).mpr ?_)
        rw [Nat.succ_mul, Nat.mul_comm (2 ^ j)]
        omega
      have hright' : 0 < (baseBlocks (data.drop (baseBlockSize * 2 ^ j))).length :=
        List.length_pos_iff.mpr (baseBlocks_ne_nil _)
      dsimp only
      rw [ih _ (by omega) _ rfl, ih _ (by omega) _ rfl, hsplit, List.map_append,
        rootOf_append H.combine (by simpa using hleft) (by simpa using hright')
          (by simpa using hright)]

/-- Block `i` of the data. -/
def block (blockSize : Nat) (data : List UInt8) (i : Nat) : List UInt8 :=
  (data.drop (i * blockSize)).take blockSize

/-- The groups of base blocks that make a leaf are the base blocks of its block. -/
theorem chunks_baseBlocks (k : Nat) (data : List UInt8) :
    chunks (2 ^ k) (baseBlocks data) =
      (List.range (calcBlocks data.length (baseBlockSize * 2 ^ k))).map
        fun i => baseBlocks (block (baseBlockSize * 2 ^ k) data i) := by
  have hpos : 0 < baseBlockSize := by decide
  have hk := Nat.two_pow_pos k
  have hB : 0 < baseBlockSize * 2 ^ k := Nat.mul_pos hpos hk
  by_cases hd : data = []
  · subst hd
    have h1 : calcBlocks ([] : List UInt8).length (baseBlockSize * 2 ^ k) = 1 :=
      calcBlocks_of_le hB (Nat.zero_le _)
    rw [h1, baseBlocks_of_le (Nat.zero_le _), chunks_of_le (by simp) hk]
    simp [block, baseBlocks_of_le]
  · have hlen := List.length_pos_iff.mpr hd
    rw [baseBlocks_of_ne_nil hd, chunks_chunks hk hpos, calcBlocks_of_pos hB hlen,
      ← chunks_length hB]
    refine List.ext_getElem? fun i => ?_
    obtain hi | hi := lt_or_ge i (chunks (baseBlockSize * 2 ^ k) data).length
    · have hget := chunks_getElem? hB data i hi
      have hmem : block (baseBlockSize * 2 ^ k) data i ≠ [] :=
        ne_nil_of_mem_chunks (List.mem_of_getElem? hget)
      rw [List.getElem?_map, hget, List.getElem?_map, List.getElem?_range hi, Option.map_some,
        Option.map_some, baseBlocks_of_ne_nil hmem]
      rfl
    · rw [List.getElem?_eq_none (by simpa using hi), List.getElem?_eq_none (by simpa using hi)]

/-- The tree after all updates and `finalize`: the leaves are those of the blocks,
the root is the standard hash of the whole data, and both survive `getLeafData`. -/
def Correct {BYTES : Nat} (H : Hasher BYTES) (k : Nat) (calls : List (List UInt8)) : Prop :=
  let data := calls.flatten
  let blockSize := baseBlockSize * 2 ^ k
  ∃ t, finalize H.tree (updates H.tree (ofBlockSize blockSize) calls) = some t ∧
    t.leaves.length = calcBlocks data.length blockSize ∧
    (∀ i < calcBlocks data.length blockSize,
      t.leaves[i]? = some (tigerRoot H.tree (block blockSize data i))) ∧
    t.root = tigerRoot H.tree data ∧
    ∃ t', ofLeafData H.tree data.length blockSize t.getLeafData = some t' ∧
      t'.leaves = t.leaves ∧ t'.root = t.root

variable {H}

/-- The base blocks in the tree when `finalize` has made sure that there is one. -/
def settled (calls : List (List UInt8)) : List (List UInt8) :=
  if hashed calls = [] then [[]] else hashed calls

theorem settled_ne_nil (calls : List (List UInt8)) : settled calls ≠ [] := by
  rw [settled]
  split
  · simp
  · assumption

theorem collapse_built {k : Nat} {pre xs : List V} {t : MerkleTree V}
    (h : Built H k pre xs t) :
    t.leaves ++ ((collapse H t.blocks).head?.map Prod.fst).toList =
      pre ++ (chunks (2 ^ k) xs).map (rootOf H.combine) := by
  obtain ⟨-, full, rest, rfl, hd, hrest, hleaves, hstack⟩ := h
  rw [hleaves, chunks_append hd, List.map_append, List.append_assoc]
  congr 2
  generalize t.blocks = blocks at hstack ⊢
  cases hstack with
  | nil =>
    rw [chunks_nil, collapse]
    · simp
    · simp
  | @cons blocks xs ys j hs hlen htop =>
    have hj0 := Nat.two_pow_pos j
    have hne : xs ++ ys ≠ [] := by
      rw [← List.length_pos_iff, List.length_append]
      omega
    rw [chunks_of_le hne hrest.le, List.map_singleton]
    refine collapse_stack H (by decide) hs (by omega) fun e he => ?_
    rw [hlen]
    exact (htop e he).le

theorem finalize_updates (k : Nat) (calls : List (List UInt8)) :
    ∃ t : MerkleTree V, t.blockSize = baseBlockSize * 2 ^ k ∧ t.fileSize = calls.flatten.length ∧
      t.leaves = (chunks (2 ^ k) ((settled calls).map H.hashBase)).map (rootOf H.combine) ∧
      finalize H (updates H (ofBlockSize (baseBlockSize * 2 ^ k)) calls) = calcRoot H t := by
  obtain ⟨hb, hf⟩ := updates_built (H := H) k calls
  generalize updates H (ofBlockSize (baseBlockSize * 2 ^ k)) calls = t at hb hf
  have hempty := hb.empty_iff
  simp only [true_and, List.map_eq_nil_iff] at hempty
  have hbuilt : ∃ t' : MerkleTree V, (if t.leaves = [] ∧ t.blocks = [] then update H t [] else t) = t' ∧
      t'.fileSize = calls.flatten.length ∧ Built H k [] ((settled calls).map H.hashBase) t' := by
    by_cases h : hashed calls = []
    · have hl := foldl_addBase_built (baseBlocks []) hb
      rw [← updateLoop_eq] at hl
      refine ⟨_, if_pos (hempty.mpr h), ?_, ?_⟩
      · rw [update, if_neg (fun hh => hh.2 (hempty.mpr h))]
        simp [updateLoop_fileSize, hf]
      · rw [update, if_neg (fun hh => hh.2 (hempty.mpr h)), settled, if_pos h]
        rw [h, List.map_nil, List.nil_append] at hl
        exact hl
    · exact ⟨t, if_neg (fun hh => h (hempty.mp hh)), hf, by rwa [settled, if_neg h]⟩
  obtain ⟨t', ht', hf', hb'⟩ := hbuilt
  refine ⟨{ t' with
    blocks := collapse H t'.blocks
    leaves := t'.leaves ++ ((collapse H t'.blocks).head?.map Prod.fst).toList }, hb'.1, hf', ?_, ?_⟩
  · exact collapse_built hb'
  · rw [finalize, ht']

theorem getD_leafData {BYTES : Nat} (leaves : List (HashValue BYTES)) (i : Nat) (hi : i < leaves.length)
    (j : Fin BYTES) : (leaves.flatMap Vector.toList).getD (i * BYTES + j) 0 = leaves[i][j] := by
  induction leaves generalizing i with
  | nil => simp at hi
  | cons v leaves ih =>
    have hv : v.toList.length = BYTES := by simp
    rw [List.flatMap_cons, List.getD_eq_getElem?_getD]
    cases i with
    | zero =>
      rw [Nat.zero_mul, Nat.zero_add, List.getElem?_append_left (by omega)]
      simp
    | succ i =>
      rw [List.getElem?_append_right (by rw [hv, Nat.succ_mul]; omega), hv,
        show (i + 1) * BYTES + j - BYTES = i * BYTES + j by rw [Nat.succ_mul]; omega,
        ← List.getD_eq_getElem?_getD]
      exact ih i (by simpa using hi)

/-- Reading the leaves back from their bytes. -/
theorem leafAt_getLeafData {BYTES : Nat} (leaves : List (HashValue BYTES)) (i : Nat) (hi : i < leaves.length) :
    leafAt (leaves.flatMap Vector.toList) i = leaves[i] := by
  refine Vector.ext fun j hj => ?_
  rw [leafAt, Vector.getElem_ofFn]
  exact getD_leafData leaves i hi ⟨j, hj⟩

theorem ofLeafData_leaves {BYTES : Nat} {leaves : List (HashValue BYTES)} {aFileSize aBlockSize : Nat}
    (h : leaves.length = calcBlocks aFileSize aBlockSize) :
    (List.range (calcBlocks aFileSize aBlockSize)).map (leafAt (leaves.flatMap Vector.toList)) =
      leaves := by
  refine List.ext_getElem (by simp [h]) fun i hi hi' => ?_
  rw [List.getElem_map, List.getElem_range, leafAt_getLeafData leaves i hi']

/-- Where a leaf index needs more than 32 bits, the leaf that is read instead covers
an equal block. -/
def IndexFits (k : Nat) (data : List UInt8) : Prop :=
  ∀ i < calcBlocks data.length (baseBlockSize * 2 ^ k),
    block (baseBlockSize * 2 ^ k) data (i % 2 ^ 32) = block (baseBlockSize * 2 ^ k) data i

/-- The leaves of the blocks, in order. -/
def leavesOf (H : TreeHasher V) (k : Nat) (data : List UInt8) : List V :=
  (List.range (calcBlocks data.length (baseBlockSize * 2 ^ k))).map
    fun i => tigerRoot H (block (baseBlockSize * 2 ^ k) data i)

theorem leavesOf_eq (k : Nat) (data : List UInt8) :
    leavesOf H k data =
      (chunks (2 ^ k) ((baseBlocks data).map H.hashBase)).map (rootOf H.combine) := by
  rw [chunks_map, chunks_baseBlocks, leavesOf, List.map_map, List.map_map]
  refine List.map_congr_left fun i _ => ?_
  rw [tigerRoot_eq]
  rfl

theorem rootOf_leavesOf (k : Nat) (data : List UInt8) :
    rootOf H.combine (leavesOf H k data) = tigerRoot H data := by
  rw [leavesOf_eq, rootOf_chunks _ k _ (by simpa using baseBlocks_ne_nil data), tigerRoot_eq]

theorem wrapped_leavesOf {k : Nat} {data : List UInt8} (h : IndexFits k data) :
    wrapped (leavesOf H k data) = leavesOf H k data := by
  have hlen : (leavesOf H k data).length = calcBlocks data.length (baseBlockSize * 2 ^ k) := by
    simp [leavesOf]
  refine List.ext_getElem (by simp) fun i hi hi' => ?_
  have hmod : i % 2 ^ 32 < (leavesOf H k data).length := (Nat.mod_le i _).trans_lt hi'
  rw [hlen] at hi'
  simp only [wrapped, List.getElem_map, List.getElem_range, List.getD_eq_getElem?_getD,
    List.getElem?_eq_getElem hmod, Option.getD_some]
  simp only [leavesOf, List.getElem_map, List.getElem_range]
  rw [h i hi']

theorem correct_of_fits {BYTES : Nat} {H : Hasher BYTES} {k : Nat} {calls : List (List UInt8)} (ha : Aligned calls)
    (hs : StartsWithData calls) (hi : IndexFits k calls.flatten) : Correct H k calls := by
  have hB : 0 < baseBlockSize * 2 ^ k := Nat.mul_pos (by decide) (Nat.two_pow_pos k)
  have hsettled : settled calls = baseBlocks calls.flatten := by
    rw [settled]
    by_cases hne : calls = []
    · subst hne
      rfl
    · rw [if_neg, hashed_eq ha hs hne]
      rw [hashed_eq ha hs hne]
      exact baseBlocks_ne_nil _
  obtain ⟨t, htB, htf, htl, hfin⟩ := finalize_updates (H := H.tree) k calls
  rw [hsettled, ← leavesOf_eq] at htl
  have hlen : t.leaves.length = calcBlocks calls.flatten.length (baseBlockSize * 2 ^ k) := by
    simp [htl, leavesOf]
  have hroot : ∀ t' : MerkleTree (HashValue BYTES), t'.blockSize = baseBlockSize * 2 ^ k →
      t'.fileSize = calls.flatten.length → t'.leaves = t.leaves →
      calcRoot H.tree t' = some { t' with root := tigerRoot H.tree calls.flatten } := by
    intro t' hb hf hl
    rw [calcRoot_eq (by omega) (by rw [hf, hb, hl, hlen]), hf, hb, hl, ← hlen,
      List.take_of_length_le (by simp), htl, wrapped_leavesOf hi, rootOf_leavesOf]
  refine ⟨_, hfin.trans (hroot t htB htf rfl), hlen, ?_, rfl, ?_⟩
  · intro i hi
    simp only [htl, leavesOf, List.getElem?_map, List.getElem?_range hi, Option.map_some]
  · have hleaves := ofLeafData_leaves hlen
    exact ⟨_, hroot _ rfl rfl hleaves, hleaves, rfl⟩

/-- A value that records the number of base blocks below it and one bit. -/
def tally (n c : Nat) (b : Bool) : HashValue n :=
  Vector.ofFn fun i : Fin n => ((if b then 1 else 0) :: List.replicate c 1).getD i 0

def tallyCount (l : List UInt8) : Nat := l.tail.count 1

def tallyBit (l : List UInt8) : Bool := decide (l.head? = some 1)

theorem tally_toList {n c : Nat} (h : c < n) (b : Bool) :
    (tally n c b).toList =
      (if b then 1 else 0) :: (List.replicate c 1 ++ List.replicate (n - 1 - c) 0) := by
  refine List.ext_getElem (by simp; omega) fun i hi hi' => ?_
  have hin : i < n := by simpa using hi
  simp only [Vector.getElem_toList, tally, Vector.getElem_ofFn]
  rw [List.getD_eq_getElem?_getD]
  cases i with
  | zero => simp
  | succ i =>
    rw [List.getElem?_cons_succ, List.getElem_cons_succ, List.getElem?_replicate,
      List.getElem_append]
    by_cases hic : i < c
    · simp [hic]
    · simp [hic]

theorem tallyCount_tally {n c : Nat} (h : c < n) (b : Bool) :
    tallyCount (tally n c b).toList = c := by
  rw [tallyCount, tally_toList h, List.tail_cons, List.count_append, List.count_replicate,
    List.count_replicate]
  simp

theorem tallyBit_tally {n c : Nat} (h : c < n) (b : Bool) :
    tallyBit (tally n c b).toList = b := by
  rw [tallyBit, tally_toList h]
  cases b <;> simp

/-- A hash that counts base blocks and follows the bits of `target` down to one of
them, which it compares with `c`. -/
def tallyHash (n target : Nat) (c : List UInt8) : Hasher n
  | [] => tally n 0 false
  | p :: rest =>
    if p = 0 then tally n 1 (decide (rest = c))
    else
      let l := rest.take n
      let r := rest.drop n
      tally n (tallyCount l + tallyCount r)
        (if target.testBit (Nat.log2 (tallyCount l)) then tallyBit r else tallyBit l)

theorem combine_tallyHash {n target a b : Nat} (c : List UInt8) (ha : a < n) (hb : b < n)
    (x y : Bool) :
    (tallyHash n target c).tree.combine (tally n a x) (tally n b y) =
      tally n (a + b) (if target.testBit (Nat.log2 a) then y else x) := by
  have hl : (tally n a x).toList.length = n := by simp
  rw [Hasher.tree_combine, tallyHash, if_neg (by decide)]
  simp only [List.take_left' hl, List.drop_left' hl, tallyCount_tally ha, tallyCount_tally hb,
    tallyBit_tally ha, tallyBit_tally hb]

theorem rootOf_tallyHash (n target : Nat) (c : List UInt8) (xs : List (List UInt8))
    (hpos : 0 < xs.length) (hn : xs.length < n) :
    ∃ b, rootOf (tallyHash n target c).tree.combine (xs.map (tallyHash n target c).tree.hashBase) =
      tally n xs.length b ∧ ∀ e, xs.length ≤ 2 ^ e → target % 2 ^ e < xs.length →
        b = decide (xs[target % 2 ^ e]? = some c) := by
  induction hm : xs.length using Nat.strong_induction_on generalizing xs with
  | _ m ih =>
    obtain hle | hlt := le_or_gt xs.length 1
    · obtain ⟨x, rfl⟩ := List.length_eq_one_iff.mp (show xs.length = 1 by omega)
      obtain rfl : 1 = m := hm
      refine ⟨decide (x = c), ?_, fun e _ ht => ?_⟩
      · rw [List.map_singleton, rootOf_singleton, Hasher.tree_hashBase, tallyHash, if_pos rfl]
      · rw [show target % 2 ^ e = 0 by omega]
        simp
    · obtain ⟨j, -, hj1, hj2⟩ := half_spec (n := xs.length) hlt
      have hj0 := Nat.two_pow_pos j
      have hp : 2 ^ (j + 1) = 2 ^ j + 2 ^ j := by rw [pow_succ]; omega
      have htake : (xs.take (2 ^ j)).length = 2 ^ j := by simp; omega
      have hdrop : (xs.drop (2 ^ j)).length = xs.length - 2 ^ j := by simp
      obtain ⟨x, hx, hx'⟩ := ih _ (by omega) (xs.take (2 ^ j)) (by omega) (by omega) rfl
      obtain ⟨y, hy, hy'⟩ := ih _ (by omega) (xs.drop (2 ^ j)) (by omega) (by omega) rfl
      have hsplit := rootOf_append (tallyHash n target c).tree.combine (j := j)
        (l := (xs.take (2 ^ j)).map (tallyHash n target c).tree.hashBase)
        (m := (xs.drop (2 ^ j)).map (tallyHash n target c).tree.hashBase)
        (by simpa using htake) (by simp; omega) (by simp; omega)
      rw [← List.map_append, List.take_append_drop, hx, hy,
        combine_tallyHash c (by omega) (by omega), htake, hdrop, Nat.log2_two_pow] at hsplit
      refine ⟨_, by rw [hsplit]; congr 1; omega, fun e he ht => ?_⟩
      have hje : j + 1 ≤ e := by
        by_contra hc
        have := Nat.pow_le_pow_right (n := 2) (by omega) (show e ≤ j by omega)
        omega
      -- the bits of the target above the two halves are zero
      have hmod : target % 2 ^ e = target % 2 ^ (j + 1) := by
        have h1 := Nat.mod_mod_of_dvd target (pow_dvd_pow 2 hje)
        rw [Nat.mod_eq_of_lt (a := target % 2 ^ e) (by omega)] at h1
        exact h1
      have hmodj := Nat.mod_lt target hj0
      have hbit : target % 2 ^ (j + 1) =
          2 ^ j * (target.testBit j).toNat + target % 2 ^ j := by
        rw [Nat.mod_pow_succ, Nat.add_comm, Nat.toNat_testBit]
      rw [hmod] at ht ⊢
      cases ht' : target.testBit j with
      | true =>
        simp only [ht', Bool.toNat_true, Nat.mul_one] at hbit
        rw [if_pos rfl, hy' j (by omega) (by omega), hbit, List.getElem?_drop]
      | false =>
        simp only [ht', Bool.toNat_false, Nat.mul_zero, Nat.zero_add] at hbit
        rw [if_neg (by simp), hx' j (by omega) (by omega), hbit, List.getElem?_take_of_lt hmodj]

/-- No two rows of base blocks have the same root for every hash. -/
theorem eq_of_rootOf_eq {xs ys : List (List UInt8)} (hx : xs ≠ []) (hy : ys ≠ [])
    (h : ∀ (n : Nat) (H : Hasher n), rootOf H.tree.combine (xs.map H.tree.hashBase) =
      rootOf H.tree.combine (ys.map H.tree.hashBase)) : xs = ys := by
  have hx' := List.length_pos_iff.mpr hx
  have hy' := List.length_pos_iff.mpr hy
  have hroots : ∀ target c, ∃ a b, tally (xs.length + ys.length + 1) xs.length a =
      tally (xs.length + ys.length + 1) ys.length b ∧
      (∀ e, xs.length ≤ 2 ^ e → target % 2 ^ e < xs.length →
        a = decide (xs[target % 2 ^ e]? = some c)) ∧
      ∀ e, ys.length ≤ 2 ^ e → target % 2 ^ e < ys.length →
        b = decide (ys[target % 2 ^ e]? = some c) := by
    intro target c
    obtain ⟨a, ha, ha'⟩ := rootOf_tallyHash (xs.length + ys.length + 1) target c xs hx' (by omega)
    obtain ⟨b, hb, hb'⟩ := rootOf_tallyHash (xs.length + ys.length + 1) target c ys hy' (by omega)
    exact ⟨a, b, by rw [← ha, ← hb, h], ha', hb'⟩
  have hlen : xs.length = ys.length := by
    obtain ⟨a, b, hab, -, -⟩ := hroots 0 []
    have hc := congrArg (fun v => tallyCount v.toList) hab
    simpa only [tallyCount_tally (show xs.length < xs.length + ys.length + 1 by omega),
      tallyCount_tally (show ys.length < xs.length + ys.length + 1 by omega)] using hc
  refine List.ext_getElem hlen fun i hi hi' => ?_
  obtain ⟨a, b, hab, ha, hb⟩ := hroots i xs[i]
  have hbits := congrArg (fun v => tallyBit v.toList) hab
  simp only [tallyBit_tally (show xs.length < xs.length + ys.length + 1 by omega),
    tallyBit_tally (show ys.length < xs.length + ys.length + 1 by omega)] at hbits
  have hmod : i % 2 ^ xs.length = i := Nat.mod_eq_of_lt (hi.trans Nat.lt_two_pow_self)
  have ha' := ha xs.length Nat.lt_two_pow_self.le (by rwa [hmod])
  have hb' := hb xs.length (by rw [← hlen]; exact Nat.lt_two_pow_self.le) (by rwa [hmod])
  rw [hmod, List.getElem?_eq_getElem hi] at ha'
  rw [hmod, List.getElem?_eq_getElem hi', ← hbits, ha'] at hb'
  exact (by simpa using hb' : ys[i] = xs[i]).symm

theorem leaves_eq_of_correct {BYTES : Nat} {H : Hasher BYTES} {k : Nat} {calls : List (List UInt8)} (hc : Correct H k calls) :
    (chunks (2 ^ k) ((settled calls).map H.tree.hashBase)).map (rootOf H.tree.combine) =
      leavesOf H.tree k calls.flatten ∧
    rootOf H.tree.combine (wrapped (leavesOf H.tree k calls.flatten)) = tigerRoot H.tree calls.flatten := by
  have hB : 0 < baseBlockSize * 2 ^ k := Nat.mul_pos (by decide) (Nat.two_pow_pos k)
  obtain ⟨t, htB, htf, htl, hfin⟩ := finalize_updates (H := H.tree) k calls
  obtain ⟨t', ht', hlen, hleaf, hroot, -⟩ := hc
  rw [hfin, calcRoot, Option.map_eq_some_iff] at ht'
  obtain ⟨r, hr, rfl⟩ := ht'
  have hleaves : t.leaves = leavesOf H.tree k calls.flatten := by
    refine List.ext_getElem? fun i => ?_
    obtain hi | hi := lt_or_ge i (calcBlocks calls.flatten.length (baseBlockSize * 2 ^ k))
    · rw [show t.leaves[i]? = _ from hleaf i hi, leavesOf, List.getElem?_map,
        List.getElem?_range hi, Option.map_some]
    · rw [List.getElem?_eq_none (by simpa [hlen] using hi),
        List.getElem?_eq_none (by simpa [leavesOf] using hi)]
  refine ⟨htl.symm.trans hleaves, ?_⟩
  have hcalc := calcRoot_eq (H := H.tree) (t := t) (by omega) (by rw [htf, htB]; exact hlen.ge)
  rw [calcRoot, hr, Option.map_some, htf, htB] at hcalc
  have hr' := congrArg MerkleTree.root (Option.some.inj hcalc)
  rw [← hleaves, ← hroot]
  refine Eq.trans ?_ hr'.symm
  rw [List.take_of_length_le (by rw [wrapped_length]; exact hlen.le)]

theorem wrapped_leavesOf_eq (k : Nat) (data : List UInt8) :
    wrapped (leavesOf H k data) =
      (List.range (calcBlocks data.length (baseBlockSize * 2 ^ k))).map
        fun i => tigerRoot H (block (baseBlockSize * 2 ^ k) data (i % 2 ^ 32)) := by
  refine List.ext_getElem (by simp [leavesOf]) fun i hi hi' => ?_
  have hi'' : i < calcBlocks data.length (baseBlockSize * 2 ^ k) := by simpa using hi'
  have hmod : i % 2 ^ 32 < (leavesOf H k data).length :=
    (Nat.mod_le i _).trans_lt (by simpa [leavesOf] using hi'')
  simp only [wrapped, List.getElem_map, List.getElem_range, List.getD_eq_getElem?_getD,
    List.getElem?_eq_getElem hmod, Option.getD_some]
  simp only [leavesOf, List.getElem_map, List.getElem_range]

theorem baseBlocks_flatten (data : List UInt8) : (baseBlocks data).flatten = data := by
  rw [baseBlocks]
  split
  · rw [‹data = []›]
    rfl
  · exact chunks_flatten (by decide) data

theorem baseBlocks_block_length {k : Nat} {data : List UInt8} {i : Nat}
    (h : i + 1 < calcBlocks data.length (baseBlockSize * 2 ^ k)) :
    (baseBlocks (block (baseBlockSize * 2 ^ k) data i)).length = 2 ^ k := by
  have hpos : 0 < baseBlockSize := by decide
  have hk := Nat.two_pow_pos k
  have hB : 0 < baseBlockSize * 2 ^ k := Nat.mul_pos hpos hk
  have hdata : 0 < data.length := by
    by_contra hc
    rw [calcBlocks_of_le hB (by omega)] at h
    omega
  rw [calcBlocks_of_pos hB hdata] at h
  have hle := (Nat.le_div_iff_mul_le hB).mp (Nat.succ_le_of_lt h)
  simp only [Nat.succ_eq_add_one, Nat.add_mul, Nat.one_mul] at hle
  have hlen : (block (baseBlockSize * 2 ^ k) data i).length = baseBlockSize * 2 ^ k := by
    simp only [block, List.length_take, List.length_drop]
    omega
  have hne : block (baseBlockSize * 2 ^ k) data i ≠ [] := by
    rw [← List.length_pos_iff]
    omega
  rw [baseBlocks_of_ne_nil hne, chunks_length hpos, hlen, ← calcBlocks_of_pos hpos hB,
    calcBlocks_mul hpos hk]

theorem settled_eq_of_correct {k : Nat} {calls : List (List UInt8)}
    (h : ∀ (n : Nat) (H : Hasher n), Correct H k calls) :
    settled calls = baseBlocks calls.flatten := by
  refine eq_of_rootOf_eq (settled_ne_nil calls) (baseBlocks_ne_nil _) fun n H => ?_
  have hl := congrArg (rootOf H.tree.combine) (leaves_eq_of_correct (h n H)).1
  rwa [rootOf_chunks _ k _ (by simpa using settled_ne_nil calls), rootOf_leavesOf,
    tigerRoot_eq] at hl

theorem startsWithData_of_correct {k : Nat} {calls : List (List UInt8)} (ha : Aligned calls)
    (h : ∀ (n : Nat) (H : Hasher n), Correct H k calls) : StartsWithData calls := by
  intro hhead
  by_contra hdata
  have hs := settled_eq_of_correct h
  cases calls with
  | nil => simp at hhead
  | cons c calls =>
    obtain rfl : c = [] := by simpa using hhead
    have hne : hashed ([] :: calls) ≠ [] := by
      rw [hashed_cons ha]
      simp [baseBlocks]
    rw [settled, if_neg hne, hashed_cons ha, baseBlocks_of_ne_nil hdata] at hs
    have hlen := congrArg List.length hs
    simp [baseBlocks] at hlen

theorem indexFits_of_correct {k : Nat} {calls : List (List UInt8)}
    (h : ∀ (n : Nat) (H : Hasher n), Correct H k calls) : IndexFits k calls.flatten := by
  have hk := Nat.two_pow_pos k
  generalize hN : calcBlocks calls.flatten.length (baseBlockSize * 2 ^ k) = N
  obtain hle | hlt := le_or_gt N (2 ^ 32)
  · intro i hi
    rw [Nat.mod_eq_of_lt (by omega)]
  let groups := (List.range N).map
    fun i => baseBlocks (block (baseBlockSize * 2 ^ k) calls.flatten (i % 2 ^ 32))
  have hfull : ∀ g ∈ groups, g.length = 2 ^ k := by
    intro g hg
    obtain ⟨i, -, rfl⟩ := List.mem_map.mp hg
    have := Nat.mod_lt i (Nat.two_pow_pos 32)
    exact baseBlocks_block_length (by omega)
  have hgroups := chunks_flatten_of_length hk hfull
  have hne : groups.flatten ≠ [] := by
    intro hnil
    rw [hnil, chunks_nil] at hgroups
    have := congrArg List.length hgroups
    simp only [groups, List.length_nil, List.length_map, List.length_range] at this
    omega
  have hroot : ∀ (n : Nat) (H : Hasher n), rootOf H.tree.combine (groups.flatten.map H.tree.hashBase) =
      rootOf H.tree.combine ((baseBlocks calls.flatten).map H.tree.hashBase) := by
    intro n H
    rw [← tigerRoot_eq, ← (leaves_eq_of_correct (h n H)).2, wrapped_leavesOf_eq, hN,
      ← rootOf_chunks H.tree.combine k (groups.flatten.map H.tree.hashBase) (by simpa using hne),
      chunks_map, hgroups]
    simp only [groups, List.map_map]
    congr 1
    refine List.map_congr_left fun i _ => ?_
    rw [tigerRoot_eq]
    rfl
  have heq := eq_of_rootOf_eq hne (baseBlocks_ne_nil _) hroot
  rw [heq, chunks_baseBlocks, hN] at hgroups
  intro i hi
  rw [hN] at hi
  have hi' := congrArg (fun l => l[i]?) hgroups
  simp only [groups, List.getElem?_map, List.getElem?_range hi, Option.map_some,
    Option.some.injEq] at hi'
  rw [← baseBlocks_flatten (block _ _ (i % 2 ^ 32)), ← hi', baseBlocks_flatten]

/-- The tree is right for every hash, if and only if the first call is not an empty
one with data to follow and no leaf index is cut to a different block. -/
theorem correct_iff (k : Nat) (calls : List (List UInt8)) (ha : Aligned calls) :
    (∀ (n : Nat) (H : Hasher n), Correct H k calls) ↔
      StartsWithData calls ∧ IndexFits k calls.flatten := by
  constructor
  · intro h
    exact ⟨startsWithData_of_correct ha h, indexFits_of_correct h⟩
  · rintro ⟨hs, hi⟩ n H
    exact correct_of_fits ha hs hi

theorem correct_iff_single :
    Aligned [[1, 2, 3]] ∧ ((∀ (n : Nat) (H : Hasher n), Correct H 1 [[1, 2, 3]]) ↔
      StartsWithData [[1, 2, 3]] ∧ IndexFits 1 ([[1, 2, 3]] : List (List UInt8)).flatten) :=
  ⟨by simp [Aligned], correct_iff 1 [[1, 2, 3]] (by simp [Aligned])⟩

/-- An empty update before one byte leaves the tree with two leaves. -/
theorem not_correct_empty_first :
    Aligned [[], [1]] ∧ ¬∀ (n : Nat) (H : Hasher n), Correct H 0 [[], [1]] := by
  have ha : Aligned [[], [1]] := by simp [Aligned]
  refine ⟨ha, fun h => ?_⟩
  have hlen := congrArg List.length (leaves_eq_of_correct (h 24 fun _ => default)).1
  have hs : settled [[], [1]] = [[], [1]] := by
    rw [settled, hashed_cons ha]
    simp [baseBlocks, chunks_of_le, baseBlockSize]
  rw [List.length_map, hs, chunks_length (Nat.two_pow_pos 0)] at hlen
  simp [leavesOf, calcBlocks, baseBlockSize] at hlen

end Dcpp.TigerTree
