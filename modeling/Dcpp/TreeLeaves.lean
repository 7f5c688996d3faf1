import Dcpp.TigerTree

namespace Dcpp.TreeLeaves

open Chunks HashTree MerkleTree TigerTree

variable {V : Type} (H : TreeHasher V)

/-- The tree after the base blocks of some more data. -/
def addData (t : MerkleTree V) (data : List UInt8) : MerkleTree V :=
  ((chunks baseBlockSize data).foldl (addBase H) t).setFileSize (t.fileSize + data.length)

/-- The block size serves data of this length: it is a power of two of base blocks,
or a single block holds all of it. -/
def Serves (blockSize length : Nat) : Prop :=
  (∃ k, blockSize = baseBlockSize * 2 ^ k) ∨ length ≤ blockSize

variable {H}

theorem update_eq (t : MerkleTree V) {data : List UInt8} (h : data ≠ []) :
    update H t data = addData H t data := by
  have hlen := List.length_pos_iff.mpr h
  have hsize := updateLoop_fileSize H t data
  rw [updateLoop_eq, baseBlocks_of_ne_nil h] at hsize
  rw [update, if_neg (by omega), addData, updateLoop_eq, baseBlocks_of_ne_nil h]
  exact congrArg (fun n => setFileSize _ (n + data.length)) hsize

theorem foldl_addBase_setFileSize (bufs : List (List UInt8)) (t : MerkleTree V) (n : Nat) :
    bufs.foldl (addBase H) (t.setFileSize n) = (bufs.foldl (addBase H) t).setFileSize n := by
  induction bufs generalizing t with
  | nil => rfl
  | cons buf bufs ih =>
    have hbuf : addBase H (t.setFileSize n) buf = (addBase H t buf).setFileSize n := by
      rw [addBase, addBase]
      by_cases h : baseBlockSize < t.blockSize
      · rw [if_pos h]
        exact if_pos h
      · rw [if_neg h]
        exact if_neg h
    rw [List.foldl_cons, List.foldl_cons, hbuf, ih]

theorem addData_append (t : MerkleTree V) {c : List UInt8} (hc : baseBlockSize ∣ c.length)
    (d : List UInt8) : addData H t (c ++ d) = addData H (addData H t c) d := by
  rw [addData, chunks_append hc, List.foldl_append, List.length_append, ← Nat.add_assoc]
  rw [addData, addData, foldl_addBase_setFileSize]
  rfl

@[simp] theorem addData_nil (t : MerkleTree V) : addData H t [] = t := by
  rw [addData, chunks_nil]
  rfl

@[simp] theorem addData_fileSize (t : MerkleTree V) (data : List UInt8) :
    (addData H t data).fileSize = t.fileSize + data.length := rfl

theorem foldl_addBase_blockSize (bufs : List (List UInt8)) (t : MerkleTree V) :
    (bufs.foldl (addBase H) t).blockSize = t.blockSize := by
  induction bufs generalizing t with
  | nil => rfl
  | cons buf bufs ih =>
    rw [List.foldl_cons, ih, addBase]
    split <;> rfl

@[simp] theorem addData_blockSize (t : MerkleTree V) (data : List UInt8) :
    (addData H t data).blockSize = t.blockSize := foldl_addBase_blockSize _ t

theorem reduceBlocks_extends (B : Nat) (blocks : List (V × Nat)) (leaves : List V) :
    leaves <+: (reduceBlocks H B blocks leaves).2 := by
  induction blocks, leaves using reduceBlocks.induct H B with
  | case1 b a blocks leaves hab hB ih =>
    rw [reduceBlocks, if_pos hab, if_pos hB]
    exact (List.prefix_append _ _).trans ih
  | case2 b a blocks leaves hab hB ih =>
    rw [reduceBlocks, if_pos hab, if_neg hB]
    exact ih
  | case3 b a blocks leaves hab =>
    have h : reduceBlocks H B (b :: a :: blocks) leaves = (b :: a :: blocks, leaves) := by
      rw [reduceBlocks, if_neg hab]
    exact (congrArg Prod.snd h).symm ▸ List.prefix_refl leaves
  | case4 blocks leaves h =>
    have h' : reduceBlocks H B blocks leaves = (blocks, leaves) := by
      rw [reduceBlocks]
      exact h
    exact (congrArg Prod.snd h').symm ▸ List.prefix_refl leaves

/-- More data never changes a leaf. -/
theorem addData_extends (t : MerkleTree V) (data : List UInt8) :
    t.leaves <+: (addData H t data).leaves := by
  rw [addData]
  generalize chunks baseBlockSize data = bufs
  rw [setFileSize]
  induction bufs generalizing t with
  | nil => exact List.prefix_refl _
  | cons buf bufs ih =>
    refine List.IsPrefix.trans ?_ (ih (addBase H t buf))
    rw [addBase]
    split
    · exact reduceBlocks_extends _ _ _
    · exact List.prefix_append _ _

variable [Inhabited V]

/-- Roots over groups of base blocks are the hashes of whole blocks. -/
theorem chunks_tigerRoot (k : Nat) (data : List UInt8) :
    (chunks (2 ^ k) ((chunks baseBlockSize data).map H.hashBase)).map (rootOf H.combine) =
      (chunks (baseBlockSize * 2 ^ k) data).map (tigerRoot H) := by
  rw [chunks_map, chunks_chunks (Nat.two_pow_pos k) (by decide), List.map_map, List.map_map]
  refine List.map_congr_left fun c hc => ?_
  rw [tigerRoot_eq, baseBlocks_of_ne_nil (ne_nil_of_mem_chunks hc)]
  rfl

theorem built_leaves {k : Nat} {pre xs : List V} {t : MerkleTree V} (h : Built H k pre xs t) :
    t.leaves = pre ++ ((chunks (2 ^ k) xs).take (xs.length / 2 ^ k)).map (rootOf H.combine) := by
  have hk := Nat.two_pow_pos k
  obtain ⟨-, full, rest, rfl, ⟨q, hq⟩, hrest, hleaves, -⟩ := h
  have hlen : (full ++ rest).length / 2 ^ k = q := by
    rw [List.length_append, hq, Nat.mul_add_div hk, Nat.div_eq_of_lt hrest, Nat.add_zero]
  have hfull : (chunks (2 ^ k) full).length = q := by
    rw [chunks_length hk, hq, show 2 ^ k * q + 2 ^ k - 1 = 2 ^ k * q + (2 ^ k - 1) by omega,
      Nat.mul_add_div hk, Nat.div_eq_of_lt (by omega), Nat.add_zero]
  rw [hleaves, chunks_append ⟨q, hq⟩, hlen, List.take_left' hfull]

theorem addData_built {k : Nat} {t : MerkleTree V} (hB : t.blockSize = baseBlockSize * 2 ^ k)
    (hb : t.blocks = []) (data : List UInt8) :
    Built H k t.leaves ((chunks baseBlockSize data).map H.hashBase) (addData H t data) := by
  have h : Built H k t.leaves [] t := by
    refine ⟨hB, [], [], rfl, by simp, Nat.two_pow_pos k, by simp, ?_⟩
    rw [hb]
    exact Stack.nil
  exact foldl_addBase_built (chunks baseBlockSize data) h

/-- Where the block size is no power of two of base blocks, no group ever becomes a leaf. -/
theorem addData_stack {t : MerkleTree V} (hB : ∀ k, t.blockSize ≠ baseBlockSize * 2 ^ k)
    (hlt : baseBlockSize < t.blockSize) (hb : t.blocks = []) (data : List UInt8) :
    (addData H t data).leaves = t.leaves ∧
      Stack H.combine baseBlockSize (addData H t data).blocks
        ((chunks baseBlockSize data).map H.hashBase) := by
  rw [addData, setFileSize]
  generalize chunks baseBlockSize data = bufs
  simp only
  induction bufs using List.reverseRecOn with
  | nil =>
    refine ⟨rfl, ?_⟩
    rw [List.foldl_nil, hb]
    exact Stack.nil
  | append_singleton bufs buf ih =>
    obtain ⟨hleaves, hstack⟩ := ih
    have hsize := foldl_addBase_blockSize (H := H) bufs t
    rw [List.foldl_append, List.foldl_cons, List.foldl_nil, List.map_append, List.map_singleton]
    generalize bufs.foldl (addBase H) t = t' at hleaves hstack hsize ⊢
    have htop : ∀ e ∈ t'.blocks.head?, baseBlockSize * 2 ^ 0 ≤ e.2 := by
      intro e he
      cases hb' : t'.blocks with
      | nil => simp [hb'] at he
      | cons a blocks =>
        rw [hb'] at he hstack
        obtain rfl : a = e := by simpa using he
        obtain ⟨m, hm, -⟩ := hstack.pow
        rw [hm]
        exact Nat.mul_le_mul_left _ (Nat.pow_le_pow_right (by omega) (by omega))
    have hroom : (bufs.map H.hashBase).length + [H.hashBase buf].length <
        2 ^ (bufs.length + 1) := by
      simpa using Nat.lt_two_pow_self (n := bufs.length + 1)
    have h := (reduceBlocks_stack H (B := t.blockSize) (k := bufs.length + 1)
      (fun m _ heq => hB m heq.symm) (by decide) hstack 0 [H.hashBase buf] rfl (by omega) htop
      t'.leaves).1 hroom
    rw [rootOf_singleton, pow_zero, Nat.mul_one] at h
    obtain ⟨s, hs, hst⟩ := h
    rw [addBase, if_pos (by omega), hsize, hs]
    exact ⟨hleaves, hst⟩

/-- Before `finalize` the leaves are those of complete blocks, and of all complete blocks
where the block size is a power of two of base blocks. -/
theorem addData_leaves {t : MerkleTree V} (hb : t.blocks = []) {data : List UInt8}
    (hdata : baseBlockSize ∣ data.length) (hs : Serves t.blockSize data.length) :
    ∃ c, c * t.blockSize ≤ data.length ∧
      ((∃ k, t.blockSize = baseBlockSize * 2 ^ k) → c = data.length / t.blockSize) ∧
      (addData H t data).leaves =
        t.leaves ++ ((chunks t.blockSize data).take c).map (tigerRoot H) := by
  have hpos : 0 < baseBlockSize := by decide
  by_cases hk : ∃ k, t.blockSize = baseBlockSize * 2 ^ k
  · refine ⟨_, Nat.div_mul_le_self _ _, fun _ => rfl, ?_⟩
    obtain ⟨k, hk⟩ := hk
    obtain ⟨q, hq⟩ := hdata
    have hlen : (chunks baseBlockSize data).length = q := by
      rw [chunks_length hpos, hq, show baseBlockSize * q + baseBlockSize - 1 =
        baseBlockSize * q + (baseBlockSize - 1) by omega, Nat.mul_add_div hpos,
        Nat.div_eq_of_lt (by omega), Nat.add_zero]
    rw [built_leaves (addData_built hk hb data), List.map_take, chunks_tigerRoot, hk, List.map_take,
      List.length_map, hlen, hq, Nat.mul_div_mul_left _ _ hpos]
  · have hle : data.length ≤ t.blockSize := hs.resolve_left hk
    refine ⟨0, by simp, fun h => absurd h hk, ?_⟩
    rw [not_exists] at hk
    rw [List.take_zero, List.map_nil, List.append_nil]
    by_cases hlt : baseBlockSize < t.blockSize
    · exact (addData_stack hk hlt hb data).1
    · have hne := hk 0
      rw [pow_zero, Nat.mul_one] at hne
      have hnil : data = [] := by
        by_contra hne'
        have := Nat.le_of_dvd (List.length_pos_iff.mpr hne') hdata
        omega
      rw [hnil, addData_nil]

/-- Putting the remaining blocks together yields the leaf of the last block. -/
theorem addData_settle {t : MerkleTree V} (hb : t.blocks = []) {data : List UInt8}
    (hs : Serves t.blockSize data.length) :
    (addData H t data).leaves ++
        ((collapse H (addData H t data).blocks).head?.map Prod.fst).toList =
      t.leaves ++ (chunks t.blockSize data).map (tigerRoot H) := by
  by_cases hk : ∃ k, t.blockSize = baseBlockSize * 2 ^ k
  · obtain ⟨k, hk⟩ := hk
    rw [collapse_built (addData_built hk hb data), chunks_tigerRoot, hk]
  · have hle : data.length ≤ t.blockSize := hs.resolve_left hk
    rw [not_exists] at hk
    by_cases hd : data = []
    · rw [hd, addData_nil, hb, chunks_nil, collapse]
      · rfl
      · simp
    · rw [chunks_of_le hd hle, List.map_singleton, tigerRoot_eq, baseBlocks_of_ne_nil hd]
      by_cases hlt : baseBlockSize < t.blockSize
      · obtain ⟨hleaves, hstack⟩ := addData_stack (H := H) hk hlt hb data
        rw [hleaves]
        congr 1
        generalize (addData H t data).blocks = blocks at hstack
        generalize hxs : (chunks baseBlockSize data).map H.hashBase = row at hstack ⊢
        cases hstack with
        | nil => exact absurd (List.map_eq_nil_iff.mp hxs) (chunks_ne_nil (by decide) hd)
        | @cons rest xs ys j hs hlen htop =>
          refine collapse_stack H (by decide) hs (by rw [hlen]; exact Nat.two_pow_pos j) ?_
          intro e he
          rw [hlen]
          exact (htop e he).le
      · have hone : chunks baseBlockSize data = [data] := chunks_of_le hd (by omega)
        rw [addData, hone]
        simp only [List.foldl_cons, List.foldl_nil, setFileSize, addBase, if_neg hlt, hb]
        rw [collapse]
        · simp
        · simp

/-- The leaves that `finalize` arrives at on top of `pre`; a tree with nothing in it
gets the leaf of an empty block. -/
def finalLeaves (H : TreeHasher V) (pre : List V) (blockSize : Nat) (data : List UInt8) : List V :=
  pre ++ (if pre = [] ∧ data = [] then [[]] else chunks blockSize data).map (tigerRoot H)

theorem finalize_empty {t : MerkleTree V} (hB : 0 < t.blockSize) (hb : t.blocks = [])
    (hl : t.leaves = []) (hsize : t.fileSize = 0) :
    ∃ t', finalize H t = some t' ∧ t'.leaves = [H.hashBase []] ∧ t'.root = H.hashBase [] ∧
      t'.blockSize = t.blockSize := by
  have hup : update H t [] = addBase H t [] := by
    rw [update, if_neg (by simp [hb, hl]), updateLoop]
    rfl
  have hleaves : (addBase H t []).leaves ++
      ((collapse H (addBase H t []).blocks).head?.map Prod.fst).toList = [H.hashBase []] := by
    by_cases hlt : baseBlockSize < t.blockSize
    · simp [addBase, if_pos hlt, hb, hl]
    · simp [addBase, if_neg hlt, hb, hl, collapse]
  have hsize' : (addBase H t []).fileSize = 0 := (addBase_fileSize H t []).trans hsize
  have hB' : (addBase H t []).blockSize = t.blockSize := foldl_addBase_blockSize [[]] t
  rw [finalize, if_pos ⟨hl, hb⟩, hup]
  rw [hleaves, calcRoot_eq (by simpa only [hB'] using hB)]
  · refine ⟨_, rfl, rfl, ?_, hB'⟩
    simp only [hsize', hB', calcBlocks_of_le hB (Nat.zero_le _)]
    rw [List.take_of_length_le (by simp)]
    simp [wrapped]
  · simp only [hsize', hB', calcBlocks_of_le hB (Nat.zero_le _)]
    simp

theorem finalize_addData {t : MerkleTree V} (hB : 0 < t.blockSize) (hb : t.blocks = [])
    {data : List UInt8} (hs : Serves t.blockSize data.length)
    (hsize : t.fileSize = t.leaves.length * t.blockSize) :
    ∃ t', finalize H (addData H t data) = some t' ∧
      t'.leaves = finalLeaves H t.leaves t.blockSize data ∧
      t'.root = rootOf H.combine (wrapped (finalLeaves H t.leaves t.blockSize data)) ∧
      t'.blockSize = t.blockSize := by
  by_cases hempty : t.leaves = [] ∧ data = []
  · obtain ⟨hl, rfl⟩ := hempty
    have hsize' : t.fileSize = 0 := by simp [hsize, hl]
    obtain ⟨t', ht', hleaves, hroot, hB'⟩ := finalize_empty (H := H) hB hb hl hsize'
    have hfinal : finalLeaves H t.leaves t.blockSize [] = [H.hashBase []] := by
      rw [finalLeaves, if_pos ⟨hl, rfl⟩, hl, List.nil_append, List.map_singleton,
        tigerRoot_of_le H (Nat.zero_le _)]
    rw [addData_nil, hfinal]
    exact ⟨t', ht', hleaves, by rw [hroot]; simp [wrapped], hB'⟩
  · have hsettle := addData_settle (H := H) hb hs
    have hfinal : finalLeaves H t.leaves t.blockSize data =
        t.leaves ++ (chunks t.blockSize data).map (tigerRoot H) := by
      rw [finalLeaves, if_neg hempty]
    rw [← hfinal] at hsettle
    have hcount : calcBlocks (t.fileSize + data.length) t.blockSize =
        (finalLeaves H t.leaves t.blockSize data).length := by
      have hpos : 0 < t.fileSize + data.length := by
        by_contra hc
        have hn : t.leaves.length * t.blockSize = 0 := by omega
        obtain hn | hn := Nat.mul_eq_zero.mp hn
        · exact hempty ⟨List.length_eq_zero_iff.mp hn, List.length_eq_zero_iff.mp (by omega)⟩
        · omega
      rw [hfinal, calcBlocks_of_pos hB hpos, List.length_append, List.length_map,
        chunks_length hB, hsize, show t.leaves.length * t.blockSize + data.length + t.blockSize - 1 =
          t.blockSize * t.leaves.length + (data.length + t.blockSize - 1) by
            rw [Nat.mul_comm]; omega, Nat.mul_add_div hB]
    have hne : finalLeaves H t.leaves t.blockSize data ≠ [] := by
      rw [← List.length_pos_iff, ← hcount, calcBlocks]
      omega
    have hnone : ¬((addData H t data).leaves = [] ∧ (addData H t data).blocks = []) := by
      rintro ⟨h1, h2⟩
      rw [h1, h2, List.nil_append] at hsettle
      apply hne
      rw [← hsettle, collapse]
      · rfl
      · simp
    rw [finalize, if_neg hnone]
    rw [hsettle, calcRoot_eq (by simpa using hB)]
    · refine ⟨_, rfl, rfl, ?_, by simp⟩
      simp only [addData_fileSize, addData_blockSize, hcount]
      rw [List.take_of_length_le (by simp)]
    · simp only [addData_fileSize, addData_blockSize, hcount]
      exact le_rfl

end Dcpp.TreeLeaves
