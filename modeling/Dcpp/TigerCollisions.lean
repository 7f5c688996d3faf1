import Dcpp.TigerHash

-- What two files with the same root would show about the Tiger hash.
namespace Dcpp.TigerHash

open Blocks ByteFile MerkleTree TigerTree

section Digest

/-- The calls of the compression that hash some data. -/
def compressions (data : Bytes) : List (State × Bytes) := calls tigerCompress initial (blocks data)

theorem encode_injective {k m n : Nat} (hm : m < 256 ^ k) (hn : n < 256 ^ k) (h : encode k m = encode k n) : m = n := by
  rw [← decode_encode hm, h, decode_encode hn]

theorem digest_toList (s : State) :
    (digest s).toList = encode 8 s.1.toNat ++ encode 8 s.2.1.toNat ++ encode 8 s.2.2.toNat := by
  obtain ⟨a, b, c⟩ := s
  have hlen : (encode 8 a.toNat ++ encode 8 b.toNat ++ encode 8 c.toNat).length = BYTES := by
    rw [List.length_append, List.length_append, encode_length, encode_length, encode_length]
    rfl
  dsimp only
  generalize hl : encode 8 a.toNat ++ encode 8 b.toNat ++ encode 8 c.toNat = l at hlen
  have hdigest : digest (a, b, c) = Vector.ofFn fun i => l.getD i default := by
    rw [← hl]
    rfl
  rw [hdigest]
  apply List.ext_getElem
  · rw [hlen, Vector.length_toList]
  · intro i hi hi'
    rw [Vector.getElem_toList, Vector.getElem_ofFn, List.getD_eq_getElem?_getD, List.getElem?_eq_getElem hi', Option.getD_some]

theorem digest_injective {s t : State} (h : digest s = digest t) : s = t := by
  have hlist := (digest_toList s).symm.trans ((congrArg Vector.toList h).trans (digest_toList t))
  have hlt (w : UInt64) : w.toNat < 256 ^ 8 := w.toNat_lt
  have hlen (m n : Nat) : (encode 8 m).length = (encode 8 n).length := by rw [encode_length, encode_length]
  obtain ⟨hab, hc⟩ := List.append_inj' hlist (hlen _ _)
  obtain ⟨ha, hb⟩ := List.append_inj hab (hlen _ _)
  have hword {v w : UInt64} (h : encode 8 v.toNat = encode 8 w.toNat) : v = w :=
    UInt64.toNat_inj.mp (encode_injective (hlt v) (hlt w) h)
  exact Prod.ext (hword ha) (Prod.ext (hword hb) (hword hc))

theorem length_padded (data : Bytes) : (data ++ padding data.length).length % BLOCK_SIZE = 0 := by
  rw [padding, blockSize_eq]
  simp only [List.length_append, List.length_cons, List.length_replicate, encode_length]
  omega

/-- The last block ends with the number of bits. -/
theorem blocks_last (data : Bytes) :
    ∃ front b, blocks data = front ++ [b] ∧ b.drop 56 = encode 8 (data.length * 8 % 2 ^ 64) := by
  have hmod := length_padded data
  generalize hP : data ++ padding data.length = P at hmod
  have hlong : BLOCK_SIZE ≤ P.length := by
    apply Nat.le_of_dvd _ (Nat.dvd_of_mod_eq_zero hmod)
    rw [← hP, padding, List.length_append]
    simp
  have hfront : (P.take (P.length - BLOCK_SIZE)).length = P.length - BLOCK_SIZE := by
    rw [List.length_take]
    omega
  have hdvd : BLOCK_SIZE ∣ (P.take (P.length - BLOCK_SIZE)).length := by
    rw [hfront]
    exact Nat.dvd_sub (Nat.dvd_of_mod_eq_zero hmod) (dvd_refl _)
  have hlast : (P.drop (P.length - BLOCK_SIZE)).length = BLOCK_SIZE := by
    rw [List.length_drop]
    omega
  refine ⟨Chunks.chunks BLOCK_SIZE (P.take (P.length - BLOCK_SIZE)), P.drop (P.length - BLOCK_SIZE), ?_, ?_⟩
  · rw [blocks, hP]
    conv_lhs => rw [← List.take_append_drop (P.length - BLOCK_SIZE) P]
    have hone : Chunks.chunks BLOCK_SIZE (P.drop (P.length - BLOCK_SIZE)) = [P.drop (P.length - BLOCK_SIZE)] :=
      Chunks.chunks_of_le (List.ne_nil_of_length_pos (by rw [hlast]; decide)) hlast.le
    rw [Chunks.chunks_append hdvd, hone]
  · have hsplit : P = (data ++ byte '\x01' :: List.replicate ((119 - data.length % 64) % 64) (byte '\x00')) ++
        encode 8 (data.length * 8 % 2 ^ 64) := by
      rw [← hP, padding, List.append_assoc]
    have hlen := congrArg List.length hsplit
    rw [List.length_append, encode_length] at hlen
    have hcut : P.length - BLOCK_SIZE + 56 =
        (data ++ byte '\x01' :: List.replicate ((119 - data.length % 64) % 64) (byte '\x00')).length := by
      rw [blockSize_eq] at hlong ⊢
      omega
    rw [List.drop_drop, hcut]
    conv_lhs => rw [hsplit]
    rw [List.drop_left]

/-- Of two different messages with the same hash, two calls of the compression collide. -/
theorem collide_of_tiger_eq {x y : Bytes} (hx : x.length < 2 ^ 61) (hy : y.length < 2 ^ 61) (h : tiger x = tiger y)
    (hne : x ≠ y) : Collide tigerCompress (compressions x) (compressions y) := by
  have hfold := digest_injective h
  by_cases hlen : x.length = y.length
  · apply collide_of_length _ hfold
    · rintro ⟨-, hblocks⟩
      have hflat := congrArg List.flatten hblocks
      rw [blocks, blocks, Chunks.chunks_flatten (by decide), Chunks.chunks_flatten (by decide), hlen] at hflat
      exact hne (List.append_cancel_right hflat)
    · rw [blocks, blocks, Chunks.chunks_length (by decide), Chunks.chunks_length (by decide), List.length_append,
        List.length_append, hlen]
  · obtain ⟨front, b, hb, hbits⟩ := blocks_last x
    obtain ⟨front', c, hc, hbits'⟩ := blocks_last y
    rw [hb, hc] at hfold
    rw [compressions, compressions, hb, hc]
    apply collide_of_last hfold
    rintro rfl
    have hsame := encode_injective (by omega) (by omega) (hbits.symm.trans hbits')
    omega

end Digest

section Root

variable {BYTES : Nat} (H : Hasher BYTES)

/-- Where the data is split below its root. -/
def cut (data : Bytes) : Nat := baseBlockSize * 2 ^ Nat.log2 ((data.length - 1) / baseBlockSize)

theorem cut_pos (data : Bytes) : 0 < cut data := Nat.mul_pos (by decide) (Nat.two_pow_pos _)

theorem cut_lt {data : Bytes} (h : ¬data.length ≤ baseBlockSize) : cut data < data.length := by
  have hq : (data.length - 1) / baseBlockSize ≠ 0 := Nat.div_ne_zero_iff.mpr ⟨by decide, by omega⟩
  have hle := Nat.mul_le_mul_left baseBlockSize (Nat.log2_self_le hq)
  have hdiv := Nat.mul_div_le (data.length - 1) baseBlockSize
  rw [cut]
  omega

/-- What is hashed on the way to the root of some data. -/
def hashedFor (data : Bytes) : List Bytes :=
  if data.length ≤ baseBlockSize then [byte '\x00' :: data]
  else
    (byte '\x01' :: ((tigerRoot H.tree (data.take (cut data))).toList ++ (tigerRoot H.tree (data.drop (cut data))).toList)) ::
      (hashedFor (data.take (cut data)) ++ hashedFor (data.drop (cut data)))
termination_by data.length
decreasing_by
  · have := cut_lt ‹¬data.length ≤ baseBlockSize›
    rw [List.length_take]
    omega
  · have := cut_pos data
    rw [List.length_drop]
    omega

theorem tigerRoot_of_gt {data : Bytes} (h : ¬data.length ≤ baseBlockSize) : tigerRoot H.tree data =
    H.tree.combine (tigerRoot H.tree (data.take (cut data))) (tigerRoot H.tree (data.drop (cut data))) := by
  rw [tigerRoot, if_neg h]
  rfl

theorem hashedFor_of_le {data : Bytes} (h : data.length ≤ baseBlockSize) : hashedFor H data = [byte '\x00' :: data] := by
  rw [hashedFor, if_pos h]

theorem length_hashedFor {data p : Bytes} (h : p ∈ hashedFor H data) : p.length ≤ 2 * BYTES + baseBlockSize + 1 := by
  induction data using hashedFor.induct with
  | case1 data hle =>
    rw [hashedFor_of_le H hle] at h
    obtain rfl := List.mem_singleton.mp h
    rw [List.length_cons]
    omega
  | case2 data hgt ihleft ihright =>
    rw [hashedFor, if_neg hgt] at h
    obtain rfl | h := List.mem_cons.mp h
    · simp only [List.length_cons, List.length_append, Vector.length_toList]
      omega
    · obtain h | h := List.mem_append.mp h
      · exact ihleft h
      · exact ihright h

/-- Files with the same root are the same, or two different strings that are hashed for their roots have the same hash. -/
theorem eq_or_collide {x y : Bytes} (h : tigerRoot H.tree x = tigerRoot H.tree y) :
    x = y ∨ ∃ p ∈ hashedFor H x, ∃ q ∈ hashedFor H y, p ≠ q ∧ H p = H q := by
  induction x using hashedFor.induct generalizing y with
  | case1 x hx =>
    rw [tigerRoot_of_le H.tree hx] at h
    rw [hashedFor_of_le H hx]
    by_cases hy : y.length ≤ baseBlockSize
    · rw [tigerRoot_of_le H.tree hy] at h
      rw [hashedFor_of_le H hy]
      by_cases hxy : x = y
      · exact Or.inl hxy
      · exact Or.inr ⟨_, List.mem_cons_self, _, List.mem_cons_self, fun heq => hxy (List.cons.inj heq).2, h⟩
    · rw [tigerRoot_of_gt H hy] at h
      refine Or.inr ⟨_, List.mem_cons_self, _, ?_, ?_, h⟩
      · rw [hashedFor, if_neg hy]
        exact List.mem_cons_self
      · exact fun heq => absurd (List.cons.inj heq).1 (by decide)
  | case2 x hx ihleft ihright =>
    rw [tigerRoot_of_gt H hx] at h
    rw [hashedFor, if_neg hx]
    by_cases hy : y.length ≤ baseBlockSize
    · rw [tigerRoot_of_le H.tree hy] at h
      rw [hashedFor_of_le H hy]
      exact Or.inr ⟨_, List.mem_cons_self, _, List.mem_cons_self, fun heq => absurd (List.cons.inj heq).1 (by decide), h⟩
    · rw [tigerRoot_of_gt H hy] at h
      rw [hashedFor.eq_def H y, if_neg hy]
      -- the values below the two roots are the same, or the roots themselves collide
      by_cases hsame : tigerRoot H.tree (x.take (cut x)) = tigerRoot H.tree (y.take (cut y)) ∧
          tigerRoot H.tree (x.drop (cut x)) = tigerRoot H.tree (y.drop (cut y))
      · obtain hleft | ⟨p, hp, q, hq, hpq⟩ := ihleft hsame.1
        · obtain hright | ⟨p, hp, q, hq, hpq⟩ := ihright hsame.2
          · left
            rw [← List.take_append_drop (cut x) x, hleft, hright, List.take_append_drop]
          · exact Or.inr ⟨p, List.mem_cons_of_mem _ (List.mem_append_right _ hp), q,
              List.mem_cons_of_mem _ (List.mem_append_right _ hq), hpq⟩
        · exact Or.inr ⟨p, List.mem_cons_of_mem _ (List.mem_append_left _ hp), q,
            List.mem_cons_of_mem _ (List.mem_append_left _ hq), hpq⟩
      · refine Or.inr ⟨_, List.mem_cons_self, _, List.mem_cons_self, fun heq => hsame ?_, h⟩
        have hlen {a b : HashValue BYTES} : a.toList.length = b.toList.length := by
          rw [Vector.length_toList, Vector.length_toList]
        obtain ⟨hleft, hright⟩ := List.append_inj (List.cons.inj heq).2 hlen
        exact ⟨Vector.toList_inj.mp hleft, Vector.toList_inj.mp hright⟩

end Root

/-- Two trees that are built from the pieces of files have the same root only where the files are the same, or where two
different calls of the compression, made to hash them, have the same result. -/
theorem root_collision {k k' : Nat} {calls calls' : List Bytes} (ha : Aligned calls) (hs : StartsWithData calls)
    (hi : IndexFits k calls.flatten) (ha' : Aligned calls') (hs' : StartsWithData calls')
    (hi' : IndexFits k' calls'.flatten) {t t' : MerkleTree (HashValue BYTES)}
    (ht : MerkleTree.finalize tiger.tree (updates tiger.tree (ofBlockSize (baseBlockSize * 2 ^ k)) calls) = some t)
    (ht' : MerkleTree.finalize tiger.tree (updates tiger.tree (ofBlockSize (baseBlockSize * 2 ^ k')) calls') = some t')
    (h : t.root = t'.root) :
    calls.flatten = calls'.flatten ∨ ∃ p ∈ hashedFor tiger calls.flatten, ∃ q ∈ hashedFor tiger calls'.flatten,
      Collide tigerCompress (compressions p) (compressions q) := by
  obtain ⟨u, hu, -, -, hroot, -⟩ := correct_of_fits (H := tiger) ha hs hi
  obtain ⟨u', hu', -, -, hroot', -⟩ := correct_of_fits (H := tiger) ha' hs' hi'
  obtain rfl := Option.some.inj (hu.symm.trans ht)
  obtain rfl := Option.some.inj (hu'.symm.trans ht')
  obtain heq | ⟨p, hp, q, hq, hne, hpq⟩ := eq_or_collide tiger (hroot.symm.trans (h.trans hroot'))
  · exact Or.inl heq
  · have hlt {r data : Bytes} (hr : r ∈ hashedFor tiger data) : r.length < 2 ^ 61 :=
      (length_hashedFor tiger hr).trans_lt (by decide)
    exact Or.inr ⟨p, hp, q, hq, collide_of_tiger_eq (hlt hp) (hlt hq) hpq hne⟩

/-- One file with blocks of two sizes. -/
theorem root_collision_blocks : ∃ t t' : MerkleTree (HashValue BYTES),
    MerkleTree.finalize tiger.tree (updates tiger.tree (ofBlockSize (baseBlockSize * 2 ^ 0)) [str "abc"]) = some t ∧
    MerkleTree.finalize tiger.tree (updates tiger.tree (ofBlockSize (baseBlockSize * 2 ^ 1)) [str "abc"]) = some t' ∧
    ([str "abc"].flatten = [str "abc"].flatten ∨ ∃ p ∈ hashedFor tiger [str "abc"].flatten,
      ∃ q ∈ hashedFor tiger [str "abc"].flatten, Collide tigerCompress (compressions p) (compressions q)) := by
  have ha : Aligned [str "abc"] := fun c hc => absurd hc List.not_mem_nil
  have hs : StartsWithData [str "abc"] := fun h => absurd h (by decide)
  have hi : ∀ k, IndexFits k [str "abc"].flatten := by
    intro k i hi
    have hone : calcBlocks [str "abc"].flatten.length (baseBlockSize * 2 ^ k) = 1 :=
      calcBlocks_of_le (Nat.mul_pos (by decide) (Nat.two_pow_pos k))
        (Nat.le_mul_of_pos_right 1024 (Nat.two_pow_pos k) |>.trans' (by decide))
    rw [hone] at hi
    obtain rfl := Nat.lt_one_iff.mp hi
    rfl
  obtain ⟨t, ht, -, -, hroot, -⟩ := correct_of_fits (H := tiger) (k := 0) ha hs (hi 0)
  obtain ⟨t', ht', -, -, hroot', -⟩ := correct_of_fits (H := tiger) (k := 1) ha hs (hi 1)
  exact ⟨t, t', ht, ht', root_collision ha hs (hi 0) ha hs (hi 1) ht ht' (hroot.trans hroot'.symm)⟩

end Dcpp.TigerHash
