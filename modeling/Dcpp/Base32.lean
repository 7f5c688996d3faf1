import Dcpp.Encoder

-- What `fromBase32` writes in its buffer.
namespace Dcpp.Encoder

/-- `dst[offset] |= b`, which is undefined outside of the buffer. -/
def orAt (dst : Bytes) (offset : Nat) (b : UInt8) : Option Bytes :=
  if offset < dst.length then some (dst.modify offset (· ||| b)) else none

/-- The loop of `fromBase32`; `dst` has `len` bytes. -/
def decodeLoop (len index offset : Nat) (dst : Bytes) : Bytes → Option Bytes
  | [] => some dst
  | c :: src =>
    if c = 0 then some dst
    else
      match base32Table.getD c.toNat none with
      | none => decodeLoop len index offset dst src
      | some tmp =>
        let index' := (index + 5) % 8
        if index ≤ 3 then
          if index' = 0 then
            (orAt dst offset tmp).bind fun dst =>
              if offset + 1 = len then some dst else decodeLoop len index' (offset + 1) dst src
          else
            (orAt dst offset (tmp <<< (8 - index').toUInt8)).bind fun dst => decodeLoop len index' offset dst src
        else
          (orAt dst offset (tmp >>> index'.toUInt8)).bind fun dst =>
            if offset + 1 = len then some dst
            else
              (orAt dst (offset + 1) (tmp <<< (8 - index').toUInt8)).bind fun dst =>
                decodeLoop len index' (offset + 1) dst src

/-- `fromBase32` into a buffer of `len` bytes. -/
def fromBase32Into (src : Bytes) (len : Nat) : Option Bytes := decodeLoop len 0 0 (List.replicate len 0) src

/-- The upper case of an ASCII letter. -/
def upper (c : UInt8) : UInt8 := if byte 'a' ≤ c ∧ c ≤ byte 'z' then c - 0x20 else c

/-- The characters of the alphabet in a string, in upper case. -/
def word (src : Bytes) : Bytes := ((src.takeWhile (· ≠ 0)).map upper).filter (· ∈ base32Alphabet)

theorem orAt_append (done : Bytes) (cur b : UInt8) (rest : Bytes) :
    orAt (done ++ cur :: rest) done.length b = some (done ++ (cur ||| b) :: rest) := by
  rw [orAt, if_pos (by simp)]
  rw [List.modify_eq_take_cons_drop (by simp)]
  simp

/-- Up to the byte that is written, the buffer is done, and behind it there is nothing yet. -/
theorem decodeLoop_eq (done : Bytes) (index : Nat) (cur : UInt8) (left : Nat) (src : Bytes) :
    decodeLoop (done.length + left + 1) index done.length (done ++ cur :: List.replicate left 0) src =
      some (done ++ fromBase32Loop index cur left src) := by
  induction src generalizing done index cur left with
  | nil => rfl
  | cons c src ih =>
    rw [decodeLoop.eq_def, fromBase32Loop.eq_def]
    dsimp only
    by_cases hc : c = 0
    · rw [if_pos hc, if_pos hc]
    · rw [if_neg hc, if_neg hc]
      cases base32Table.getD c.toNat none with
      | none => exact ih done index cur left
      | some tmp =>
        dsimp only
        have hfinal : done.length + 0 + 1 = done.length + 1 := rfl
        have hmore (left : Nat) : ¬done.length + 1 = done.length + (left + 1) + 1 := by omega
        have hnext (b : UInt8) (index : Nat) (cur : UInt8) (left : Nat) :
            decodeLoop (done.length + (left + 1) + 1) index (done.length + 1)
                (done ++ b :: cur :: List.replicate left 0) src =
              some (done ++ b :: fromBase32Loop index cur left src) := by
          have h := ih (done ++ [b]) index cur left
          rw [List.length_append, List.length_singleton] at h
          simpa only [List.append_assoc, List.singleton_append, Nat.add_assoc, Nat.add_comm 1 left] using h
        by_cases hindex : index ≤ 3
        · rw [if_pos hindex, if_pos hindex]
          by_cases hend : (index + 5) % 8 = 0
          · rw [if_pos hend, if_pos hend, orAt_append, Option.bind_some]
            cases left with
            | zero => exact if_pos hfinal.symm
            | succ left =>
              rw [if_neg (hmore left), hend]
              exact hnext _ 0 0 left
          · rw [if_neg hend, if_neg hend, orAt_append, Option.bind_some]
            exact ih done _ _ left
        · rw [if_neg hindex, if_neg hindex, orAt_append, Option.bind_some]
          cases left with
          | zero => exact if_pos hfinal.symm
          | succ left =>
            have h := orAt_append (done ++ [cur ||| tmp >>> ((index + 5) % 8).toUInt8]) 0
              (tmp <<< (8 - (index + 5) % 8).toUInt8) (List.replicate left 0)
            simp only [List.length_append, List.length_singleton, List.append_assoc, List.singleton_append] at h
            rw [if_neg (hmore left), List.replicate_succ, h, Option.bind_some]
            exact hnext _ _ _ left

/-- A buffer that is not empty holds what is written. -/
theorem fromBase32Into_of_pos {len : Nat} (hlen : 0 < len) (src : Bytes) :
    fromBase32Into src len = some (fromBase32 src len) := by
  obtain ⟨left, rfl⟩ := Nat.exists_eq_succ_of_ne_zero (Nat.ne_of_gt hlen)
  have h := decodeLoop_eq [] 0 0 left src
  rw [List.length_nil, Nat.zero_add] at h
  exact h

theorem upper_toNat (c : UInt8) :
    (upper c).toNat = if 97 ≤ c.toNat ∧ c.toNat < 123 then c.toNat - 32 else c.toNat := by
  have hiff : byte 'a' ≤ c ∧ c ≤ byte 'z' ↔ 97 ≤ c.toNat ∧ c.toNat < 123 :=
    and_congr_right' (Nat.lt_succ_iff (m := c.toNat) (n := 122)).symm
  rw [upper]
  by_cases hlower : 97 ≤ c.toNat ∧ c.toNat < 123
  · have hle : (0x20 : UInt8) ≤ c := Nat.le_trans (by decide : 32 ≤ 97) hlower.1
    rw [if_pos (hiff.mpr hlower), if_pos hlower, UInt8.toNat_sub_of_le _ _ hle]
    rfl
  · rw [if_neg (fun h => hlower (hiff.mp h)), if_neg hlower]

/-- The table has what the alphabet has, in either case. -/
theorem table_upper (c : UInt8) : (c ≠ 0 → upper c ≠ 0) ∧ (upper c ∈ base32Alphabet →
      base32Table.getD (upper c).toNat none = base32Table.getD c.toNat none) ∧
    (upper c ∈ base32Alphabet ↔ base32Table.getD c.toNat none ≠ none) := by
  have hnat := upper_toNat c
  have hzero (d : UInt8) : d = 0 ↔ d.toNat = 0 := UInt8.toNat_inj.symm
  rw [mem_base32Alphabet, base32Table_getD, base32Table_getD, Ne, hzero, Ne, hzero]
  by_cases hlower : 97 ≤ c.toNat ∧ c.toNat < 123
  · rw [if_pos hlower] at hnat
    have hupper : 65 ≤ (upper c).toNat ∧ (upper c).toNat < 91 := by omega
    have hnot : ¬(65 ≤ c.toNat ∧ c.toNat < 91) := by omega
    have hsame : (upper c).toNat - 65 = c.toNat - 97 := by omega
    rw [if_pos hupper, if_neg hnot, if_pos hlower, hsame]
    exact ⟨fun _ => by omega, fun _ => rfl, iff_of_true (Or.inl hupper) (Option.some_ne_none _)⟩
  · rw [if_neg hlower] at hnat
    rw [hnat, if_neg hlower]
    refine ⟨id, fun _ => rfl, ?_⟩
    split_ifs with hupper hdigit
    · exact iff_of_true (Or.inl hupper) (Option.some_ne_none _)
    · exact iff_of_true (Or.inr hdigit) (Option.some_ne_none _)
    · exact iff_of_false (not_or.mpr ⟨hupper, hdigit⟩) (fun h => h rfl)

theorem word_zero (src : Bytes) : word (0 :: src) = [] := rfl

theorem word_cons {c : UInt8} (hc : c ≠ 0) (src : Bytes) :
    word (c :: src) = if upper c ∈ base32Alphabet then upper c :: word src else word src := by
  simp [word, hc, List.filter_cons]

/-- Only the characters of the alphabet count. -/
theorem decodeLoop_word (len index offset : Nat) (dst src : Bytes) :
    decodeLoop len index offset dst (word src) = decodeLoop len index offset dst src := by
  induction src generalizing index offset dst with
  | nil => rfl
  | cons c src ih =>
    by_cases hc : c = 0
    · subst hc
      rw [word_zero, decodeLoop, decodeLoop.eq_def len index offset dst (0 :: src)]
      exact (if_pos rfl).symm
    · obtain ⟨hne, hsame, hmem⟩ := table_upper c
      rw [word_cons hc]
      by_cases halphabet : upper c ∈ base32Alphabet
      · rw [if_pos halphabet, decodeLoop.eq_def, decodeLoop.eq_def len index offset dst (c :: src)]
        simp only [ih, hsame halphabet, if_neg (hne hc), if_neg hc]
      · have hnone : base32Table.getD c.toNat none = none := by
          by_contra h
          exact halphabet (hmem.mpr h)
        rw [if_neg halphabet, ih, decodeLoop.eq_def len index offset dst (c :: src)]
        simp only [hnone, if_neg hc]

/-- The first character of the alphabet is written even when there is no byte for it. -/
theorem decodeLoop_empty {c : UInt8} {src : Bytes} (h : c ∈ base32Alphabet) :
    decodeLoop 0 0 0 [] (c :: src) = none := by
  have hmem := (mem_base32Alphabet c).mp h
  have hc : c ≠ 0 := by
    rintro rfl
    exact absurd hmem (by decide)
  have htable : base32Table.getD c.toNat none ≠ none := by
    rw [base32Table_getD]
    split_ifs <;> first | exact Option.some_ne_none _ | omega
  obtain ⟨tmp, htmp⟩ := Option.ne_none_iff_exists'.mp htable
  rw [decodeLoop.eq_def]
  dsimp only
  rw [if_neg hc, htmp]
  simp [orAt]

/-- What is written for `n` bytes has `⌈8n / 5⌉` characters. -/
theorem length_toBase32Loop (src : Bytes) : ∀ index < 8,
    (toBase32Loop index src).length = (8 * src.length - index + 4) / 5 := by
  induction src with
  | nil =>
    intro index _
    simp [toBase32Loop]
  | cons c rest ih =>
    intro index hindex
    have h₀ := ih 0 (by decide)
    have h₁ := ih ((index + 5) % 8) (Nat.mod_lt _ (by decide))
    have h₂ := ih (((index + 5) % 8 + 5) % 8) (Nat.mod_lt _ (by decide))
    rw [toBase32Loop.eq_def]
    dsimp only
    split_ifs <;> simp only [List.length_cons, h₀, h₁, h₂] <;> omega

theorem length_toBase32 (src : Bytes) : (toBase32 src).length = (8 * src.length + 4) / 5 :=
  length_toBase32Loop src 0 (by decide)

/-- What is asked of the decoding of a string into a buffer: it writes inside of the buffer, and the characters of the
alphabet alone decide what. -/
structure Decodes (src : Bytes) (len : Nat) : Prop where
  inside : (fromBase32Into src len).isSome
  depends : ∀ src', word src' = word src → fromBase32Into src' len = fromBase32Into src len

/-- An array is read back from what is written for it, and a string is decoded as it should be exactly when there is a
byte for its first character. -/
theorem base32_iff (array src : Bytes) (len : Nat) : ((toBase32 array).length = (8 * array.length + 4) / 5 ∧
      fromBase32Into (toBase32 array) array.length = some array) ∧
    (Decodes src len ↔ 0 < len ∨ word src = []) := by
  have hword (src : Bytes) (len : Nat) : fromBase32Into (word src) len = fromBase32Into src len :=
    decodeLoop_word len 0 0 _ src
  refine ⟨⟨length_toBase32 array, ?_⟩, fun h => ?_, fun h => ?_⟩
  · cases array with
    | nil => rfl
    | cons c rest =>
      have hpos : 0 < (c :: rest).length := Nat.succ_pos _
      rw [fromBase32Into_of_pos hpos, fromBase32_toBase32]
  · by_contra hno
    rw [not_or, Nat.not_lt, Nat.le_zero] at hno
    obtain ⟨rfl, hne⟩ := hno
    obtain ⟨c, rest, hc⟩ := List.exists_cons_of_ne_nil hne
    have hmem : c ∈ base32Alphabet := by
      have hword : c ∈ word src := by simp [hc]
      exact of_decide_eq_true (List.mem_filter.mp hword).2
    have hnone : fromBase32Into src 0 = none := by
      rw [← hword, hc]
      exact decodeLoop_empty hmem
    have hsome := h.inside
    rw [hnone] at hsome
    cases hsome
  · refine ⟨?_, fun src' hsrc' => by rw [← hword src', hsrc', hword]⟩
    obtain hlen | hnil := h
    · rw [fromBase32Into_of_pos hlen]
      rfl
    · rw [← hword, hnil]
      rfl

/-- The buffer of a password's salt of one character. -/
theorem not_decodes : ¬Decodes (str "A") 0 := by
  intro h
  exact absurd h.inside (by decide)

end Dcpp.Encoder
