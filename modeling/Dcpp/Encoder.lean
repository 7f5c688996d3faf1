import Mathlib.Tactic.IntervalCases
import Mathlib.Tactic.Common
import Dcpp.Bytes

namespace Dcpp.Encoder

def base32Alphabet : Bytes := str "ABCDEFGHIJKLMNOPQRSTUVWXYZ234567"

/-- The table that `fromBase32` looks in, with none for -1. -/
def base32Table : List (Option UInt8) :=
  let letters : List (Option UInt8) := (List.range 26).map fun n => some (UInt8.ofNat n)
  List.replicate 50 none ++ [some 26, some 27, some 28, some 29, some 30, some 31] ++ List.replicate 9 none ++
    letters ++ List.replicate 6 none ++ letters ++ List.replicate 133 none

/-- `toBase32` from a byte on, of which `index` bits have been written. One word that ends within the
byte may come before the one that spans its end. -/
def toBase32Loop : Nat → Bytes → Bytes
  | _, [] => []
  | index, c :: rest =>
    let span (index : Nat) : Bytes :=
      let index' := (index + 5) % 8
      let word := (c &&& (0xff >>> index.toUInt8)) <<< index'.toUInt8
      let word :=
        match rest with
        | [] => word
        | next :: _ => word ||| (next >>> (8 - index').toUInt8)
      base32Alphabet.getD word.toNat 0 :: toBase32Loop index' rest
    if index > 3 then span index
    else
      let word := (c >>> (8 - (index + 5)).toUInt8) &&& 0x1f
      base32Alphabet.getD word.toNat 0 ::
        if (index + 5) % 8 = 0 then toBase32Loop 0 rest else span ((index + 5) % 8)

def toBase32 (src : Bytes) : Bytes := toBase32Loop 0 src

/-- `fromBase32` from a byte of `dst` on, which is `cur` so far and has `left` bytes after it. -/
def fromBase32Loop (index : Nat) (cur : UInt8) (left : Nat) : Bytes → Bytes
  | [] => cur :: List.replicate left 0
  | c :: src =>
    if c = 0 then cur :: List.replicate left 0
    else
      match base32Table.getD c.toNat none with
      | none => fromBase32Loop index cur left src
      | some tmp =>
        let index' := (index + 5) % 8
        if index ≤ 3 then
          if index' = 0 then
            (cur ||| tmp) ::
              match left with
              | 0 => []
              | left + 1 => fromBase32Loop 0 0 left src
          else fromBase32Loop index' (cur ||| tmp <<< (8 - index').toUInt8) left src
        else
          (cur ||| tmp >>> index'.toUInt8) ::
            match left with
            | 0 => []
            | left + 1 => fromBase32Loop index' (0 ||| tmp <<< (8 - index').toUInt8) left src

/-- The `len` bytes that `src` stands for. -/
def fromBase32 (src : Bytes) : Nat → Bytes
  | 0 => []
  | left + 1 => fromBase32Loop 0 0 left src

theorem length_fromBase32Loop (index : Nat) (cur : UInt8) (left : Nat) (src : Bytes) :
    (fromBase32Loop index cur left src).length = left + 1 := by
  induction src generalizing index cur left with
  | nil => simp [fromBase32Loop]
  | cons c src ih =>
    rw [fromBase32Loop.eq_def]
    dsimp only
    split
    next => simp
    next =>
      split
      next => exact ih index cur left
      next tmp _ =>
        split
        next =>
          split
          next =>
            cases left with
            | zero => rfl
            | succ left => rw [List.length_cons, ih]
          next => exact ih _ _ left
        next =>
          cases left with
          | zero => rfl
          | succ left => rw [List.length_cons, ih]

theorem length_fromBase32 (src : Bytes) (len : Nat) : (fromBase32 src len).length = len := by
  cases len with
  | zero => rfl
  | succ left => exact length_fromBase32Loop 0 0 left src

/-- The first bits of a byte. -/
def high (index : Nat) (c : UInt8) : UInt8 := c &&& ~~~(0xff >>> index.toUInt8)

/-- What is decided for every byte. -/
theorem forall_byte {P : UInt8 → Prop} (h : ∀ n < 256, P (UInt8.ofNat n)) (c : UInt8) : P c := by
  have := h c.toNat c.toNat_lt
  rwa [UInt8.ofNat_toNat] at this

theorem base32Alphabet_eq : base32Alphabet =
    (List.range 26).map (fun n => UInt8.ofNat (65 + n)) ++ (List.range 6).map (fun n => UInt8.ofNat (50 + n)) := by
  rw [base32Alphabet, str_ofList]
  rfl

theorem mem_ofNat_range {start count : Nat} (h : start + count ≤ 256) (c : UInt8) :
    c ∈ (List.range count).map (fun n => UInt8.ofNat (start + n)) ↔ start ≤ c.toNat ∧ c.toNat < start + count := by
  simp only [List.mem_map, List.mem_range]
  constructor
  · rintro ⟨n, hn, rfl⟩
    rw [UInt8.toNat_ofNat_of_lt' (by simp [UInt8.size]; omega)]
    omega
  · rintro ⟨hstart, hlt⟩
    refine ⟨c.toNat - start, by omega, ?_⟩
    rw [Nat.add_sub_cancel' hstart, UInt8.ofNat_toNat]

theorem mem_base32Alphabet (c : UInt8) : c ∈ base32Alphabet ↔
    (65 ≤ c.toNat ∧ c.toNat < 91) ∨ (50 ≤ c.toNat ∧ c.toNat < 56) := by
  rw [base32Alphabet_eq, List.mem_append, mem_ofNat_range (by decide), mem_ofNat_range (by decide)]

theorem getElem?_map_range {α : Type*} (f : Nat → α) (count n : Nat) :
    ((List.range count).map f)[n]? = if n < count then some (f n) else none := by
  split_ifs with h
  · simp [h]
  · simp [Nat.le_of_not_lt h]

/-- What the table has: the letters in either case, and the digits from 2 to 7. -/
theorem base32Table_getD (c : UInt8) : base32Table.getD c.toNat none =
    if 65 ≤ c.toNat ∧ c.toNat < 91 then some (UInt8.ofNat (c.toNat - 65))
    else if 97 ≤ c.toNat ∧ c.toNat < 123 then some (UInt8.ofNat (c.toNat - 97))
    else if 50 ≤ c.toNat ∧ c.toNat < 56 then some (UInt8.ofNat (c.toNat - 24))
    else none := by
  have hdigits : ([some 26, some 27, some 28, some 29, some 30, some 31] : List (Option UInt8)) =
      (List.range 6).map fun n => some (UInt8.ofNat (26 + n)) := rfl
  rw [base32Table, hdigits]
  generalize c.toNat = n
  simp only [List.getD_eq_getElem?_getD, List.getElem?_append, List.getElem?_replicate, getElem?_map_range,
    List.length_append, List.length_replicate, List.length_map, List.length_range]
  split_ifs <;> first | rfl | omega | skip
  -- a digit
  rw [show n - 24 = 26 + (n - 50) by omega]
  rfl

theorem high_zero (c : UInt8) : high 0 c = 0 := by
  rw [high]
  exact UInt8.and_zero

/-- A word of five bits is found again in the table. -/
theorem table_alphabet {w : UInt8} (hw : w &&& 0x1f = w) :
    base32Alphabet.getD w.toNat 0 ≠ 0 ∧ base32Table.getD (base32Alphabet.getD w.toNat 0).toNat none = some w := by
  have hlt : w.toNat < 32 := by
    rw [← hw, UInt8.toNat_and]
    exact Nat.lt_of_le_of_lt Nat.and_le_right (by decide)
  have hchar : (base32Alphabet.getD w.toNat 0).toNat = if w.toNat < 26 then 65 + w.toNat else 24 + w.toNat := by
    have hdigit : w.toNat - 26 < 6 := by omega
    rw [base32Alphabet_eq, List.getD_eq_getElem?_getD, List.getElem?_append, getElem?_map_range, getElem?_map_range,
      List.length_map, List.length_range, if_pos hdigit]
    split_ifs with hletter
    · exact UInt8.toNat_ofNat_of_lt' (by simp [UInt8.size]; omega)
    · rw [show 24 + w.toNat = 50 + (w.toNat - 26) by omega]
      exact UInt8.toNat_ofNat_of_lt' (by simp [UInt8.size]; omega)
  rw [base32Table_getD, Ne, ← UInt8.toNat_inj, UInt8.toNat_zero, hchar]
  by_cases hletter : w.toNat < 26
  · rw [if_pos hletter, if_pos (by omega), Nat.add_sub_cancel_left, UInt8.ofNat_toNat]
    exact ⟨by omega, rfl⟩
  · rw [if_neg hletter, if_neg (by omega), if_neg (by omega), if_pos (by omega), Nat.add_sub_cancel_left,
      UInt8.ofNat_toNat]
    exact ⟨by omega, rfl⟩

theorem toNat_shift {n : Nat} (h : n < 8) : n.toUInt8.toNat % 8 = n := by
  rw [show n.toUInt8.toNat = n from UInt8.toNat_ofNat_of_lt' (by simp [UInt8.size]; omega)]
  exact Nat.mod_eq_of_lt h

theorem and_two_pow_mul {c k n : Nat} (hc : c < 2 ^ (k + n)) : c &&& 2 ^ k * (2 ^ n - 1) = 2 ^ k * (c / 2 ^ k) := by
  apply Nat.eq_of_testBit_eq
  intro i
  rw [Nat.testBit_and, Nat.testBit_two_pow_mul, Nat.testBit_two_pow_mul, Nat.testBit_two_pow_sub_one,
    Nat.testBit_div_two_pow]
  by_cases hi : k ≤ i
  · rw [Nat.sub_add_cancel hi]
    by_cases hin : i - k < n
    · simp [hi, hin]
    · have hzero : c.testBit i = false :=
        Nat.testBit_lt_two_pow (Nat.lt_of_lt_of_le hc (Nat.pow_le_pow_right (by decide) (by omega)))
      simp [hzero]
  · simp [hi]

/-- The first bits of a byte are what is left by a shift to the right and back. -/
theorem high_toNat {index : Nat} (h : index < 8) (c : UInt8) :
    (high index c).toNat = 2 ^ (8 - index) * (c.toNat / 2 ^ (8 - index)) := by
  have hmask : 255 - 255 >>> index = 2 ^ (8 - index) * (2 ^ index - 1) := by
    interval_cases index <;> rfl
  have hc : c.toNat < 2 ^ (8 - index + index) := by
    rw [Nat.sub_add_cancel h.le]
    exact c.toNat_lt
  rw [← and_two_pow_mul hc, ← hmask, high, UInt8.toNat_and, UInt8.toNat_not, UInt8.toNat_shiftRight, toNat_shift h]
  rfl

theorem or_eq_add {k b : Nat} (h : b < 2 ^ k) (a : Nat) : 2 ^ k * a ||| b = 2 ^ k * a + b :=
  (Nat.two_pow_add_eq_or_of_lt h a).symm

/-- A word that ends within its byte adds its bits to those before. -/
theorem word_inside {index : Nat} (hindex : index < 3) (c : UInt8) :
    let word := (c >>> (8 - (index + 5)).toUInt8) &&& 0x1f
    word &&& 0x1f = word ∧ high index c ||| word <<< (8 - (index + 5)).toUInt8 = high (index + 5) c := by
  have hrest : 8 - (index + 5) < 8 := by omega
  simp only [← UInt8.toNat_inj, UInt8.toNat_and, UInt8.toNat_or, UInt8.toNat_shiftLeft, UInt8.toNat_shiftRight,
    toNat_shift hrest, high_toNat (by omega : index < 8), high_toNat (by omega : index + 5 < 8)]
  rw [show UInt8.toNat 0x1f = 2 ^ 5 - 1 from rfl, Nat.and_two_pow_sub_one_eq_mod,
    Nat.and_two_pow_sub_one_eq_mod, Nat.shiftRight_eq_div_pow, Nat.shiftLeft_eq]
  refine ⟨Nat.mod_mod _ _, ?_⟩
  rw [or_eq_add]
  · interval_cases index <;> omega
  · interval_cases index <;> omega

theorem or_and_distrib (a b m : UInt8) : (a ||| b) &&& m = (a &&& m) ||| (b &&& m) := by
  apply UInt8.eq_of_toBitVec_eq
  ext i
  simp [Bool.and_or_distrib_right]

/-- A word that ends with its byte. -/
theorem word_end (c : UInt8) :
    let word := (c >>> (8 - (3 + 5)).toUInt8) &&& 0x1f
    word &&& 0x1f = word ∧ high 3 c ||| word = c := by
  intro word
  have hword : word = 0x1f &&& c := by
    rw [UInt8.and_comm]
    exact congrArg (· &&& 0x1f) UInt8.shiftRight_zero
  have hhigh : high 3 c = 0xe0 &&& c := UInt8.and_comm c 0xe0
  rw [hword, hhigh]
  constructor
  · rw [UInt8.and_comm, ← UInt8.and_assoc]
    rfl
  · rw [← or_and_distrib]
    exact UInt8.neg_one_and

/-- The first part of a word that spans the end of its byte, and the part that comes from the next one. -/
theorem word_parts {index : Nat} (hindex : 3 < index ∧ index < 8) (c : UInt8) :
    let index' := (index + 5) % 8
    let first := (c &&& (0xff >>> index.toUInt8)) <<< index'.toUInt8
    let second := c >>> (8 - index').toUInt8
    (first &&& 0x1f = first ∧ high index c ||| first >>> index'.toUInt8 = c ∧ first <<< (8 - index').toUInt8 = 0) ∧
      second &&& 0x1f = second ∧ second >>> index'.toUInt8 = 0 ∧ second <<< (8 - index').toUInt8 = high index' c := by
  have hindex' : (index + 5) % 8 < 8 := Nat.mod_lt _ (by decide)
  have hrest : 8 - (index + 5) % 8 < 8 := by omega
  have hc := c.toNat_lt
  have hlow : UInt8.toNat 0xff >>> index = 2 ^ (8 - index) - 1 := by
    obtain ⟨-, hlt⟩ := hindex
    interval_cases index <;> rfl
  simp only [← UInt8.toNat_inj, UInt8.toNat_and, UInt8.toNat_or, UInt8.toNat_shiftLeft, UInt8.toNat_shiftRight,
    toNat_shift hindex.2, toNat_shift hindex', toNat_shift hrest, high_toNat hindex.2, high_toNat hindex', hlow]
  rw [show UInt8.toNat 0x1f = 2 ^ 5 - 1 from rfl, UInt8.toNat_zero]
  simp only [Nat.and_two_pow_sub_one_eq_mod, Nat.shiftRight_eq_div_pow, Nat.shiftLeft_eq]
  rw [or_eq_add]
  · obtain ⟨hgt, hlt⟩ := hindex
    interval_cases index <;> simp only [Nat.reduceAdd, Nat.reduceMod, Nat.reduceSub, Nat.reducePow] <;> omega
  · obtain ⟨hgt, hlt⟩ := hindex
    interval_cases index <;> simp only [Nat.reduceAdd, Nat.reduceMod, Nat.reduceSub, Nat.reducePow] <;> omega

/-- A character of the alphabet is read as its word. -/
theorem fromBase32Loop_word {w : UInt8} (hw : w &&& 0x1f = w) (index : Nat) (cur : UInt8) (left : Nat) (src : Bytes) :
    fromBase32Loop index cur left (base32Alphabet.getD w.toNat 0 :: src) =
      if index ≤ 3 then
        if (index + 5) % 8 = 0 then
          (cur ||| w) ::
            match left with
            | 0 => []
            | left + 1 => fromBase32Loop 0 0 left src
        else fromBase32Loop ((index + 5) % 8) (cur ||| w <<< (8 - (index + 5) % 8).toUInt8) left src
      else
        (cur ||| w >>> ((index + 5) % 8).toUInt8) ::
          match left with
          | 0 => []
          | left + 1 =>
            fromBase32Loop ((index + 5) % 8) (0 ||| w <<< (8 - (index + 5) % 8).toUInt8) left src := by
  obtain ⟨hne, htable⟩ := table_alphabet hw
  rw [fromBase32Loop.eq_def]
  dsimp only
  rw [if_neg hne, htable]

/-- From `index` bits of the first byte on, what is written is read back. -/
def Continues (index : Nat) (c : UInt8) (rest : Bytes) : Prop :=
  fromBase32Loop index (high index c) rest.length (toBase32Loop index (c :: rest)) = c :: rest

/-- Across the end of a byte. -/
theorem continues_span {index : Nat} (hindex : 3 < index ∧ index < 8) (c : UInt8) {rest : Bytes}
    (h : ∀ next rest', rest = next :: rest' → Continues ((index + 5) % 8) next rest') : Continues index c rest := by
  obtain ⟨⟨hfirst, hbyte, hover⟩, _⟩ := word_parts hindex c
  rw [Continues, toBase32Loop.eq_def]
  dsimp only
  rw [if_pos hindex.1]
  cases rest with
  | nil =>
    rw [fromBase32Loop_word hfirst, if_neg (by omega), hbyte]
    rfl
  | cons next rest =>
    obtain ⟨_, hsecond, hunder, hnext⟩ := word_parts hindex next
    dsimp only
    rw [fromBase32Loop_word (by rw [or_and_distrib, hfirst, hsecond]), if_neg (by omega),
      UInt8.shiftRight_or, hunder, UInt8.or_zero, hbyte, UInt8.shiftLeft_or, hover, hnext, UInt8.zero_or, UInt8.zero_or]
    exact congrArg (c :: ·) (h next rest rfl)

/-- From anywhere in a byte. -/
theorem continues_of_rest {c : UInt8} {rest : Bytes}
    (h : ∀ next rest', rest = next :: rest' → ∀ index < 8, Continues index next rest') {index : Nat}
    (hindex : index < 8) : Continues index c rest := by
  have hmod (index : Nat) : (index + 5) % 8 < 8 := Nat.mod_lt _ (by decide)
  by_cases hspan : 3 < index
  · exact continues_span ⟨hspan, hindex⟩ c fun next rest' hrest => h next rest' hrest _ (hmod index)
  · by_cases hend : index = 3
    · subst hend
      obtain ⟨hword, hbyte⟩ := word_end c
      rw [Continues, toBase32Loop.eq_def]
      dsimp only
      rw [if_neg hspan, if_pos (by decide), fromBase32Loop_word hword, if_pos (by decide), if_pos (by decide), hbyte]
      cases rest with
      | nil => rfl
      | cons next rest =>
        have hnext := h next rest rfl 0 (by decide)
        rw [Continues, high_zero] at hnext
        exact congrArg (c :: ·) hnext
    · -- the word ends within the byte, and the next one spans its end
      have hindex' : index < 3 := by omega
      obtain ⟨hword, hbits⟩ := word_inside hindex' c
      have hlate : 3 < index + 5 ∧ index + 5 < 8 := by omega
      have hspan' := continues_span hlate c fun next rest' hrest => h next rest' hrest _ (hmod _)
      rw [Continues, toBase32Loop.eq_def] at hspan' ⊢
      dsimp only at hspan' ⊢
      rw [if_pos (by omega)] at hspan'
      rw [if_neg hspan, if_neg (by omega), fromBase32Loop_word hword, if_pos (by omega), if_neg (by omega),
        Nat.mod_eq_of_lt (by omega), hbits]
      exact hspan'

theorem continues_all (rest : Bytes) : ∀ c, ∀ index < 8, Continues index c rest := by
  induction rest with
  | nil => exact fun c index hindex => continues_of_rest (fun _ _ h => (by cases h)) hindex
  | cons next rest ih =>
    intro c index hindex
    refine continues_of_rest (fun next' rest' h index hindex => ?_) hindex
    obtain ⟨rfl, rfl⟩ := List.cons.inj h
    exact ih next index hindex

/-- What is written in base 32 is read back. -/
theorem fromBase32_toBase32 (src : Bytes) : fromBase32 (toBase32 src) src.length = src := by
  cases src with
  | nil => rfl
  | cons c rest =>
    have h := continues_all rest c 0 (by decide)
    rw [Continues, high_zero] at h
    exact h

/-- Every character is looked up in the alphabet. -/
theorem mem_toBase32Loop (src : Bytes) :
    ∀ index, ∀ c ∈ toBase32Loop index src, ∃ w : UInt8, c = base32Alphabet.getD w.toNat 0 := by
  induction src with
  | nil => exact fun _ c hc => (by cases hc)
  | cons c rest ih =>
    intro index
    rw [toBase32Loop.eq_def]
    dsimp only
    split
    next => exact List.forall_mem_cons.mpr ⟨⟨_, rfl⟩, ih _⟩
    next =>
      split
      next => exact List.forall_mem_cons.mpr ⟨⟨_, rfl⟩, ih 0⟩
      next => exact List.forall_mem_cons.mpr ⟨⟨_, rfl⟩, List.forall_mem_cons.mpr ⟨⟨_, rfl⟩, ih _⟩⟩

/-- What is written in base 32 is ASCII, without the separators of the protocols. -/
theorem toBase32_plain (src : Bytes) : ∀ c ∈ toBase32 src, c < 128 ∧ c ∉ 5 :: str " \n\\" := by
  intro c hc
  obtain ⟨w, rfl⟩ := mem_toBase32Loop src 0 c hc
  have hrange : base32Alphabet.getD w.toNat 0 = 0 ∨ base32Alphabet.getD w.toNat 0 ∈ base32Alphabet := by
    rw [List.getD_eq_getElem?_getD]
    cases hget : base32Alphabet[w.toNat]? with
    | none => exact Or.inl rfl
    | some c => exact Or.inr (List.mem_of_getElem? hget)
  generalize base32Alphabet.getD w.toNat 0 = c at hrange
  obtain rfl | hmem := hrange
  · decide
  · rw [mem_base32Alphabet] at hmem
    have hlt : c.toNat < 128 := by omega
    refine ⟨hlt, fun hin => ?_⟩
    have hcodes : c.toNat ∈ [5, 32, 10, 92] := List.mem_map_of_mem (f := UInt8.toNat) hin
    simp only [List.mem_cons, List.not_mem_nil, or_false] at hcodes
    omega

def BYTES : Nat := 24

/-- The hashes of files and the ids of users. -/
structure HashValue where
  data : Bytes
  size : data.length = BYTES
deriving DecidableEq

def HashValue.toBase32 (h : HashValue) : Bytes := Encoder.toBase32 h.data

def HashValue.ofBase32 (base32 : Bytes) : HashValue := ⟨fromBase32 base32 BYTES, length_fromBase32 base32 BYTES⟩

theorem ofBase32_toBase32 (h : HashValue) : HashValue.ofBase32 h.toBase32 = h := by
  obtain ⟨data, hsize⟩ := h
  rw [HashValue.mk.injEq]
  change fromBase32 (toBase32 data) BYTES = data
  rw [← hsize]
  exact fromBase32_toBase32 data

end Dcpp.Encoder
