import Mathlib.Data.Nat.Init
import Dcpp.Utf8WellFormed

-- Between UTF-8 and strings of `wchar_t`, where that has 32 bits.
namespace Dcpp.Text

/-- A wide string, as the codes of its characters. -/
abbrev Wide := List Nat

def scalarToUtf8 (c : Nat) : Bytes :=
  if c ≥ 0x10000 then
    [UInt8.ofNat (0x80 ||| 0x40 ||| 0x20 ||| 0x10 ||| (c >>> 18)), UInt8.ofNat (0x80 ||| ((c >>> 12) &&& 0x3f)),
      UInt8.ofNat (0x80 ||| ((c >>> 6) &&& 0x3f)), UInt8.ofNat (0x80 ||| (c &&& 0x3f))]
  else if c ≥ 0x0800 then
    [UInt8.ofNat (0x80 ||| 0x40 ||| 0x20 ||| (c >>> 12)), UInt8.ofNat (0x80 ||| ((c >>> 6) &&& 0x3f)),
      UInt8.ofNat (0x80 ||| (c &&& 0x3f))]
  else if c ≥ 0x0080 then [UInt8.ofNat (0x80 ||| 0x40 ||| (c >>> 6)), UInt8.ofNat (0x80 ||| (c &&& 0x3f))]
  else [UInt8.ofNat c]

/-- What is no scalar value is written as the replacement character. -/
def wcToUtf8 (c : Nat) : Bytes :=
  if c > 0x10ffff ∨ (c ≥ 0xd800 ∧ c ≤ 0xdfff) then scalarToUtf8 0xfffd else scalarToUtf8 c

def wideToUtf8 (str : Wide) : Bytes := str.flatMap wcToUtf8

theorem length_drop_character (wcharBits : Nat) {s : Bytes} (hs : s ≠ []) :
    (s.drop (utf8ToWc wcharBits s).1.natAbs).length < s.length := by
  obtain ⟨hpos, hle⟩ := utf8ToWc_length wcharBits hs
  rw [List.length_drop]
  omega

/-- An underscore stands for what is not valid. -/
def utf8ToWide (str : Bytes) : Wide :=
  if _h : str = [] then []
  else
    let r := utf8ToWc 32 str
    if r.1 < 0 then '_'.toNat :: utf8ToWide (str.drop r.1.natAbs)
    else r.2 :: utf8ToWide (str.drop r.1.natAbs)
termination_by str.length
decreasing_by all_goals exact length_drop_character 32 _h

def sanitizeUtf8 (str : Bytes) : Bytes := wideToUtf8 (utf8ToWide str)

/-- The bits of a byte that continues a character. -/
theorem continuation_bits (x : Nat) : UInt8.ofNat (0x80 ||| (x &&& 0x3f)) = Form.tail x := by
  have h : ∀ b < 64, 0x80 ||| b = b + 128 := by decide
  have hmod : x &&& 0x3f = x % 64 := Nat.and_two_pow_sub_one_eq_mod x 6
  rw [Form.tail, hmod, h _ (Nat.mod_lt _ (by decide))]

/-- The encoder writes the shortest form. -/
theorem scalarToUtf8_eq {c : Nat} {f : Form} (hcode : f.code = c) (hshort : ¬f.Overlong) : scalarToUtf8 c = f.bytes := by
  have h₂ : ∀ a < 32, 0x80 ||| 0x40 ||| a = 192 + a := by decide
  have h₃ : ∀ a < 16, 0x80 ||| 0x40 ||| 0x20 ||| a = 224 + a := by decide
  have h₄ : ∀ a < 8, 0x80 ||| 0x40 ||| 0x20 ||| 0x10 ||| a = 240 + a := by decide
  rw [scalarToUtf8]
  simp only [continuation_bits, Nat.shiftRight_eq_div_pow]
  obtain ⟨x, hx⟩ | ⟨x, hx⟩ | ⟨x, hx⟩ | ⟨x, hx⟩ := f <;> simp only [Form.code, Form.Overlong] at hcode hshort <;>
    subst hcode <;> simp only [Form.bytes]
  · rw [if_neg (by omega), if_neg (by omega), if_neg (by omega)]
  · rw [if_neg (by omega), if_neg (by omega), if_pos (by omega), h₂ _ (by omega)]
  · rw [if_neg (by omega), if_pos (by omega), h₃ _ (by omega)]
  · rw [if_pos (by omega), h₄ _ (by omega)]

theorem wcToUtf8_char (c : Char) : wcToUtf8 c.toNat = String.utf8EncodeChar c := by
  obtain ⟨hle, hno⟩ := toNat_le c
  obtain ⟨f, hcode, hshort⟩ := exists_shortest c
  rw [wcToUtf8, if_neg (by omega), encodeChar_eq hcode hshort, scalarToUtf8_eq hcode hshort]

theorem wideToUtf8_chars (cs : List Char) : wideToUtf8 (cs.map Char.toNat) = encode cs := by
  rw [wideToUtf8, List.flatMap_map, encode]
  congr 1
  funext c
  exact wcToUtf8_char c

theorem utf8ToWide_nil : utf8ToWide [] = [] := by
  rw [utf8ToWide, dif_pos rfl]

theorem utf8ToWide_of_ne {s : Bytes} (hs : s ≠ []) : utf8ToWide s =
    (if (utf8ToWc 32 s).1 < 0 then '_'.toNat else (utf8ToWc 32 s).2) ::
      utf8ToWide (s.drop (utf8ToWc 32 s).1.natAbs) := by
  rw [utf8ToWide, dif_neg hs]
  dsimp only
  split <;> rfl

/-- A form that is taken is decoded to its code. -/
theorem utf8ToWide_form {f : Form} (h : f.Taken 32) (rest : Bytes) :
    utf8ToWide (f.bytes ++ rest) = f.code % 2 ^ 32 :: utf8ToWide rest := by
  have hne : f.bytes ++ rest ≠ [] := by
    intro hnil
    rw [List.append_eq_nil_iff] at hnil
    exact Nat.ne_of_gt f.length_pos (by rw [hnil.1]; rfl)
  rw [utf8ToWide_of_ne hne, utf8ToWc_of_taken h rest (by decide)]
  dsimp only
  rw [if_neg (by omega), Int.natAbs_natCast, List.drop_left]

/-- Characters are decoded to themselves. -/
theorem utf8ToWide_encode (cs : List Char) : utf8ToWide (encode cs) = cs.map Char.toNat := by
  induction cs with
  | nil => exact utf8ToWide_nil
  | cons c cs ih =>
    obtain ⟨f, hcode, hshort⟩ := exists_shortest c
    obtain ⟨hle, hno⟩ := toNat_le c
    have hmod : f.code % 2 ^ 32 = c.toNat := by
      rw [hcode]
      exact Nat.mod_eq_of_lt (by omega)
    have htaken : f.Taken 32 := by
      rw [Form.Taken, hmod]
      exact ⟨hle, hno⟩
    rw [encode, List.flatMap_cons, encodeChar_eq hcode hshort, utf8ToWide_form htaken, hmod, List.map_cons]
    exact congrArg _ ih

/-- What is decoded are the codes of characters. -/
theorem exists_chars (s : Bytes) : ∃ cs : List Char, utf8ToWide s = cs.map Char.toNat := by
  induction hn : s.length using Nat.strong_induction_on generalizing s with
  | _ n ih =>
    subst hn
    by_cases hs : s = []
    · exact ⟨[], by rw [hs, utf8ToWide_nil]; rfl⟩
    · obtain ⟨cs, hcs⟩ := ih _ (length_drop_character 32 hs) _ rfl
      rw [utf8ToWide_of_ne hs, hcs]
      by_cases hneg : (utf8ToWc 32 s).1 < 0
      · exact ⟨'_' :: cs, by rw [if_pos hneg]; rfl⟩
      · obtain ⟨f, rest, hf, htaken⟩ := exists_taken (by decide) hs (Int.not_lt.mp hneg)
        obtain ⟨hle, hno⟩ := htaken
        have hvalid : (f.code % 2 ^ 32).isValidChar := by
          rw [Nat.isValidChar]
          omega
        have hcode : (Char.ofNat (f.code % 2 ^ 32)).toNat = f.code % 2 ^ 32 := by
          rw [Char.ofNat, dif_pos hvalid]
          rfl
        refine ⟨Char.ofNat (f.code % 2 ^ 32) :: cs, ?_⟩
        rw [if_neg hneg, List.map_cons, hcode, hf, utf8ToWc_of_taken ⟨hle, hno⟩ rest (by decide)]

theorem sanitizeUtf8_wellFormed (s : Bytes) : WellFormed (sanitizeUtf8 s) := by
  obtain ⟨cs, hcs⟩ := exists_chars s
  exact ⟨cs, by rw [sanitizeUtf8, hcs, wideToUtf8_chars]⟩

theorem sanitizeUtf8_of_wellFormed {s : Bytes} (h : WellFormed s) : sanitizeUtf8 s = s := by
  obtain ⟨cs, rfl⟩ := h
  rw [sanitizeUtf8, utf8ToWide_encode, wideToUtf8_chars]

/-- Characters come back from UTF-8, and a string is sanitized once and for all. -/
theorem conversions_exact : (∀ cs : List Char, utf8ToWide (wideToUtf8 (cs.map Char.toNat)) = cs.map Char.toNat) ∧
    ∀ s, WellFormed (sanitizeUtf8 s) ∧ (WellFormed s → sanitizeUtf8 s = s) ∧
      sanitizeUtf8 (sanitizeUtf8 s) = sanitizeUtf8 s := by
  refine ⟨fun cs => by rw [wideToUtf8_chars, utf8ToWide_encode], fun s => ⟨?_, ?_, ?_⟩⟩
  · exact sanitizeUtf8_wellFormed s
  · exact sanitizeUtf8_of_wellFormed
  · exact sanitizeUtf8_of_wellFormed (sanitizeUtf8_wellFormed s)

end Dcpp.Text
