import Mathlib.Data.List.Basic
import Mathlib.Tactic.Common
import Dcpp.Text

namespace Dcpp.Text

/-- Characters in UTF-8. -/
def encode (cs : List Char) : Bytes := cs.flatMap String.utf8EncodeChar

/-- Cut to a `wchar_t`, the character is no surrogate. -/
def Fits (wcharBits : Nat) (c : Char) : Prop :=
  ¬(0xd800 ≤ c.toNat % 2 ^ wcharBits ∧ c.toNat % 2 ^ wcharBits ≤ 0xdfff)

/-- Valid UTF-8 of characters that a `wchar_t` holds well enough. -/
def Valid (wcharBits : Nat) (s : Bytes) : Prop := ∃ cs : List Char, (∀ c ∈ cs, Fits wcharBits c) ∧ s = encode cs

theorem toNat_le (c : Char) : c.toNat ≤ 0x10ffff ∧ ¬(0xd800 ≤ c.toNat ∧ c.toNat ≤ 0xdfff) := by
  have h := c.valid
  simp only [UInt32.isValidChar, Nat.isValidChar] at h
  change c.toNat < 0xd800 ∨ 0xdfff < c.toNat ∧ c.toNat < 0x110000 at h
  omega

/-- Where a `wchar_t` has 21 bits or more, every character fits. -/
theorem fits_of_wide {wcharBits : Nat} (h : 21 ≤ wcharBits) (c : Char) : Fits wcharBits c := by
  obtain ⟨hle, hno⟩ := toNat_le c
  have hpow : 2 ^ 21 ≤ 2 ^ wcharBits := Nat.pow_le_pow_right (by omega) h
  rw [Fits, Nat.mod_eq_of_lt (by omega)]
  exact hno

theorem lead_two : ∀ a < 32, 192 + a &&& 0x20 = 0 ∧ 192 + a &&& 0x30 ≠ 0x30 ∧ 192 + a &&& 0xc0 = 0xc0 ∧
    31 &&& (192 + a) = a := by decide

theorem lead_three : ∀ a < 16, 224 + a &&& 0x20 ≠ 0 ∧ 224 + a &&& 0x30 ≠ 0x30 ∧ 224 + a &&& 0xc0 = 0xc0 ∧
    224 + a &&& 16 = 0 ∧ 15 &&& (224 + a) = a := by decide

theorem lead_four : ∀ a < 8, 240 + a &&& 0x20 ≠ 0 ∧ 240 + a &&& 0x30 = 0x30 ∧ 240 + a &&& 0xc0 = 0xc0 ∧
    240 + a &&& 8 = 0 ∧ 7 &&& (240 + a) = a := by decide

theorem following : ∀ b < 64, 128 + b &&& 0xc0 = 0x80 ∧ 128 + b &&& 0x3f = b := by decide

theorem continuation_cons (wcharBits c i left : Nat) {b : Nat} (hb : b < 64) (rest : Bytes) :
    continuation wcharBits c i (left + 1) (UInt8.ofNat (b + 128) :: rest) =
      continuation wcharBits ((c * 64 + b) % 2 ^ wcharBits) (i + 1) left rest := by
  obtain ⟨hlead, hbits⟩ := following b hb
  have hnat : (UInt8.ofNat (b + 128)).toNat = 128 + b := by
    rw [UInt8.toNat_ofNat']
    omega
  have hshift : c <<< 6 ||| b = c * 64 + b := by
    rw [← Nat.shiftLeft_add_eq_or_of_lt (i := 6) hb, Nat.shiftLeft_eq]
  rw [continuation]
  simp only [List.headD_cons, List.tail_cons, hnat, hlead, hbits, hshift]
  rfl

/-- Cutting to a `wchar_t` on the way does not change what is left in the end. -/
theorem cut_mul_add (m c b : Nat) : ((c % m) * 64 + b) % m = (c * 64 + b) % m := by
  rw [Nat.add_mod, Nat.mul_mod, Nat.mod_mod, ← Nat.mul_mod, ← Nat.add_mod]

theorem utf8ToWc_ascii (wcharBits : Nat) {s : Bytes} (h : (s.headD 0).toNat < 128) :
    utf8ToWc wcharBits s = (1, (s.headD 0).toNat) := by
  have hlow : ∀ n < 128, n &&& 0xc0 ≠ 0xc0 ∧ n &&& 0x80 = 0 := by decide
  obtain ⟨hnot, hzero⟩ := hlow _ h
  rw [utf8ToWc]
  dsimp only
  rw [if_neg hnot, if_pos hzero]

/-- A character whose first byte gives `bytes` bytes, which give `x`. -/
theorem utf8ToWc_lead {wcharBits c₀ x : Nat} {s : Bytes} (bytes : Nat) (hc₀ : (s.headD 0).toNat = c₀)
    (hbytes : 2 + (if c₀ &&& 0x20 ≠ 0 then 1 else 0) + (if c₀ &&& 0x30 = 0x30 then 1 else 0) = bytes)
    (hlead : c₀ &&& 0xc0 = 0xc0) (hbit : c₀ &&& 1 <<< (7 - bytes) = 0)
    (hx : continuation wcharBits ((1 <<< (7 - bytes) - 1) &&& c₀) 1 (bytes - 1) s.tail = ((bytes : Int), x))
    (hcut : ¬(x > 0x10ffff ∨ x ≥ 0xd800 ∧ x ≤ 0xdfff)) : utf8ToWc wcharBits s = ((bytes : Int), x) := by
  subst hc₀
  have hno : ¬((bytes : Int) < 0) := by omega
  rw [utf8ToWc]
  dsimp only
  rw [hbytes, if_pos hlead, if_neg (not_not_intro hbit), hx]
  dsimp only
  rw [if_neg hno, if_neg hcut]

/-- The reader's decoder takes the bytes of a character that fits. -/
theorem utf8ToWc_encode {wcharBits : Nat} {c : Char} (h : Fits wcharBits c) (rest : Bytes) :
    utf8ToWc wcharBits (String.utf8EncodeChar c ++ rest) =
      (((String.utf8EncodeChar c).length : Int), if c.toNat < 128 then c.toNat else c.toNat % 2 ^ wcharBits) := by
  obtain ⟨hle, -⟩ := toNat_le c
  have hcut : ¬(c.toNat % 2 ^ wcharBits > 0x10ffff ∨
      c.toNat % 2 ^ wcharBits ≥ 0xd800 ∧ c.toNat % 2 ^ wcharBits ≤ 0xdfff) := by
    have hmod := Nat.mod_le c.toNat (2 ^ wcharBits)
    rintro (hbig | hsur)
    · omega
    · exact h hsur
  have hval : c.val.toNat = c.toNat := rfl
  have hb (n : Nat) : n % 64 < 64 := Nat.mod_lt _ (by omega)
  rw [String.utf8EncodeChar]
  simp only [hval]
  split
  next hone =>
    have hhead : (([UInt8.ofNat c.toNat] ++ rest).headD 0).toNat = c.toNat := by
      change (UInt8.ofNat c.toNat).toNat = c.toNat
      rw [UInt8.toNat_ofNat']
      omega
    rw [utf8ToWc_ascii wcharBits (by omega), hhead, if_pos (by omega)]
    rfl
  next hone =>
    have hwide : ¬c.toNat < 128 := fun hlt => hone (Nat.le_of_lt_succ hlt)
    rw [if_neg hwide]
    split
    next htwo =>
      obtain ⟨h20, h30, hc0, hlow⟩ := lead_two (c.toNat / 64 % 32) (Nat.mod_lt _ (by omega))
      have hx : (c.toNat / 64 % 32) * 64 + c.toNat % 64 = c.toNat := by omega
      refine utf8ToWc_lead 2 ?_ ?_ hc0 h20 ?_ hcut
      · change (UInt8.ofNat _).toNat = _
        rw [UInt8.toNat_ofNat']
        omega
      · rw [if_neg (not_not_intro h20), if_neg h30]
      · change continuation _ (31 &&& _) 1 (0 + 1) (_ :: _) = _
        rw [hlow, continuation_cons _ _ _ _ (hb _), hx, continuation]
    next htwo =>
      split
      next hthree =>
        obtain ⟨h20, h30, hc0, hbit, hlow⟩ := lead_three (c.toNat / 4096 % 16) (Nat.mod_lt _ (by omega))
        have hx : ((c.toNat / 4096 % 16) * 64 + c.toNat / 64 % 64) * 64 + c.toNat % 64 = c.toNat := by omega
        refine utf8ToWc_lead 3 ?_ ?_ hc0 hbit ?_ hcut
        · change (UInt8.ofNat _).toNat = _
          rw [UInt8.toNat_ofNat']
          omega
        · rw [if_pos h20, if_neg h30]
        · change continuation _ (15 &&& _) 1 (1 + 1) (_ :: _ :: _) = _
          rw [hlow, continuation_cons _ _ _ _ (hb _), continuation_cons _ _ _ _ (hb _), cut_mul_add, hx,
            continuation]
      next hthree =>
        obtain ⟨h20, h30, hc0, hbit, hlow⟩ := lead_four (c.toNat / 262144 % 8) (Nat.mod_lt _ (by omega))
        have hx : (((c.toNat / 262144 % 8) * 64 + c.toNat / 4096 % 64) * 64 + c.toNat / 64 % 64) * 64 +
            c.toNat % 64 = c.toNat := by omega
        refine utf8ToWc_lead 4 ?_ ?_ hc0 hbit ?_ hcut
        · change (UInt8.ofNat _).toNat = _
          rw [UInt8.toNat_ofNat']
          omega
        · rw [if_pos h20, if_pos h30]
        · change continuation _ (7 &&& _) 1 (2 + 1) (_ :: _ :: _ :: _) = _
          rw [hlow, continuation_cons _ _ _ _ (hb _), continuation_cons _ _ _ _ (hb _), cut_mul_add,
            continuation_cons _ _ _ _ (hb _), cut_mul_add, hx, continuation]

/-- The validation accepts what is valid. -/
theorem validateUtf8_of_valid {wcharBits : Nat} {s : Bytes} (h : Valid wcharBits s) :
    validateUtf8 wcharBits s = true := by
  obtain ⟨cs, hcs, rfl⟩ := h
  have hloop : ∀ fuel, (encode cs).length ≤ fuel → validateLoop wcharBits fuel (encode cs) = true := by
    induction cs with
    | nil =>
      intro fuel _
      cases fuel <;> rfl
    | cons c cs ih =>
      intro fuel hfuel
      have hfits := utf8ToWc_encode (hcs c List.mem_cons_self) (encode cs)
      have hsplit : encode (c :: cs) = String.utf8EncodeChar c ++ encode cs := rfl
      have hpos : 0 < (String.utf8EncodeChar c).length := by
        rw [String.length_utf8EncodeChar]
        exact c.utf8Size_pos
      rw [hsplit, List.length_append] at hfuel
      rw [hsplit]
      cases fuel with
      | zero => omega
      | succ fuel =>
        rw [validateLoop, if_neg (by simp), hfits]
        dsimp only
        rw [if_neg (by omega), Int.toNat_natCast, List.drop_left]
        exact ih (fun c hc => hcs c (List.mem_cons_of_mem _ hc)) fuel (by omega)
  exact hloop _ (Nat.le_refl _)

/-- The validation accepts ASCII. -/
theorem validateUtf8_of_ascii (wcharBits : Nat) {s : Bytes} (h : ∀ c ∈ s, c < 128) : validateUtf8 wcharBits s = true := by
  rw [validateUtf8]
  induction s with
  | nil => rfl
  | cons c s ih =>
    have hone : utf8ToWc wcharBits (c :: s) = (1, c.toNat) := utf8ToWc_ascii wcharBits (h c List.mem_cons_self)
    rw [List.length_cons, validateLoop, if_neg (by simp), hone]
    exact ih fun c hc => h c (List.mem_cons_of_mem _ hc)

section Decoder

variable (wcharBits : Nat)

/-- The code after one more byte. -/
def next (c : Nat) (b : UInt8) : Nat := ((c <<< 6) ||| (b.toNat &&& 0x3f)) % 2 ^ wcharBits

theorem next_lt {c B : Nat} (b : UInt8) (h : c < B) : next wcharBits c b < B * 64 := by
  have hbits : b.toNat &&& 0x3f < 64 := Nat.lt_of_le_of_lt Nat.and_le_right (by omega)
  apply Nat.lt_of_le_of_lt (Nat.mod_le _ _)
  rw [← Nat.shiftLeft_add_eq_or_of_lt (i := 6) hbits, Nat.shiftLeft_eq]
  omega

/-- The next byte does not continue the character, or it does. -/
theorem continuation_cases (str : Bytes) :
    (∀ c i left, continuation wcharBits c i (left + 1) str = (-(i : Int), c) ∧
        continuation wcharBits c i (left + 1) (str ++ [0]) = (-(i : Int), c)) ∨
      ∃ b rest, str = b :: rest ∧ ∀ c i left more, continuation wcharBits c i (left + 1) (b :: more) =
        continuation wcharBits (next wcharBits c b) (i + 1) left more := by
  by_cases hlead : (str.headD 0).toNat &&& 0xc0 = 0x80
  · cases str with
    | nil => simp at hlead
    | cons b rest =>
      refine Or.inr ⟨b, rest, rfl, fun c i left more => ?_⟩
      rw [continuation]
      exact if_neg (not_not_intro hlead)
  · have hnul : (str ++ [0]).headD 0 = str.headD 0 := by cases str <;> rfl
    refine Or.inl fun c i left => ⟨?_, ?_⟩ <;> rw [continuation]
    · exact if_pos hlead
    · rw [hnul]
      exact if_pos hlead

theorem continuation_nul (c i left : Nat) (str : Bytes) :
    continuation wcharBits c i left (str ++ [0]) = continuation wcharBits c i left str := by
  induction left generalizing c i str with
  | zero => simp [continuation]
  | succ left ih =>
    obtain hstop | ⟨b, rest, rfl, hgo⟩ := continuation_cases wcharBits str
    · rw [(hstop c i left).1, (hstop c i left).2]
    · rw [List.cons_append, hgo, hgo, ih]

/-- The bytes that have been read, of which none but the first is behind the end. -/
theorem continuation_length (c i left : Nat) (str : Bytes) :
    i ≤ (continuation wcharBits c i left str).1.natAbs ∧
      (continuation wcharBits c i left str).1.natAbs ≤ i + str.length := by
  induction left generalizing c i str with
  | zero => simp [continuation]
  | succ left ih =>
    obtain hstop | ⟨b, rest, rfl, hgo⟩ := continuation_cases wcharBits str
    · simp [(hstop c i left).1]
    · have h := ih (next wcharBits c b) (i + 1) rest
      rw [hgo, List.length_cons]
      omega

/-- What is read does not depend on what follows it. -/
theorem continuation_take (c i left : Nat) (str : Bytes) :
    continuation wcharBits c i left (str.take ((continuation wcharBits c i left str).1.natAbs - i)) =
      continuation wcharBits c i left str := by
  induction left generalizing c i str with
  | zero => simp [continuation]
  | succ left ih =>
    obtain hstop | ⟨b, rest, rfl, hgo⟩ := continuation_cases wcharBits str
    · rw [(hstop c i left).1]
      simp [continuation]
    · have hih := ih (next wcharBits c b) (i + 1) rest
      obtain ⟨hle, -⟩ := continuation_length wcharBits (next wcharBits c b) (i + 1) left rest
      rw [hgo]
      generalize continuation wcharBits (next wcharBits c b) (i + 1) left rest = r at *
      have hn : r.1.natAbs - i = r.1.natAbs - (i + 1) + 1 := by omega
      rw [hn, List.take_succ_cons, hgo, hih]

theorem continuation_nonneg {c i left : Nat} {str : Bytes} (hi : 0 < i)
    (h : 0 ≤ (continuation wcharBits c i left str).1) : (continuation wcharBits c i left str).1 = i + left := by
  induction left generalizing c i str with
  | zero => simp [continuation]
  | succ left ih =>
    obtain hstop | ⟨b, rest, rfl, hgo⟩ := continuation_cases wcharBits str
    · rw [(hstop c i left).1] at h
      dsimp only at h
      omega
    · rw [hgo] at h ⊢
      rw [ih (by omega) h]
      push_cast
      omega

/-- What an unfinished character leaves is small. -/
theorem continuation_lt {c i left B : Nat} {str : Bytes} (h : (continuation wcharBits c i left str).1 < 0) (hc : c < B) :
    (continuation wcharBits c i left str).2 < B * 64 ^ (left - 1) := by
  induction left generalizing c i str B with
  | zero =>
    simp only [continuation] at h
    omega
  | succ left ih =>
    obtain hstop | ⟨b, rest, rfl, hgo⟩ := continuation_cases wcharBits str
    · rw [(hstop c i left).1]
      exact Nat.lt_of_lt_of_le hc (Nat.le_mul_of_pos_right B (Nat.pow_pos (by omega)))
    · rw [hgo] at h ⊢
      have hlt := ih h (next_lt wcharBits b hc)
      cases left with
      | zero =>
        simp only [continuation] at h
        omega
      | succ left =>
        rw [Nat.add_sub_cancel, Nat.mul_assoc, ← Nat.pow_succ'] at hlt
        exact hlt

/-- The bytes of the character that the first one announces. -/
def announced (c₀ : Nat) : Nat := 2 + (if c₀ &&& 0x20 ≠ 0 then 1 else 0) + if c₀ &&& 0x30 = 0x30 then 1 else 0

theorem announced_bits : ∀ c₀ < 256, c₀ &&& 0xc0 = 0xc0 → 2 ≤ announced c₀ ∧
    ((1 <<< (7 - announced c₀) - 1 &&& c₀) + 1) * 64 ^ (announced c₀ - 2) ≤ 0x8000 := by decide +kernel

/-- What becomes of a longer character that has been read. -/
def finish (bytes : Nat) (r : Int × Nat) : Int × Nat :=
  if r.1 < 0 then r
  else if r.2 > 0x10ffff ∨ (r.2 ≥ 0xd800 ∧ r.2 ≤ 0xdfff) then (-(bytes : Int), 0xfffd)
  else (bytes, r.2)

/-- How the first byte decides: it is a character of its own, or it is none, or others have to follow it. -/
theorem utf8ToWc_cases (c₀ : UInt8) :
    (∀ str : Bytes, str.headD 0 = c₀ → utf8ToWc wcharBits str = (1, c₀.toNat)) ∨
      (∀ str : Bytes, str.headD 0 = c₀ → utf8ToWc wcharBits str = (-1, 0)) ∨
      ∃ c bytes, 2 ≤ bytes ∧ (c + 1) * 64 ^ (bytes - 2) ≤ 0x8000 ∧ ∀ str : Bytes, str.headD 0 = c₀ →
        utf8ToWc wcharBits str = finish bytes (continuation wcharBits c 1 (bytes - 1) str.tail) := by
  by_cases hlead : c₀.toNat &&& 0xc0 = 0xc0
  · obtain ⟨htwo, hbound⟩ := announced_bits c₀.toNat c₀.toNat_lt hlead
    by_cases hbit : c₀.toNat &&& 1 <<< (7 - announced c₀.toNat) = 0
    · refine Or.inr (Or.inr ⟨_, announced c₀.toNat, htwo, hbound, fun str hstr => ?_⟩)
      rw [utf8ToWc, hstr]
      exact (if_pos hlead).trans (if_neg (not_not_intro hbit))
    · refine Or.inr (Or.inl fun str hstr => ?_)
      rw [utf8ToWc, hstr]
      exact (if_pos hlead).trans (if_pos hbit)
  · by_cases hlow : c₀.toNat &&& 0x80 = 0
    · refine Or.inl fun str hstr => ?_
      rw [utf8ToWc, hstr]
      exact (if_neg hlead).trans (if_pos hlow)
    · refine Or.inr (Or.inl fun str hstr => ?_)
      rw [utf8ToWc, hstr]
      exact (if_neg hlead).trans (if_neg hlow)

theorem finish_natAbs {c bytes : Nat} (hbytes : 2 ≤ bytes) (str : Bytes) :
    (finish bytes (continuation wcharBits c 1 (bytes - 1) str)).1.natAbs =
      (continuation wcharBits c 1 (bytes - 1) str).1.natAbs := by
  have h : 0 ≤ (continuation wcharBits c 1 (bytes - 1) str).1 → _ := continuation_nonneg wcharBits Nat.one_pos
  rw [finish]
  split
  next => rfl
  next hnonneg =>
    have h := h (by omega)
    split <;> dsimp only <;> omega

theorem utf8ToWc_nul (str : Bytes) : utf8ToWc wcharBits (str ++ [0]) = utf8ToWc wcharBits str := by
  have hhead : (str ++ [0]).headD 0 = str.headD 0 := by cases str <;> rfl
  have htail : ∀ c i left, continuation wcharBits c i left (str ++ [0]).tail = continuation wcharBits c i left str.tail := by
    cases str with
    | nil => simp
    | cons b str => exact fun c i left => continuation_nul wcharBits c i left str
  obtain h | h | ⟨c, bytes, -, -, h⟩ := utf8ToWc_cases wcharBits (str.headD 0)
  · rw [h _ hhead, h _ rfl]
  · rw [h _ hhead, h _ rfl]
  · rw [h _ hhead, h _ rfl, htail]

/-- A character takes a byte at least, and none behind the end. -/
theorem utf8ToWc_length {str : Bytes} (hstr : str ≠ []) :
    0 < (utf8ToWc wcharBits str).1.natAbs ∧ (utf8ToWc wcharBits str).1.natAbs ≤ str.length := by
  have hlen := List.length_pos_iff.mpr hstr
  obtain h | h | ⟨c, bytes, htwo, -, h⟩ := utf8ToWc_cases wcharBits (str.headD 0)
  · simp [h _ rfl]
    omega
  · simp [h _ rfl]
    omega
  · obtain ⟨hle, hge⟩ := continuation_length wcharBits c 1 (bytes - 1) str.tail
    rw [h _ rfl, finish_natAbs wcharBits htwo]
    rw [List.length_tail] at hge
    omega

/-- A character is the same without what follows it. -/
theorem utf8ToWc_take (str : Bytes) :
    utf8ToWc wcharBits (str.take (utf8ToWc wcharBits str).1.natAbs) = utf8ToWc wcharBits str := by
  cases str with
  | nil => simp
  | cons b str =>
    obtain ⟨hpos, -⟩ := utf8ToWc_length wcharBits (List.cons_ne_nil b str)
    obtain ⟨n, hn⟩ := Nat.exists_eq_succ_of_ne_zero (Nat.ne_of_gt hpos)
    rw [hn, List.take_succ_cons]
    obtain h | h | ⟨c, bytes, htwo, -, h⟩ := utf8ToWc_cases wcharBits b
    · rw [h _ rfl, h _ rfl]
    · rw [h _ rfl, h _ rfl]
    · have htake := continuation_take wcharBits c 1 (bytes - 1) str
      rw [h (b :: str) rfl, finish_natAbs wcharBits htwo] at hn
      rw [h _ rfl, h _ rfl]
      simp only [List.tail_cons] at hn ⊢
      rw [hn] at htake
      exact congrArg _ htake

/-- The code that an invalid character leaves is one of another character. -/
theorem utf8ToWc_invalid {str : Bytes} (h : (utf8ToWc wcharBits str).1 < 0) :
    (utf8ToWc wcharBits str).2 < 0x8000 ∨ (utf8ToWc wcharBits str).2 = 0xfffd := by
  obtain hone | hnone | ⟨c, bytes, htwo, hbound, hlong⟩ := utf8ToWc_cases wcharBits (str.headD 0)
  · simp [hone _ rfl] at h
  · simp [hnone _ rfl]
  · rw [hlong _ rfl] at h ⊢
    rw [finish] at h ⊢
    split
    next hneg =>
      have hlt := continuation_lt wcharBits hneg (Nat.lt_add_one c)
      rw [Nat.sub_sub] at hlt
      exact Or.inl (Nat.lt_of_lt_of_le hlt hbound)
    next hneg =>
      rw [if_neg hneg] at h
      split
      next => exact Or.inr rfl
      next hcut =>
        rw [if_neg hcut] at h
        dsimp only at h
        omega

end Decoder

/-- Text in UTF-8. -/
def IsText (s : Bytes) : Prop := ∃ cs : List Char, s = encode cs

/-- The bytes of a character are one ASCII character, or none of them is. -/
theorem encodeChar_cases (c : Char) :
    (∃ b < 128, String.utf8EncodeChar c = [b]) ∨ ∀ b ∈ String.utf8EncodeChar c, 128 ≤ b := by
  have hle (b : UInt8) : 128 ≤ b ↔ 128 ≤ b.toNat := UInt8.le_iff_toNat_le
  have hval : c.val.toNat = c.toNat := rfl
  obtain ⟨hmax, -⟩ := toNat_le c
  rw [String.utf8EncodeChar]
  simp only [hval]
  split
  next hone =>
    refine Or.inl ⟨_, ?_, rfl⟩
    have hlt : (UInt8.ofNat c.toNat).toNat < 128 := by
      rw [UInt8.toNat_ofNat']
      omega
    exact UInt8.lt_iff_toNat_lt.mpr hlt
  next =>
    right
    split
    next =>
      simp only [List.forall_mem_cons, hle, UInt8.toNat_ofNat']
      exact ⟨by omega, by omega, nofun⟩
    next =>
      split
      next =>
        simp only [List.forall_mem_cons, hle, UInt8.toNat_ofNat']
        exact ⟨by omega, by omega, by omega, nofun⟩
      next =>
        simp only [List.forall_mem_cons, hle, UInt8.toNat_ofNat']
        exact ⟨by omega, by omega, by omega, by omega, nofun⟩

theorem isText_append {s t : Bytes} (hs : IsText s) (ht : IsText t) : IsText (s ++ t) := by
  obtain ⟨cs, rfl⟩ := hs
  obtain ⟨ds, rfl⟩ := ht
  exact ⟨cs ++ ds, List.flatMap_append.symm⟩

theorem isText_char (c : Char) : IsText (String.utf8EncodeChar c) := ⟨[c], (List.flatMap_singleton _ c).symm⟩

theorem isText_ascii {s : Bytes} (h : ∀ b ∈ s, b < 128) : IsText s := by
  induction s with
  | nil => exact ⟨[], rfl⟩
  | cons b s ih =>
    have hb : b.toNat < 128 := UInt8.lt_iff_toNat_lt.mp (h b List.mem_cons_self)
    have hvalid : b.toNat.isValidChar := Or.inl (by omega)
    have hchar : String.utf8EncodeChar (Char.ofNat b.toNat) = [b] := by
      have hval : (Char.ofNat b.toNat).val.toNat = b.toNat := by
        rw [Char.ofNat, dif_pos hvalid]
        rfl
      rw [String.utf8EncodeChar]
      simp only [hval]
      rw [if_pos (by omega), UInt8.ofNat_toNat]
    exact isText_append (hchar ▸ isText_char _) (ih fun c hc => h c (List.mem_cons_of_mem b hc))

/-- What is put in the place of ASCII characters is text, and nothing else changes. -/
theorem isText_flatMap {f : UInt8 → Bytes} (hascii : ∀ b < 128, IsText (f b)) (hhigh : ∀ b, 128 ≤ b → f b = [b])
    {s : Bytes} (h : IsText s) : IsText (s.flatMap f) := by
  obtain ⟨cs, rfl⟩ := h
  induction cs with
  | nil => exact ⟨[], rfl⟩
  | cons c cs ih =>
    have hsplit : encode (c :: cs) = String.utf8EncodeChar c ++ encode cs := rfl
    rw [hsplit, List.flatMap_append]
    refine isText_append ?_ ih
    obtain ⟨b, hb, hchar⟩ | hall := encodeChar_cases c
    · rw [hchar, List.flatMap_singleton]
      exact hascii b hb
    · have hsame : (String.utf8EncodeChar c).flatMap f = String.utf8EncodeChar c := by
        rw [List.flatMap_congr fun b hb => hhigh b (hall b hb)]
        exact List.flatMap_singleton' _
      rw [hsame]
      exact isText_char c

end Dcpp.Text
