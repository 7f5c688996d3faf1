import Dcpp.NoCaseString

-- The search for a part of a string without regard to the case.
namespace Dcpp.Util

variable (l : Locale)

def asciiToLower (c : UInt8) : UInt8 := if byte 'A' ≤ c ∧ c ≤ byte 'Z' then c + 0x20 else c

/-- The lower case of the first character, with the number of its bytes. A NUL stands behind the string; what is no
UTF-8 of up to three bytes is one byte of the code 0. -/
def utf8ToLC (str : Bytes) : Nat × Nat :=
  let c₀ := str.headD 0
  let c₁ := str.getD 1 0
  let c₂ := str.getD 2 0
  let further (c : UInt8) : Bool := c &&& 0xc0 = 0x80
  if c₀ &&& 0x80 ≠ 0 then
    if c₀ &&& 0x40 ≠ 0 then
      if c₀ &&& 0x20 ≠ 0 then
        if ¬further c₁ ∨ ¬further c₂ then (0, 1)
        else
          (l.toLower (((c₀.toNat &&& 0xf) <<< 12) ||| ((c₁.toNat &&& 0x3f) <<< 6) ||| (c₂.toNat &&& 0x3f)), 3)
      else if ¬further c₁ then (0, 1)
      else (l.toLower (((c₀.toNat &&& 0x1f) <<< 6) ||| (c₁.toNat &&& 0x3f)), 2)
    else (0, 1)
  else ((asciiToLower c₀).toNat, 1)

theorem utf8ToLC_pos (str : Bytes) : 0 < (utf8ToLC l str).2 := by
  simp only [utf8ToLC]
  split_ifs <;> exact Nat.succ_pos _

theorem utf8ToLC_ascii {c : UInt8} (hc : c < 0x80) (s : Bytes) :
    utf8ToLC l (c :: s) = ((asciiToLower c).toNat, 1) := by
  have hbit : c &&& 0x80 = 0 := by
    revert c
    apply Encoder.forall_byte
    decide +kernel
  rw [utf8ToLC, List.headD_cons, if_neg (not_not.mpr hbit)]

/-- A character of several bytes has none of ASCII among them. -/
theorem utf8ToLC_several {s : Bytes} (h : (utf8ToLC l s).2 ≠ 1) {k : Nat} (hk : k < (utf8ToLC l s).2) :
    0x80 ≤ s.getD k 0 := by
  have hlead : ∀ c : UInt8, c &&& 0x80 ≠ 0 → 0x80 ≤ c := by
    apply Encoder.forall_byte
    decide +kernel
  have hfurther : ∀ c : UInt8, c &&& 0xc0 = 0x80 → 0x80 ≤ c := by
    apply Encoder.forall_byte
    decide +kernel
  have hzero : s.getD 0 0 = s.headD 0 := by cases s <;> rfl
  simp only [utf8ToLC] at h hk
  split_ifs at h hk with hc₀ h₁ h₂ h₃ h₄
  all_goals simp only [ne_eq, not_true_eq_false, not_or, decide_eq_true_eq, not_not] at *
  · obtain rfl | rfl | rfl : k = 0 ∨ k = 1 ∨ k = 2 := by omega
    · rw [hzero]
      exact hlead _ hc₀
    · exact hfurther _ h₃.1
    · exact hfurther _ h₃.2
  · obtain rfl | rfl : k = 0 ∨ k = 1 := by omega
    · rw [hzero]
      exact hlead _ hc₀
    · exact hfurther _ h₄

/-- Whether the text goes on with the rest of the pattern. -/
def matchRest (px tx : Bytes) : Bool :=
  if _h : px.headD 0 = 0 then true
  else
    let p := utf8ToLC l px
    let t := utf8ToLC l tx
    if p.1 ≠ t.1 then false else matchRest (px.drop p.2) (tx.drop t.2)
termination_by px.length
decreasing_by
  have hpx : 0 < px.length := List.length_pos_iff.mpr fun hnil => _h (by rw [hnil]; rfl)
  have hpos := utf8ToLC_pos l px
  simp only [List.length_drop]
  omega

/-- The loop of `findSubString`, from `tx`; `wp` is the first character of the pattern, and `px` the rest. -/
def findLoop (aString : Bytes) (wp : Nat) (px : Bytes) (tx stop : Nat) : Option Nat :=
  if tx < stop then
    let t := utf8ToLC l (aString.drop tx)
    if wp = t.1 ∧ matchRest l px (aString.drop (tx + t.2)) then some tx
    else findLoop aString wp px (tx + t.2) stop
  else none
termination_by stop - tx
decreasing_by
  have hpos := utf8ToLC_pos l (aString.drop tx)
  omega

/-- Whether the pattern is found at the place. -/
def matchesAt (aString aSubString : Bytes) (tx : Nat) : Bool :=
  let p := utf8ToLC l aSubString
  let t := utf8ToLC l (aString.drop tx)
  p.1 = t.1 ∧ matchRest l (aSubString.drop p.2) (aString.drop (tx + t.2))

/-- A place that no character of several bytes reaches over: a place `q` on the way from `tx` behind a byte of ASCII. -/
def Between (aString : Bytes) (tx q : Nat) : Prop := tx ≤ q ∧ (q = tx ∨ aString.getD (q - 1) 0 < 0x80)

theorem Between.next {aString : Bytes} {tx q : Nat} (h : Between aString tx q) (hne : q ≠ tx) :
    Between aString (tx + (utf8ToLC l (aString.drop tx)).2) q := by
  obtain ⟨hle, hq⟩ := h
  have hascii := hq.resolve_left hne
  by_cases hone : (utf8ToLC l (aString.drop tx)).2 = 1
  · rw [hone]
    exact ⟨by omega, Or.inr hascii⟩
  · refine ⟨not_lt.mp fun hlt => ?_, Or.inr hascii⟩
    have hlarge := utf8ToLC_several l hone (show q - 1 - tx < _ by omega)
    rw [List.getD_eq_getElem?_getD, List.getElem?_drop, ← List.getD_eq_getElem?_getD,
      show tx + (q - 1 - tx) = q - 1 by omega] at hlarge
    exact absurd hascii (UInt8.not_lt.mpr hlarge)

/-- The loop stops at the first place it comes to where the pattern is found. -/
theorem findLoop_some {aString aSubString : Bytes} {tx stop r : Nat}
    (h : findLoop l aString (utf8ToLC l aSubString).1 (aSubString.drop (utf8ToLC l aSubString).2) tx stop = some r) :
    tx ≤ r ∧ r < stop ∧ matchesAt l aString aSubString r = true ∧
      ∀ q, q < r → Between aString tx q → matchesAt l aString aSubString q = false := by
  fun_induction findLoop l aString (utf8ToLC l aSubString).1 (aSubString.drop (utf8ToLC l aSubString).2) tx stop with
  | case1 tx hlt t hfound =>
    obtain rfl := Option.some_inj.mp h
    refine ⟨le_rfl, hlt, decide_eq_true hfound, fun q hq hbetween => ?_⟩
    exact absurd hbetween.1 (not_le.mpr hq)
  | case2 tx hlt t hfound ih =>
    obtain ⟨hle, hr, hmatch, hfirst⟩ := ih h
    refine ⟨by omega, hr, hmatch, fun q hq hbetween => ?_⟩
    by_cases hne : q = tx
    · rw [hne]
      exact decide_eq_false hfound
    · exact hfirst q hq (hbetween.next l hne)
  | case3 => cases h

theorem findLoop_none {aString aSubString : Bytes} {tx stop : Nat}
    (h : findLoop l aString (utf8ToLC l aSubString).1 (aSubString.drop (utf8ToLC l aSubString).2) tx stop = none)
    {q : Nat} (hq : q < stop) (hbetween : Between aString tx q) : matchesAt l aString aSubString q = false := by
  fun_induction findLoop l aString (utf8ToLC l aSubString).1 (aSubString.drop (utf8ToLC l aSubString).2) tx stop with
  | case1 => cases h
  | case2 tx hlt t hfound ih =>
    by_cases hne : q = tx
    · rw [hne]
      exact decide_eq_false hfound
    · exact ih h (hbetween.next l hne)
  | case3 tx hlt => exact absurd (hbetween.1.trans_lt hq) hlt

def findSubString (aString aSubString : Bytes) (start : Nat) : Option Nat :=
  if aString.length < start then none
  else if aString.length - start < aSubString.length then none
  else if aSubString = [] then some 0
  else
    let p := utf8ToLC l aSubString
    findLoop l aString p.1 (aSubString.drop p.2) start (aString.length - aSubString.length + 1)

/-- What `findSubString` returns: the first place, of those it comes to, at which the pattern is found. -/
theorem findSubString_some {aString aSubString : Bytes} {start r : Nat} (hne : aSubString ≠ [])
    (h : findSubString l aString aSubString start = some r) :
    start ≤ r ∧ r + aSubString.length ≤ aString.length ∧ matchesAt l aString aSubString r = true ∧
      ∀ q, q < r → Between aString start q → matchesAt l aString aSubString q = false := by
  rw [findSubString] at h
  split_ifs at h with hstart hroom
  obtain ⟨hle, hstop, hfound⟩ := findLoop_some l h
  exact ⟨hle, by omega, hfound⟩

theorem findSubString_none {aString aSubString : Bytes} {start : Nat}
    (h : findSubString l aString aSubString start = none) {q : Nat} (hq : q + aSubString.length ≤ aString.length)
    (hbetween : Between aString start q) : matchesAt l aString aSubString q = false := by
  have hle := hbetween.1
  rw [findSubString] at h
  split_ifs at h with hstart hroom
  · omega
  · omega
  · exact findLoop_none l h (by omega) hbetween

theorem matchRest_cons {c : UInt8} (hc : c ≠ 0) (px tx : Bytes) : matchRest l (c :: px) tx =
    decide ((utf8ToLC l (c :: px)).1 = (utf8ToLC l tx).1 ∧
      matchRest l ((c :: px).drop (utf8ToLC l (c :: px)).2) (tx.drop (utf8ToLC l tx).2) = true) := by
  rw [matchRest, dif_neg (by exact hc)]
  dsimp only
  split_ifs with h
  · exact (decide_eq_false fun hmatch => h hmatch.1).symm
  · rw [not_not] at h
    simp [h]

theorem matchesAt_eq {aString aSubString : Bytes} (hne : aSubString ≠ []) (hnul : 0 ∉ aSubString) (tx : Nat) :
    matchesAt l aString aSubString tx = matchRest l aSubString (aString.drop tx) := by
  obtain ⟨c, px, rfl⟩ := List.exists_cons_of_ne_nil hne
  rw [matchRest_cons l (fun hc => hnul (hc ▸ List.mem_cons_self)), matchesAt, List.drop_drop]

theorem asciiToLower_lt : ∀ {c : UInt8}, asciiToLower c < 0x80 ↔ c < 0x80 := by
  apply Encoder.forall_byte
  decide +kernel

/-- A pattern in ASCII matches what is the same up to the case. -/
theorem matchRest_of_lower {px tx : Bytes} (hascii : ∀ c ∈ px, c < 0x80) (hnul : 0 ∉ px)
    (h : tx.map asciiToLower = px.map asciiToLower) (rest : Bytes) : matchRest l px (tx ++ rest) = true := by
  induction px generalizing tx with
  | nil =>
    rw [matchRest]
    exact dif_pos rfl
  | cons c px ih =>
    cases tx with
    | nil => cases h
    | cons d tx =>
      rw [List.map_cons, List.map_cons, List.cons.injEq] at h
      have hc := hascii c List.mem_cons_self
      have hd : d < 0x80 := by
        rw [← asciiToLower_lt, h.1, asciiToLower_lt]
        exact hc
      rw [List.cons_append, matchRest_cons l (fun hc => hnul (hc ▸ List.mem_cons_self)), utf8ToLC_ascii l hc,
        utf8ToLC_ascii l hd, h.1]
      refine decide_eq_true ⟨rfl, ?_⟩
      exact ih (fun c hc => hascii c (List.mem_cons_of_mem _ hc)) (fun hnul' => hnul (List.mem_cons_of_mem _ hnul')) h.2

/-- A pattern in ASCII without a line break does not match over one. -/
theorem matchRest_avoids {px tx : Bytes} (hascii : ∀ c ∈ px, c < 0x80) (hnul : 0 ∉ px) (hline : byte '\n' ∉ px)
    (h : matchRest l px tx = true) {k : Nat} (hk : k < px.length) : tx.getD k 0 ≠ byte '\n' := by
  induction px generalizing tx k with
  | nil => cases hk
  | cons c px ih =>
    rw [matchRest_cons l (fun hc => hnul (hc ▸ List.mem_cons_self)),
      utf8ToLC_ascii l (hascii c List.mem_cons_self)] at h
    obtain ⟨hhead, hrest⟩ := of_decide_eq_true h
    by_cases hlt : k < (utf8ToLC l tx).2
    · intro hbreak
      by_cases hone : (utf8ToLC l tx).2 = 1
      · obtain rfl : k = 0 := by omega
        cases tx with
        | nil => cases hbreak
        | cons d tx =>
          obtain rfl : d = byte '\n' := hbreak
          rw [utf8ToLC_ascii l (by decide)] at hhead
          have hlower : ∀ c : UInt8, asciiToLower c = asciiToLower (byte '\n') → c = byte '\n' := by
            apply Encoder.forall_byte
            decide +kernel
          exact hline (hlower c (UInt8.toNat_inj.mp hhead) ▸ List.mem_cons_self)
      · have hlarge := utf8ToLC_several l hone hlt
        rw [hbreak] at hlarge
        exact absurd hlarge (by decide)
    · rw [List.length_cons] at hk
      have hpos := utf8ToLC_pos l tx
      have hlater := ih (fun c hc => hascii c (List.mem_cons_of_mem _ hc))
        (fun hnul' => hnul (List.mem_cons_of_mem _ hnul')) (fun hline' => hline (List.mem_cons_of_mem _ hline')) hrest
        (show k - (utf8ToLC l tx).2 < px.length by omega)
      rw [List.getD_eq_getElem?_getD, List.getElem?_drop, ← List.getD_eq_getElem?_getD,
        Nat.add_sub_cancel' (not_lt.mp hlt)] at hlater
      exact hlater

example : findSubString ascii (str "LOCATION: x") (str "Location") 0 = some 0 := by decide +kernel

end Dcpp.Util
