import Mathlib.Data.List.TakeWhile
import Dcpp.SdExEscape

-- When `get_data` gives back what `escape_data` has escaped.
namespace Dcpp.Bdcpp

theorem escapeLoop_nil : escapeLoop [] = [] := by rw [escapeLoop]

theorem escapeLoop_backslash (c : UInt8) (s : Bytes) :
    escapeLoop (byte '\\' :: c :: s) = byte '\\' :: c :: escapeLoop s := by
  rw [escapeLoop, if_pos rfl]

theorem escapeLoop_unreadable {c : UInt8} (h : unreadable c = true) (s : Bytes) :
    escapeLoop (c :: s) = byte '#' :: (charToHex c ++ (s.takeWhile unreadable).flatMap charToHex ++
      byte '#' :: escapeLoop (s.dropWhile unreadable)) := by
  have hne : c ≠ byte '\\' := by
    rintro rfl
    exact absurd h (by decide)
  rw [escapeLoop.eq_def]
  dsimp only
  rw [if_neg hne, if_pos h]

theorem escapeLoop_readable {c : UInt8} (h : unreadable c = false) (hne : c ≠ byte '\\') (s : Bytes) :
    escapeLoop (c :: s) = c :: escapeLoop s := by
  rw [escapeLoop.eq_def]
  dsimp only
  rw [if_neg hne, if_neg (by simp [h])]

theorem checkEscapeLoop_nil : checkEscapeLoop [] = [] := by rw [checkEscapeLoop]

theorem checkEscapeLoop_backslash (c : UInt8) (s : Bytes) :
    checkEscapeLoop (byte '\\' :: c :: s) = byte '\\' :: c :: checkEscapeLoop s := by
  rw [checkEscapeLoop, if_pos rfl]

theorem checkEscapeLoop_last : checkEscapeLoop [byte '\\'] = [byte '\\'] := by
  rw [checkEscapeLoop, if_pos rfl]

theorem checkEscapeLoop_char {c : UInt8} (h : c ≠ byte '\\') (h' : c ≠ byte '#') (s : Bytes) :
    checkEscapeLoop (c :: s) = c :: checkEscapeLoop s := by
  rw [checkEscapeLoop.eq_def]
  dsimp only
  rw [if_neg h, if_neg h']

/-- What happens at a `#`. -/
theorem checkEscapeLoop_hash (s : Bytes) : checkEscapeLoop (byte '#' :: s) =
    match s.dropWhile isHex with
    | [] => byte '#' :: s.takeWhile isHex
    | d :: rest =>
      if d ≠ byte '#' then byte '#' :: (s.takeWhile isHex ++ d :: checkEscapeLoop rest)
      else if s.takeWhile isHex = [] then byte '#' :: checkEscapeLoop (d :: rest)
      else readHex (s.takeWhile isHex) ++ checkEscapeLoop rest := by
  rw [checkEscapeLoop.eq_def]
  dsimp only
  rw [if_neg (by decide), if_pos rfl]
  split
  next h => rw [h]
  next d rest h => rw [h]

/-- A run of digits between two `#`. -/
theorem checkEscapeLoop_run {hex : Bytes} (hne : hex ≠ []) (hhex : ∀ c ∈ hex, isHex c = true) (rest : Bytes) :
    checkEscapeLoop (byte '#' :: (hex ++ byte '#' :: rest)) = readHex hex ++ checkEscapeLoop rest := by
  have hstop : isHex (byte '#') = false := by decide
  have htake : (hex ++ byte '#' :: rest).takeWhile isHex = hex := by
    rw [List.takeWhile_append_of_pos hhex, List.takeWhile_cons_of_neg (by simp [hstop]), List.append_nil]
  have hdrop : (hex ++ byte '#' :: rest).dropWhile isHex = byte '#' :: rest := by
    rw [List.dropWhile_append_of_pos hhex, List.dropWhile_cons_of_neg (by simp [hstop])]
  rw [checkEscapeLoop_hash, htake, hdrop]
  dsimp only
  rw [if_neg (by simp), if_neg hne]

/-- What a `#` begins is given back with a `#` in front, unless a run of digits ends in another one. -/
theorem checkEscapeLoop_open {s : Bytes} (h : ∀ rest, s.dropWhile isHex ≠ byte '#' :: rest) :
    ∃ rest, checkEscapeLoop (byte '#' :: s) = byte '#' :: rest := by
  rw [checkEscapeLoop_hash]
  split
  next => exact ⟨_, rfl⟩
  next d rest hdrop =>
    have hd : d ≠ byte '#' := fun hd => h rest (hd ▸ hdrop)
    rw [if_pos hd]
    exact ⟨_, rfl⟩

theorem checkEscapeLoop_short {s : Bytes} (h : s.length < 3) : checkEscapeLoop s = s := by
  match s with
  | [] => exact checkEscapeLoop_nil
  | [c] =>
    by_cases hc : c = byte '\\'
    · rw [hc, checkEscapeLoop_last]
    · by_cases hh : c = byte '#'
      · rw [hh]
        decide +kernel
      · rw [checkEscapeLoop_char hc hh, checkEscapeLoop_nil]
  | [c, d] =>
    by_cases hc : c = byte '\\'
    · rw [hc, checkEscapeLoop_backslash, checkEscapeLoop_nil]
    · have hlast : checkEscapeLoop [d] = [d] := checkEscapeLoop_short (by simp)
      by_cases hh : c = byte '#'
      · subst hh
        rw [checkEscapeLoop_hash]
        by_cases hd : isHex d = true
        · simp [hd]
        · by_cases hd' : d = byte '#'
          · subst hd'
            simp [hd, hlast]
          · simp [hd, hd', checkEscapeLoop_nil]
      · rw [checkEscapeLoop_char hc hh, hlast]
  | _ :: _ :: _ :: _ => simp at h; omega

/-- What comes back of a character that is printed with `%X`. -/
def printed (c : UInt8) : UInt8 := if c ≥ 0x80 then 0xff else c

theorem hexDigit_plain : ∀ n < 16, isHex (Util.hexDigit n) = true ∧ Util.hexDigit n ≠ byte '\\' := by decide +kernel

/-- There are always two digits. -/
theorem charToHex_eq (c : UInt8) : ∃ m < 16, ∃ n < 16, charToHex c = [Util.hexDigit m, Util.hexDigit n] ∧
    UInt8.ofNat (16 * m + n) = printed c := by
  have hhigh : c.toNat / 16 < 16 := by
    have := c.toNat_lt
    omega
  have hlow : c.toNat % 16 < 16 := Nat.mod_lt _ (by decide)
  by_cases hwide : c ≥ 0x80
  · refine ⟨15, by decide, 15, by decide, ?_, ?_⟩
    · rw [charToHex, printHex, if_pos hwide]
      rfl
    · rw [printed, if_pos hwide]
      rfl
  · by_cases hcontrol : c < 16
    · have hlt := UInt8.lt_iff_toNat_lt.mp hcontrol
      refine ⟨0, by decide, c.toNat, hlt, ?_, ?_⟩
      · rw [charToHex, printHex, if_neg hwide, if_pos hcontrol]
        rfl
      · rw [printed, if_neg hwide, Nat.mul_zero, Nat.zero_add, UInt8.ofNat_toNat]
    · refine ⟨c.toNat / 16, hhigh, c.toNat % 16, hlow, ?_, ?_⟩
      · rw [charToHex, printHex, if_neg hwide, if_neg hcontrol]
        rfl
      · rw [printed, if_neg hwide, Nat.div_add_mod, UInt8.ofNat_toNat]

theorem charToHex_spec (c : UInt8) : ∃ a b, charToHex c = [a, b] ∧ isHex a = true ∧ isHex b = true ∧
    a ≠ byte '\\' ∧ b ≠ byte '\\' ∧ hexToChar [a, b] = printed c := by
  obtain ⟨m, hm, n, hn, heq, hvalue⟩ := charToHex_eq c
  obtain ⟨hma, hmb⟩ := hexDigit_plain m hm
  obtain ⟨hna, hnb⟩ := hexDigit_plain n hn
  exact ⟨_, _, heq, hma, hna, hmb, hnb, by rw [hexToChar, Util.fromHexEscape_digits hm hn, hvalue]⟩

theorem printed_ne_zero {c : UInt8} (h : c ≠ 0) : printed c ≠ 0 := by
  rw [printed]
  split
  · decide
  · exact h

theorem readHex_flatMap {s : Bytes} (h : 0 ∉ s) : readHex (s.flatMap charToHex) = s.map printed := by
  induction s with
  | nil => rfl
  | cons c s ih =>
    obtain ⟨hc, hs⟩ := List.ne_and_not_mem_of_not_mem_cons h
    obtain ⟨a, b, hab, -, -, -, -, hval⟩ := charToHex_spec c
    have hadd : addChar (hexToChar [a, b]) = [printed c] := by
      rw [hval, addChar, if_pos (printed_ne_zero (Ne.symm hc))]
    have hih := ih hs
    rw [List.flatMap_cons, hab, List.map_cons, ← hih]
    cases hrest : s.flatMap charToHex with
    | nil => simp [readHex, hadd]
    | cons d rest => simp [readHex, hadd]

end Dcpp.Bdcpp

namespace Dcpp.SdExBase

open Bdcpp

/-- A character, and whether it gets a backslash. -/
abbrev Item := Bool × UInt8

def backslashed (first : Bool) (c : UInt8) (s : Bytes) : Bool :=
  if c ∈ whitespace then first || s = [] else c ∈ formatCharacters

def items : Bool → Bytes → List Item
  | _, [] => []
  | first, c :: s => (backslashed first c s, c) :: items false s

/-- Characters that are written as digits. -/
def hexed (i : Item) : Bool := !i.1 && unreadable i.2

/-- The items as they are written, inside a run of digits or not; `keep` tells whether the backslashes are there. -/
def coded (keep : Bool) : Bool → List Item → Bytes
  | inRun, [] => if inRun then [byte '#'] else []
  | inRun, i :: is =>
    if hexed i then (if inRun then [] else [byte '#']) ++ charToHex i.2 ++ coded keep true is
    else (if inRun then [byte '#'] else []) ++ (if keep && i.1 then [byte '\\'] else []) ++ i.2 :: coded keep false is

/-- A backslash gets a backslash, and a `#` gets none. -/
def Proper (is : List Item) : Prop := ∀ i ∈ is, (i.2 = byte '\\' → i.1 = true) ∧ (i.1 = true → i.2 ≠ byte '#')

theorem items_snd (first : Bool) (s : Bytes) : (items first s).map Prod.snd = s := by
  induction s generalizing first with
  | nil => rfl
  | cons c s ih => rw [items, List.map_cons, ih]

theorem items_proper (first : Bool) (s : Bytes) : Proper (items first s) := by
  induction s generalizing first with
  | nil => exact fun i h => absurd h List.not_mem_nil
  | cons c s ih =>
    intro i hi
    obtain rfl | hi := List.mem_cons.mp hi
    · refine ⟨?_, ?_⟩
      · rintro (rfl : c = byte '\\')
        exact (by decide : decide (byte '\\' ∈ formatCharacters) = true)
      · rintro h (rfl : c = byte '#')
        exact absurd h (by simp [backslashed, show byte '#' ∉ whitespace by decide,
          show byte '#' ∉ formatCharacters by decide])
    · exact ih false i hi

theorem Proper.tail {i : Item} {is : List Item} (h : Proper (i :: is)) : Proper is :=
  fun j hj => h j (List.mem_cons_of_mem i hj)

theorem not_hexed_backslash {i : Item} (h : i.2 = byte '\\') : hexed i = false := by
  rw [hexed, h]
  simp [show unreadable (byte '\\') = false by decide]

/-- A `#` is written as digits. -/
theorem Proper.hexed_hash {i : Item} {is : List Item} (h : Proper (i :: is)) (hi : i.2 = byte '#') : hexed i = true := by
  have hnot : i.1 = false := Bool.eq_false_iff.mpr fun h' => (h i List.mem_cons_self).2 h' hi
  rw [hexed, hi, hnot]
  decide

theorem escapeFormat_items (first : Bool) (s : Bytes) :
    escapeFormat first s = (items first s).flatMap fun i => if i.1 then [byte '\\', i.2] else [i.2] := by
  induction s generalizing first with
  | nil => rfl
  | cons c s ih =>
    rw [escapeFormat, items, List.flatMap_cons, ← ih, backslashed]
    by_cases hw : c ∈ whitespace
    · cases first <;> by_cases hs : s = [] <;> simp [hw, hs]
    · by_cases hf : c ∈ formatCharacters <;> simp [hw, hf]

/-- `escape` writes the items, and those behind a run of digits. -/
theorem escapeLoop_items {is : List Item} (h : Proper is) :
    let s := is.flatMap fun i => if i.1 then [byte '\\', i.2] else [i.2]
    escapeLoop s = coded true false is ∧
      (s.takeWhile unreadable).flatMap charToHex ++ byte '#' :: escapeLoop (s.dropWhile unreadable) =
        coded true true is := by
  induction is with
  | nil => simp [escapeLoop_nil, coded]
  | cons i is ih =>
    obtain ⟨ihout, ihrun⟩ := ih h.tail
    obtain ⟨b, c⟩ := i
    have hc := h (b, c) List.mem_cons_self
    have hstop : unreadable (byte '\\') = false := by decide
    cases b with
    | true => simp [coded, hexed, escapeLoop_backslash, ihout, hstop]
    | false =>
      have hne : c ≠ byte '\\' := fun hc' => Bool.false_ne_true (hc.1 hc')
      cases hu : unreadable c with
      | true =>
        simp [coded, hexed, hu, escapeLoop_unreadable hu, ihrun]
      | false => simp [coded, hexed, hu, escapeLoop_readable hu hne, ihout]

theorem readEscapes_append {u : Bytes} (h : byte '\\' ∉ u) (v : Bytes) :
    readEscapes (u ++ v) = u ++ readEscapes v := by
  induction u with
  | nil => rfl
  | cons c u ih =>
    obtain ⟨hc, hu⟩ := List.ne_and_not_mem_of_not_mem_cons h
    rw [List.cons_append, readEscapes.eq_def]
    dsimp only
    rw [if_neg (Ne.symm hc), ih hu, List.cons_append]

theorem backslash_not_mem_charToHex (c : UInt8) : byte '\\' ∉ charToHex c := by
  obtain ⟨a, b, hab, -, -, ha, hb, -⟩ := charToHex_spec c
  rw [hab]
  simp [Ne.symm ha, Ne.symm hb]

/-- The backslashes are taken away, and nothing else. -/
theorem readEscapes_coded {is : List Item} (h : Proper is) (inRun : Bool) :
    readEscapes (coded true inRun is) = coded false inRun is := by
  induction is generalizing inRun with
  | nil => cases inRun <;> decide
  | cons i is ih =>
    have hih := ih h.tail
    have hrun : byte '\\' ∉ (if inRun then [byte '#'] else []) := by cases inRun <;> decide
    have hstart : byte '\\' ∉ (if inRun then [] else [byte '#']) := by cases inRun <;> decide
    rw [coded, coded]
    split
    next hx =>
      rw [List.append_assoc, readEscapes_append hstart, readEscapes_append (backslash_not_mem_charToHex _), hih,
        List.append_assoc]
    next hx =>
      rw [List.append_assoc, readEscapes_append hrun]
      obtain ⟨b, c⟩ := i
      cases b with
      | true => simp [readEscapes, hih]
      | false =>
        have hne : c ≠ byte '\\' := fun hc => Bool.false_ne_true ((h (false, c) List.mem_cons_self).1 hc)
        have hmem : byte '\\' ∉ [c] := by simpa using Ne.symm hne
        simpa [hih] using readEscapes_append hmem (coded true false is)

/-- The last character is no whitespace, or it is whitespace with a backslash. -/
def Closed (s : Bytes) : Prop :=
  (∃ u c, s = u ++ [c] ∧ c ∉ whitespace) ∨ ∃ u c, s = u ++ [byte '\\', c] ∧ c ∈ whitespace

theorem Closed.append {s : Bytes} (h : Closed s) (u : Bytes) : Closed (u ++ s) := by
  obtain ⟨v, c, rfl, hc⟩ | ⟨v, c, rfl, hc⟩ := h
  · exact Or.inl ⟨u ++ v, c, by rw [List.append_assoc], hc⟩
  · exact Or.inr ⟨u ++ v, c, by rw [List.append_assoc], hc⟩

/-- Nothing is stripped off a range whose ends are no bare whitespace. -/
theorem stripped_closed {c : UInt8} {s : Bytes} (hc : c ∉ whitespace) (h : Closed (c :: s)) :
    stripped (c :: s) = c :: s := by
  have hbegin : strfndfstnof (c :: s) whitespace = some 0 := by
    rw [strfndfstnof, if_neg (by simp [whitespace, str])]
    simp [List.findIdx?_cons, hc]
  have hwhite : whitespace ≠ [] := by decide
  have hback : byte '\\' ∉ whitespace := by decide
  have hend : (stripWhitespace (c :: s)).2 = (c :: s).length := by
    rw [stripWhitespace, hbegin]
    dsimp only
    rw [List.drop_zero]
    obtain ⟨u, d, heq, hd⟩ | ⟨u, d, heq, hd⟩ := h
    · have hlast : strfndlstnof (c :: s) whitespace = some u.length := by
        rw [strfndlstnof, if_neg (by simp [hwhite]), heq]
        exact findLast_eq_some (by simpa using hd) [] fun x hx => absurd hx List.not_mem_nil
      rw [hlast, heq]
      simp
    · have hlast : strfndlstnof (c :: s) whitespace = some u.length := by
        rw [strfndlstnof, if_neg (by simp [hwhite]), heq]
        refine findLast_eq_some (by simpa using hback) [d] fun x hx => ?_
        simpa [List.mem_singleton.mp hx] using hd
      rw [hlast, heq]
      simp
  have hzero : (stripWhitespace (c :: s)).1 = 0 := by
    rw [stripWhitespace, hbegin]
    dsimp only
    split <;> rfl
  rw [stripped, hend, hzero, List.take_length, List.drop_zero]

/-- What is written of items whose last one has a backslash if it is whitespace. -/
theorem coded_closed {is : List Item} {i : Item} (hlast : i.2 ∈ whitespace → i.1 = true) (inRun : Bool) :
    Closed (coded true inRun (is ++ [i])) := by
  induction is generalizing inRun with
  | nil =>
    rw [List.nil_append, coded]
    split
    next => exact Or.inl ⟨_, byte '#', rfl, by decide⟩
    next =>
      by_cases hw : i.2 ∈ whitespace
      · have hclosed : Closed [byte '\\', i.2] := Or.inr ⟨[], i.2, rfl, hw⟩
        simpa [hlast hw, coded] using hclosed.append (if inRun then [byte '#'] else [])
      · exact Or.inl ⟨_, i.2, rfl, hw⟩
  | cons j is ih =>
    rw [List.cons_append, coded]
    split
    next => exact (ih true).append _
    next =>
      rw [List.append_cons]
      exact (ih false).append _

/-- A run of digits is closed where the items that are written as digits end. -/
theorem coded_run (keep : Bool) (is : List Item) : coded keep true is =
    ((is.takeWhile hexed).map Prod.snd).flatMap charToHex ++ byte '#' :: coded keep false (is.dropWhile hexed) := by
  induction is with
  | nil => rfl
  | cons i is ih =>
    cases hi : hexed i with
    | true => simp [coded, hi, ih]
    | false => simp [coded, hi]

theorem coded_hexed {i : Item} (h : hexed i = true) (keep inRun : Bool) (is : List Item) :
    coded keep inRun (i :: is) = (if inRun then [] else [byte '#']) ++ charToHex i.2 ++ coded keep true is := by
  rw [coded, if_pos h]

theorem coded_char {i : Item} (h : hexed i = false) (is : List Item) :
    coded false false (i :: is) = i.2 :: coded false false is := by
  simp [coded, h]

theorem charToHex_hash : charToHex (byte '#') = [byte '2', byte '3'] := by decide

theorem not_hexed_digit {i : Item} {c : UInt8} (h : i.2 = c) (hc : unreadable c = false) : hexed i = false := by
  rw [hexed, h, hc, Bool.and_false]

theorem reopened (s : Bytes) :
    checkEscapeLoop (byte '#' :: byte '2' :: byte '3' :: byte '#' :: s) = byte '#' :: checkEscapeLoop s := by
  have hne : [byte '2', byte '3'] ≠ [] := by simp
  have hdigits : ∀ c ∈ [byte '2', byte '3'], isHex c = true := by
    simp [show isHex (byte '2') = true by decide, show isHex (byte '3') = true by decide]
  exact checkEscapeLoop_run hne hdigits s

/-- The digits of a `#` behind another one give it back, or they stay as they are. -/
theorem hash_again (s : Bytes) :
    ∃ rest, checkEscapeLoop (byte '#' :: byte '2' :: byte '3' :: s) = byte '#' :: rest := by
  have hdrop : (byte '2' :: byte '3' :: s).dropWhile isHex = s.dropWhile isHex := by
    rw [List.dropWhile_cons_of_pos (by decide), List.dropWhile_cons_of_pos (by decide)]
  by_cases h : ∃ rest, s.dropWhile isHex = byte '#' :: rest
  · obtain ⟨rest, hrest⟩ := h
    have hs : s = s.takeWhile isHex ++ byte '#' :: rest := by rw [← hrest, List.takeWhile_append_dropWhile]
    have hrun := checkEscapeLoop_run (List.cons_ne_nil (byte '2') (byte '3' :: s.takeWhile isHex))
      (by simpa [show isHex (byte '2') = true by decide, show isHex (byte '3') = true by decide] using
        fun c hc => List.mem_takeWhile_imp hc) rest
    rw [List.cons_append, List.cons_append, ← hs] at hrun
    rw [hrun]
    cases s.takeWhile isHex with
    | nil => exact ⟨_, rfl⟩
    | cons c hex => exact ⟨_, rfl⟩
  · refine checkEscapeLoop_open fun rest hrest => h ⟨rest, hdrop ▸ hrest⟩

/-- Behind a backslash, which takes the first `#` of a run with it, the characters never come back. First what is left of
the run is in front, then the `#` that was to close it. -/
theorem taken_ne {n : Nat} : ∀ {is : List Item}, is.length ≤ n → Proper is →
    checkEscapeLoop (byte '2' :: byte '3' :: coded false true is) ≠ is.map Prod.snd ∧
      checkEscapeLoop (byte '#' :: byte '2' :: byte '3' :: coded false false is) ≠ is.map Prod.snd := by
  induction n with
  | zero =>
    intro is hlen hp
    obtain rfl := List.length_eq_zero_iff.mp (Nat.le_zero.mp hlen)
    decide +kernel
  | succ n ih =>
    intro is hlen hp
    constructor
    · intro h
      rw [checkEscapeLoop_char (by decide) (by decide), checkEscapeLoop_char (by decide) (by decide)] at h
      cases is with
      | nil => cases h
      | cons i js =>
        rw [List.map_cons, List.cons.injEq] at h
        obtain ⟨hi, h⟩ := h
        have hx := not_hexed_digit hi.symm (by decide)
        simp only [coded, hx, Bool.false_and, Bool.false_eq_true, if_false, if_true, List.append_nil, List.cons_append,
          List.nil_append, ← hi] at h
        cases js with
        | nil => cases h
        | cons j ks =>
          rw [List.map_cons, List.cons.injEq] at h
          obtain ⟨hj, h⟩ := h
          rw [coded_char (not_hexed_digit hj.symm (by decide)), ← hj] at h
          simp only [List.length_cons] at hlen
          exact (ih (by omega) hp.tail.tail).2 h
    · intro h
      obtain ⟨rest, hrest⟩ := hash_again (coded false false is)
      cases is with
      | nil =>
        rw [h] at hrest
        cases hrest
      | cons i js =>
        have hi : i.2 = byte '#' := by
          rw [h, List.map_cons] at hrest
          exact (List.cons.inj hrest).1
        rw [coded_hexed (hp.hexed_hash hi), hi, charToHex_hash] at h
        simp only [Bool.false_eq_true, if_false, List.cons_append, List.nil_append, List.map_cons, reopened] at h
        simp only [List.length_cons] at hlen
        exact (ih (by omega) hp.tail).1 (List.cons.inj h).2

/-- No backslash takes the beginning of a run of digits with it. -/
def Apart : List Item → Prop
  | [] => True
  | i :: is =>
    if i.2 = byte '\\' then
      match is with
      | [] => True
      | j :: is => hexed j = false ∧ Apart is
    else Apart is

theorem apart_char {i : Item} (h : i.2 ≠ byte '\\') (is : List Item) : Apart (i :: is) ↔ Apart is := by
  rw [Apart.eq_def]
  dsimp only
  rw [if_neg h]

theorem apart_dropWhile (is : List Item) : Apart is ↔ Apart (is.dropWhile hexed) := by
  induction is with
  | nil => rfl
  | cons i is ih =>
    cases hi : hexed i with
    | true =>
      have hne : i.2 ≠ byte '\\' := fun h => absurd (hi.symm.trans (not_hexed_backslash h)) (by decide)
      rw [apart_char hne, ih, List.dropWhile_cons_of_pos hi]
    | false => rw [List.dropWhile_cons_of_neg (by simp [hi])]

theorem checkEscapeLoop_coded_run {i : Item} {is : List Item} (hx : hexed i = true) (hp : Proper (i :: is))
    (h0 : ∀ j ∈ i :: is, j.2 ≠ 0)
    (ih : Proper (is.dropWhile hexed) → (∀ j ∈ is.dropWhile hexed, j.2 ≠ 0) →
      (checkEscapeLoop (coded false false (is.dropWhile hexed)) = (is.dropWhile hexed).map Prod.snd ↔
        Apart (is.dropWhile hexed) ∧ ∀ j ∈ is.dropWhile hexed, hexed j = true → printed j.2 = j.2)) :
    checkEscapeLoop (coded false false (i :: is)) = (i :: is).map Prod.snd ↔
      Apart (i :: is) ∧ ∀ j ∈ i :: is, hexed j = true → printed j.2 = j.2 := by
  have hrest : ∀ j ∈ is.dropWhile hexed, j ∈ i :: is :=
    fun j hj => List.mem_cons_of_mem i ((List.dropWhile_suffix hexed).subset hj)
  have hrun : ∀ j ∈ i :: is.takeWhile hexed, j ∈ i :: is ∧ hexed j = true := by
    intro j hj
    obtain rfl | hj := List.mem_cons.mp hj
    · exact ⟨List.mem_cons_self, hx⟩
    · exact ⟨List.mem_cons_of_mem i ((List.takeWhile_prefix hexed).subset hj), List.mem_takeWhile_imp hj⟩
  have hsplit : i :: is = (i :: is.takeWhile hexed) ++ is.dropWhile hexed := by
    rw [List.cons_append, List.takeWhile_append_dropWhile]
  have hcoded : coded false false (i :: is) =
      byte '#' :: (((i :: is.takeWhile hexed).map Prod.snd).flatMap charToHex ++
        byte '#' :: coded false false (is.dropWhile hexed)) := by
    rw [coded_hexed hx, coded_run]
    simp
  have hne : ((i :: is.takeWhile hexed).map Prod.snd).flatMap charToHex ≠ [] := by
    obtain ⟨a, b, hab, -⟩ := charToHex_spec i.2
    simp [hab]
  have hhex : ∀ c ∈ ((i :: is.takeWhile hexed).map Prod.snd).flatMap charToHex, isHex c = true := by
    intro c hc
    obtain ⟨d, -, hd⟩ := List.mem_flatMap.mp hc
    obtain ⟨a, b, hab, ha, hb, -⟩ := charToHex_spec d
    rw [hab] at hd
    obtain rfl | hd := List.mem_cons.mp hd
    · exact ha
    · rwa [List.mem_singleton.mp hd]
  have hzero : 0 ∉ (i :: is.takeWhile hexed).map Prod.snd := by
    intro h
    obtain ⟨j, hj, hj0⟩ := List.mem_map.mp h
    exact h0 j (hrun j hj).1 hj0
  have hapart : Apart (i :: is) ↔ Apart (is.dropWhile hexed) := by
    rw [apart_dropWhile, List.dropWhile_cons_of_pos hx]
  have hih := ih (fun j hj => hp j (hrest j hj)) fun j hj => h0 j (hrest j hj)
  rw [hcoded, checkEscapeLoop_run hne hhex, readHex_flatMap hzero, hapart]
  have hmap : (i :: is).map Prod.snd =
      (i :: is.takeWhile hexed).map Prod.snd ++ (is.dropWhile hexed).map Prod.snd := by
    rw [← List.map_append, ← hsplit]
  have hprinted : ((i :: is.takeWhile hexed).map Prod.snd).map printed = (i :: is.takeWhile hexed).map Prod.snd ↔
      ∀ j ∈ i :: is.takeWhile hexed, printed j.2 = j.2 := by
    rw [List.map_map, List.map_inj_left]
    rfl
  rw [hmap]
  constructor
  · intro h
    obtain ⟨hfront, hback⟩ := List.append_inj h (by simp)
    obtain ⟨hap, hall⟩ := hih.mp hback
    refine ⟨hap, fun j hj hxj => ?_⟩
    rw [hsplit] at hj
    obtain hj | hj := List.mem_append.mp hj
    · exact hprinted.mp hfront j hj
    · exact hall j hj hxj
  · rintro ⟨hap, hall⟩
    rw [hprinted.mpr fun j hj => hall j (hrun j hj).1 (hrun j hj).2,
      hih.mpr ⟨hap, fun j hj hxj => hall j (hrest j hj) hxj⟩]

/-- The characters come back when no backslash takes a run, and those that are printed come back themselves. -/
theorem checkEscapeLoop_coded {n : Nat} : ∀ {is : List Item}, is.length ≤ n → Proper is → (∀ i ∈ is, i.2 ≠ 0) →
    (checkEscapeLoop (coded false false is) = is.map Prod.snd ↔
      Apart is ∧ ∀ i ∈ is, hexed i = true → printed i.2 = i.2) := by
  induction n with
  | zero =>
    intro is hlen _ _
    obtain rfl := List.length_eq_zero_iff.mp (Nat.le_zero.mp hlen)
    exact iff_of_true checkEscapeLoop_nil ⟨trivial, fun i h => absurd h List.not_mem_nil⟩
  | succ n ih =>
    intro is hlen hp h0
    cases is with
    | nil => exact iff_of_true checkEscapeLoop_nil ⟨trivial, fun i h => absurd h List.not_mem_nil⟩
    | cons i is =>
      simp only [List.length_cons] at hlen
      cases hx : hexed i with
      | true => exact checkEscapeLoop_coded_run hx hp h0 (ih ((List.dropWhile_suffix hexed).length_le.trans (by omega)))
      | false =>
        rw [coded_char hx]
        by_cases hi : i.2 = byte '\\'
        · cases is with
          | nil =>
            refine iff_of_true ?_ ⟨?_, ?_⟩
            · rw [hi, List.map_cons, hi]
              exact checkEscapeLoop_last
            · rw [Apart, if_pos hi]
              trivial
            · intro j hj hx'
              rw [List.mem_singleton.mp hj, hx] at hx'
              cases hx'
          | cons j js =>
            rw [Apart, if_pos hi, hi, List.map_cons, hi]
            cases hxj : hexed j with
            | true =>
              refine iff_of_false (fun h => ?_) fun h => absurd h.1.1 (by simp)
              rw [coded_hexed hxj] at h
              simp only [Bool.false_eq_true, if_false, List.cons_append, List.nil_append, checkEscapeLoop_backslash,
                List.cons.injEq, true_and, List.map_cons] at h
              rw [← h.1, charToHex_hash] at h
              exact (taken_ne (Nat.le_refl _) hp.tail.tail).1 h.2
            | false =>
              rw [coded_char hxj, checkEscapeLoop_backslash, List.map_cons]
              simp only [List.length_cons] at hlen
              have hle : js.length ≤ n := by omega
              have hih := ih hle hp.tail.tail fun k hk => h0 k (by simp [hk])
              simp only [List.cons.injEq, true_and, hih]
              simp [hx, hxj]
        · have hne : i.2 ≠ byte '#' := fun h => absurd (hx.symm.trans (hp.hexed_hash h)) (by decide)
          have hih := ih (by omega) hp.tail fun k hk => h0 k (List.mem_cons_of_mem i hk)
          rw [checkEscapeLoop_char hi hne, List.map_cons, List.cons.injEq, apart_char hi, hih]
          simp [hx]

/-- From the left, where a backslash takes the next character with it, none takes a `#` or a character that is hard to
read. At the end whitespace is not written as digits. -/
def TakesReadable : Bytes → Prop
  | [] => True
  | c :: s =>
    if c = byte '\\' then
      match s with
      | [] => True
      | c' :: s => (unreadable c' = true → s = [] ∧ c' ∈ whitespace) ∧ TakesReadable s
    else TakesReadable s

theorem plain_characters :
    (∀ c ∈ formatCharacters, unreadable c = false ∧ c < 0x80) ∧ ∀ c ∈ whitespace, c < 0x80 := by
  decide +kernel

theorem hexed_item (c : UInt8) (s : Bytes) :
    hexed (backslashed false c s, c) = false ↔ (unreadable c = true → s = [] ∧ c ∈ whitespace) := by
  rw [hexed, backslashed]
  by_cases hw : c ∈ whitespace
  · by_cases hs : s = [] <;> simp [hw, hs]
  · by_cases hf : c ∈ formatCharacters
    · simp [hw, hf, (plain_characters.1 c hf).1]
    · simp [hw, hf]

theorem apart_items {n : Nat} : ∀ {s : Bytes}, s.length ≤ n → ∀ first, Apart (items first s) ↔ TakesReadable s := by
  induction n with
  | zero =>
    intro s hlen first
    obtain rfl := List.length_eq_zero_iff.mp (Nat.le_zero.mp hlen)
    rfl
  | succ n ih =>
    intro s hlen first
    cases s with
    | nil => rfl
    | cons c s =>
      simp only [List.length_cons] at hlen
      rw [items, Apart.eq_def, TakesReadable.eq_def]
      dsimp only
      by_cases hc : c = byte '\\'
      · rw [if_pos hc, if_pos hc]
        cases s with
        | nil => rfl
        | cons d s =>
          simp only [List.length_cons] at hlen
          exact and_congr (hexed_item d s) (ih (by omega) false)
      · rw [if_neg hc, if_neg hc]
        exact ih (by omega) false

theorem items_ascii (first : Bool) (s : Bytes) : ∀ i ∈ items first s, i.1 = true → i.2 < 0x80 := by
  induction s generalizing first with
  | nil => exact fun i h => absurd h List.not_mem_nil
  | cons c s ih =>
    intro i hi hb
    obtain rfl | hi := List.mem_cons.mp hi
    · by_cases hw : c ∈ whitespace
      · exact plain_characters.2 c hw
      · simp [backslashed, hw] at hb
        exact (plain_characters.1 c hb).2
    · exact ih false i hi hb

theorem printed_eq_iff (c : UInt8) : printed c = c ↔ c < 0x80 ∨ c = 0xff := by
  rw [printed]
  split
  next h => simp [UInt8.not_lt.mpr h, eq_comm]
  next h => simp [UInt8.not_le.mp h]

theorem printed_items (first : Bool) (s : Bytes) :
    (∀ i ∈ items first s, hexed i = true → printed i.2 = i.2) ↔ ∀ c ∈ s, c < 0x80 ∨ c = 0xff := by
  constructor
  · intro h c hc
    rw [← items_snd first s] at hc
    obtain ⟨i, hi, rfl⟩ := List.mem_map.mp hc
    by_cases hlt : i.2 < 0x80
    · exact Or.inl hlt
    · have hb : i.1 = false := Bool.eq_false_iff.mpr fun hb => hlt (items_ascii first s i hi hb)
      have hu : unreadable i.2 = true := by
        have hle : ¬i.2 < 0x7f := fun h => hlt (UInt8.lt_trans h (by decide))
        simp [unreadable, hle]
      exact (printed_eq_iff i.2).mp (h i hi (by simp [hexed, hb, hu]))
  · intro h i hi _
    refine (printed_eq_iff i.2).mpr (h i.2 ?_)
    rw [← items_snd first s]
    exact List.mem_map_of_mem hi

/-- What is written of a string is not changed by the stripping of whitespace. -/
theorem stripped_coded (s : Bytes) : stripped (coded true false (items true s)) = coded true false (items true s) := by
  cases s with
  | nil => decide
  | cons c s =>
    have hclosed : Closed (coded true false (items true (c :: s))) := by
      have hlast : ∀ (first : Bool) (c : UInt8) (s : Bytes), ∃ is i, items first (c :: s) = is ++ [i] ∧
          (i.2 ∈ whitespace → i.1 = true) := by
        intro first c s
        induction s generalizing first c with
        | nil => exact ⟨[], (backslashed first c [], c), rfl, fun h => by simp [backslashed, show c ∈ whitespace from h]⟩
        | cons d s ih =>
          obtain ⟨is, i, his, hi⟩ := ih false d
          exact ⟨(backslashed first c (d :: s), c) :: is, i, by rw [items, his, List.cons_append], hi⟩
      obtain ⟨is, i, his, hi⟩ := hlast true c s
      rw [his]
      exact coded_closed hi false
    obtain ⟨d, t, hd, hdt⟩ : ∃ d t, coded true false (items true (c :: s)) = d :: t ∧ d ∉ whitespace := by
      rw [items, coded]
      split
      next => exact ⟨_, _, rfl, by decide⟩
      next =>
        by_cases hb : backslashed true c s = true
        · exact ⟨byte '\\', c :: coded true false (items false s), by simp [hb], by decide⟩
        · exact ⟨c, coded true false (items false s), by simp [hb], fun hw => hb (by simp [backslashed, hw])⟩
    rw [hd] at hclosed ⊢
    exact stripped_closed hdt hclosed

theorem get_data_escape_data (toLower : Bytes → Bytes) (s : Bytes) :
    get_data toLower (escape_data s) false true true = checkEscapeLoop (coded false false (items true s)) := by
  have hescape : escape_data s = coded true false (items true s) := by
    cases s with
    | nil => rfl
    | cons c s =>
      have hne : escapeFormat true (c :: s) ≠ [] := by
        rw [escapeFormat]
        split_ifs <;> simp
      rw [escape_data, if_neg (by simp), escape, if_neg hne, escapeFormat_items]
      exact (escapeLoop_items (items_proper true (c :: s))).1
  rw [get_data, hescape]
  simp only [if_true, Bool.false_eq_true, if_false, stripped_coded, readEscapes_coded (items_proper true s)]
  rw [checkEscape]
  split
  next h => exact (checkEscapeLoop_short h).symm
  next => rfl

/-- The round trip gives the string back if and only if no backslash in it takes an unreadable character with it and its
bytes are no negative characters but -1. -/
theorem get_data_escape_data_iff (toLower : Bytes → Bytes) {s : Bytes} (h : 0 ∉ s) :
    get_data toLower (escape_data s) false true true = s ↔ TakesReadable s ∧ ∀ c ∈ s, c < 0x80 ∨ c = 0xff := by
  have h0 : ∀ i ∈ items true s, i.2 ≠ 0 := by
    intro i hi hz
    apply h
    rw [← hz, ← items_snd true s]
    exact List.mem_map_of_mem hi
  have hiff := checkEscapeLoop_coded (Nat.le_refl _) (items_proper true s) h0
  rw [items_snd] at hiff
  rw [get_data_escape_data, hiff, apart_items (Nat.le_refl _), printed_items]

/-- Characters of both kinds side by side. -/
theorem get_data_escape_data_iff_mixed :
    get_data id (escape_data (str " \\\x7b#\t\x01, ")) false true true = str " \\\x7b#\t\x01, " :=
  (get_data_escape_data_iff id (by decide)).mpr ⟨by
    simp [TakesReadable, str, show byte ' ' ≠ byte '\\' by decide, show unreadable (byte '\x7b') = false by decide,
      show byte '#' ≠ byte '\\' by decide, show byte '\t' ≠ byte '\\' by decide,
      show byte '\x01' ≠ byte '\\' by decide, show byte ',' ≠ byte '\\' by decide], by decide +kernel⟩

/-- A backslash in front of a `#`. -/
theorem not_get_data_escape_data :
    ¬∀ s : Bytes, 0 ∉ s → get_data id (escape_data s) false true true = s := by
  intro h
  have := h (str "\\#") (by decide)
  revert this
  decide +kernel

end Dcpp.SdExBase
