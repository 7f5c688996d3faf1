import Mathlib.Data.List.Lex
import Dcpp.ShareTree
import Dcpp.Utf8

-- The comparison and the hash of strings without their case.
namespace Dcpp.Util

open Text

/-- The width of `wchar_t`, and `Text::toLower` of one, which only takes NUL to NUL. -/
structure Locale where
  wcharBits : Nat
  toLower : Nat → Nat
  wide : 16 ≤ wcharBits
  lt : ∀ c, toLower c < 2 ^ 31
  nul : ∀ c, toLower c = 0 ↔ c = 0

variable (l : Locale)

theorem length_drop_utf8ToWc (wcharBits : Nat) {s : Bytes} (hs : s ≠ []) :
    (s.drop (utf8ToWc wcharBits s).1.natAbs).length < s.length := by
  obtain ⟨hpos, hle⟩ := utf8ToWc_length wcharBits hs
  rw [List.length_drop]
  omega

/-- The loop of `stricmp`; both strings go up to the NUL behind them. It is undefined to read behind that. -/
def stricmpLoop (a b : Bytes) : Option Int :=
  if _h : a = [] ∨ b = [] then none
  else
    let ra := utf8ToWc l.wcharBits a
    let rb := utf8ToWc l.wcharBits b
    if a.headD 0 = 0 then some ((l.toLower ra.2 : Int) - l.toLower rb.2)
    else if l.toLower ra.2 ≠ l.toLower rb.2 then some ((l.toLower ra.2 : Int) - l.toLower rb.2)
    else stricmpLoop (a.drop ra.1.natAbs) (b.drop rb.1.natAbs)
termination_by a.length
decreasing_by exact length_drop_utf8ToWc l.wcharBits fun ha => _h (Or.inl ha)

def stricmp (a b : Bytes) : Option Int := stricmpLoop l (a ++ [0]) (b ++ [0])

def noCaseStringEq (a b : Bytes) : Bool := stricmp l a b = some 0

def noCaseStringHashLoop (x : UInt64) (s : Bytes) : UInt64 :=
  if h : s = [] then x
  else
    let r := utf8ToWc l.wcharBits s
    if r.1 < 0 then noCaseStringHashLoop (x * 32 - x + (byte '_').toUInt64) (s.drop r.1.natAbs)
    else noCaseStringHashLoop (x * 32 - x + UInt64.ofNat (l.toLower r.2)) (s.drop r.1.natAbs)
termination_by s.length
decreasing_by all_goals exact length_drop_utf8ToWc l.wcharBits h

def noCaseStringHash (s : Bytes) : UInt64 := noCaseStringHashLoop l 0 s

/-- The characters of a string as they are decoded, one after the other. -/
def characters (s : Bytes) : List (Int × Nat) :=
  if _h : s = [] then []
  else
    let r := utf8ToWc l.wcharBits s
    r :: characters (s.drop r.1.natAbs)
termination_by s.length
decreasing_by exact length_drop_utf8ToWc l.wcharBits _h

/-- A character that the comparison and the hash take for the same: it has a code, and if it is invalid its code is
the one that the hash has for it. -/
def Plain (x : Int × Nat) : Prop := x.2 ≠ 0 ∧ (x.1 < 0 → l.toLower x.2 = '_'.toNat)

/-- What is compared of a string. -/
def fold (s : Bytes) : List Nat := (characters l s).map fun x => l.toLower x.2

/-- The difference of two strings at the first place at which they differ, with NUL behind them. -/
def foldDifference : List Nat → List Nat → Int
  | [], [] => 0
  | [], y :: _ => -y
  | x :: _, [] => x
  | x :: xs, y :: ys => if x = y then foldDifference xs ys else x - y

theorem foldDifference_le_zero {xs ys : List Nat} (hx : ∀ x ∈ xs, x ≠ 0) (hy : ∀ y ∈ ys, y ≠ 0) :
    foldDifference xs ys ≤ 0 ↔ xs ≤ ys := by
  rw [← not_lt (a := ys)]
  fun_induction foldDifference xs ys with
  | case1 => simp
  | case2 y ys => simp
  | case3 x xs =>
    have hne := hx x List.mem_cons_self
    simp
    omega
  | case4 xs y ys ih =>
    rw [ih (fun x h => hx x (List.mem_cons_of_mem y h)) (fun x h => hy x (List.mem_cons_of_mem y h))]
    simp
  | case5 x xs y ys hne =>
    have hlt : y :: ys < x :: xs ↔ y < x := by simp [List.cons_lt_cons_iff, Ne.symm hne]
    rw [hlt]
    omega

theorem foldDifference_eq_zero {xs ys : List Nat} (hx : ∀ x ∈ xs, x ≠ 0) (hy : ∀ y ∈ ys, y ≠ 0) :
    foldDifference xs ys = 0 ↔ xs = ys := by
  fun_induction foldDifference xs ys with
  | case1 => simp
  | case2 y ys => simpa using hy y List.mem_cons_self
  | case3 x xs => simpa using hx x List.mem_cons_self
  | case4 xs y ys ih =>
    rw [ih (fun x h => hx x (List.mem_cons_of_mem y h)) (fun x h => hy x (List.mem_cons_of_mem y h))]
    simp
  | case5 x xs y ys hne =>
    simp [hne]
    omega

/-- The strings that are spelled with plain characters and with those that are `further`. -/
def Spelled (further : Int × Nat → Prop) (s : Bytes) : Prop := ∀ x ∈ characters l s, Plain l x ∨ further x

def stricmpLe (a b : Bytes) : Prop := ∃ d ∈ stricmp l a b, d ≤ 0

/-- What containers need of their keys. -/
structure Lawful (keys : Bytes → Prop) : Prop where
  defined : ∀ a b, keys a → keys b → (stricmp l a b).isSome
  hash : ∀ a b, keys a → keys b → noCaseStringEq l a b → noCaseStringHash l a = noCaseStringHash l b
  refl : ∀ a, keys a → noCaseStringEq l a a
  symm : ∀ a b, keys a → keys b → noCaseStringEq l a b → noCaseStringEq l b a
  trans : ∀ a b c, keys a → keys b → keys c → noCaseStringEq l a b → noCaseStringEq l b c → noCaseStringEq l a c
  le_total : ∀ a b, keys a → keys b → stricmpLe l a b ∨ stricmpLe l b a
  le_trans : ∀ a b c, keys a → keys b → keys c → stricmpLe l a b → stricmpLe l b c → stricmpLe l a c
  consistent : ∀ a b, keys a → keys b → (noCaseStringEq l a b ↔ stricmpLe l a b ∧ stricmpLe l b a)

theorem characters_nil : characters l [] = [] := by
  rw [characters]
  simp

theorem characters_of_ne {s : Bytes} (hs : s ≠ []) :
    characters l s = utf8ToWc l.wcharBits s :: characters l (s.drop (utf8ToWc l.wcharBits s).1.natAbs) := by
  rw [characters, dif_neg hs]

theorem utf8ToWc_zero {s : Bytes} (h : s.headD 0 = 0) : utf8ToWc l.wcharBits s = (1, 0) := by
  have hhead : (s.headD 0).toNat = 0 := by
    rw [h]
    rfl
  rw [utf8ToWc_ascii l.wcharBits (by omega), hhead]

theorem drop_nul {s : Bytes} (hs : s ≠ []) :
    (s ++ [0]).drop (utf8ToWc l.wcharBits s).1.natAbs = s.drop (utf8ToWc l.wcharBits s).1.natAbs ++ [0] := by
  apply List.drop_append_of_le_length
  exact (utf8ToWc_length l.wcharBits hs).2

/-- One step of the loop, from two places that are not behind the ends. -/
theorem stricmpLoop_nul (a b : Bytes) : stricmpLoop l (a ++ [0]) (b ++ [0]) =
    if a.headD 0 ≠ 0 ∧ l.toLower (utf8ToWc l.wcharBits a).2 = l.toLower (utf8ToWc l.wcharBits b).2 then
      stricmpLoop l ((a ++ [0]).drop (utf8ToWc l.wcharBits a).1.natAbs) ((b ++ [0]).drop (utf8ToWc l.wcharBits b).1.natAbs)
    else some ((l.toLower (utf8ToWc l.wcharBits a).2 : Int) - l.toLower (utf8ToWc l.wcharBits b).2) := by
  have hhead : (a ++ [0]).headD 0 = a.headD 0 := by cases a <;> rfl
  rw [stricmpLoop, dif_neg (by simp)]
  simp only [utf8ToWc_nul, hhead]
  by_cases hzero : a.headD 0 = 0
  · simp only [hzero, if_true, ne_eq, not_true_eq_false, false_and, if_false]
  · rw [if_neg hzero]
    by_cases heq : l.toLower (utf8ToWc l.wcharBits a).2 = l.toLower (utf8ToWc l.wcharBits b).2
    · rw [if_neg (not_not_intro heq), if_pos ⟨hzero, heq⟩]
    · rw [if_pos heq, if_neg fun h => heq h.2]

theorem toLower_nul : l.toLower 0 = 0 := (l.nul 0).mpr rfl

/-- Both places are the same all the time. -/
theorem stricmp_self (a : Bytes) : stricmp l a a = some 0 := by
  rw [stricmp]
  induction hn : a.length using Nat.strong_induction_on generalizing a with
  | _ n ih =>
    subst hn
    rw [stricmpLoop_nul]
    by_cases hhead : a.headD 0 = 0
    · simp only [hhead, ne_eq, not_true_eq_false, false_and, if_false, Int.sub_self]
    · have ha : a ≠ [] := fun h => hhead (by rw [h]; rfl)
      rw [if_pos ⟨hhead, rfl⟩, drop_nul l ha]
      exact ih _ (length_drop_utf8ToWc l.wcharBits ha) _ rfl

/-- An empty string is compared with the first code of another one. -/
theorem stricmp_nil (b : Bytes) : stricmp l [] b = some (0 - (l.toLower (utf8ToWc l.wcharBits b).2 : Int)) := by
  rw [stricmp, stricmpLoop_nul, if_neg (by simp), utf8ToWc_zero l (s := []) rfl, toLower_nul]
  rfl

/-- Of plain strings the loop is over the codes in lower case. -/
theorem stricmpLoop_eq {a b : Bytes} (ha : ∀ x ∈ characters l a, Plain l x) (hb : ∀ x ∈ characters l b, Plain l x) :
    stricmpLoop l (a ++ [0]) (b ++ [0]) = some (foldDifference (fold l a) (fold l b)) := by
  induction hn : a.length using Nat.strong_induction_on generalizing a b with
  | _ n ih =>
    subst hn
    have hend : utf8ToWc l.wcharBits [] = (1, 0) := utf8ToWc_zero l rfl
    rw [stricmpLoop_nul]
    by_cases hae : a = []
    · subst hae
      by_cases hbe : b = []
      · simp [hbe, hend, fold, characters_nil, foldDifference, toLower_nul]
      · simp [hend, fold, characters_nil, characters_of_ne l hbe, foldDifference, toLower_nul]
    · rw [characters_of_ne l hae, List.forall_mem_cons] at ha
      have hcode : l.toLower (utf8ToWc l.wcharBits a).2 ≠ 0 := (l.nul _).not.mpr ha.1.1
      have hhead : a.headD 0 ≠ 0 := fun h => ha.1.1 (by rw [utf8ToWc_zero l h])
      by_cases hbe : b = []
      · simp [hbe, hend, hcode, fold, characters_nil, characters_of_ne l hae, foldDifference, toLower_nul]
      · rw [characters_of_ne l hbe, List.forall_mem_cons] at hb
        rw [drop_nul l hae, drop_nul l hbe, ih _ (length_drop_utf8ToWc l.wcharBits hae) ha.2 hb.2 rfl]
        simp only [hhead, ne_eq, not_false_eq_true, true_and, fold, characters_of_ne l hae, characters_of_ne l hbe,
          List.map_cons, foldDifference]
        exact (apply_ite some _ _ _).symm

theorem stricmp_eq {a b : Bytes} (ha : ∀ x ∈ characters l a, Plain l x) (hb : ∀ x ∈ characters l b, Plain l x) :
    stricmp l a b = some (foldDifference (fold l a) (fold l b)) := stricmpLoop_eq l ha hb

theorem noCaseStringHashLoop_nil (x : UInt64) : noCaseStringHashLoop l x [] = x := by
  rw [noCaseStringHashLoop]
  simp

/-- What the hash takes for a character. -/
def hashCode (x : Int × Nat) : Nat := if x.1 < 0 then '_'.toNat else l.toLower x.2

theorem noCaseStringHashLoop_of_ne (x : UInt64) {s : Bytes} (hs : s ≠ []) :
    noCaseStringHashLoop l x s = noCaseStringHashLoop l (x * 32 - x + UInt64.ofNat (hashCode l (utf8ToWc l.wcharBits s)))
      (s.drop (utf8ToWc l.wcharBits s).1.natAbs) := by
  have hlow : (byte '_').toUInt64 = UInt64.ofNat '_'.toNat := by decide
  rw [noCaseStringHashLoop, dif_neg hs, hashCode]
  split <;> simp only [*, if_true, if_false]

theorem hashCode_of_plain {x : Int × Nat} (hx : Plain l x) : hashCode l x = l.toLower x.2 := by
  rw [hashCode]
  split
  next hneg => exact (hx.2 hneg).symm
  next => rfl

theorem noCaseStringHash_eq {s : Bytes} (hs : ∀ x ∈ characters l s, Plain l x) :
    noCaseStringHash l s = (fold l s).foldl (fun x c => x * 32 - x + UInt64.ofNat c) 0 := by
  rw [noCaseStringHash]
  generalize (0 : UInt64) = x
  induction hn : s.length using Nat.strong_induction_on generalizing s x with
  | _ n ih =>
    subst hn
    by_cases hse : s = []
    · simp [hse, fold, characters_nil, noCaseStringHashLoop_nil]
    · rw [characters_of_ne l hse, List.forall_mem_cons] at hs
      rw [noCaseStringHashLoop_of_ne l x hse, ih _ (length_drop_utf8ToWc l.wcharBits hse) hs.2 _ rfl,
        hashCode_of_plain l hs.1]
      simp only [fold, characters_of_ne l hse, List.map_cons, List.foldl_cons]

theorem fold_ne_zero {s : Bytes} (hs : ∀ x ∈ characters l s, Plain l x) : ∀ c ∈ fold l s, c ≠ 0 := by
  intro c hc
  obtain ⟨x, hx, rfl⟩ := List.mem_map.mp hc
  exact (l.nul x.2).not.mpr (hs x hx).1

theorem noCaseStringEq_iff {a b : Bytes} (ha : ∀ x ∈ characters l a, Plain l x) (hb : ∀ x ∈ characters l b, Plain l x) :
    noCaseStringEq l a b = true ↔ fold l a = fold l b := by
  rw [noCaseStringEq, stricmp_eq l ha hb, decide_eq_true_eq, Option.some_inj]
  exact foldDifference_eq_zero (fold_ne_zero l ha) (fold_ne_zero l hb)

/-- The comparison of the share's names is this one, of plain names. -/
theorem stricmpEq_eq (toLower : Bytes → Bytes) {a b : Bytes} (ha : ∀ x ∈ characters l a, Plain l x)
    (hb : ∀ x ∈ characters l b, Plain l x) :
    ShareManager.Directory.stricmpEq ⟨toLower, fold l⟩ a b = noCaseStringEq l a b := by
  apply Bool.eq_iff_iff.mpr
  rw [noCaseStringEq_iff l ha hb]
  simp [ShareManager.Directory.stricmpEq]

theorem stricmpLe_iff {a b : Bytes} (ha : ∀ x ∈ characters l a, Plain l x) (hb : ∀ x ∈ characters l b, Plain l x) :
    stricmpLe l a b ↔ fold l a ≤ fold l b := by
  rw [← foldDifference_le_zero (fold_ne_zero l ha) (fold_ne_zero l hb), stricmpLe, stricmp_eq l ha hb]
  simp

/-- Plain keys are as good as the lists of their codes in lower case. -/
theorem lawful_of_plain {keys : Bytes → Prop} (h : ∀ s, keys s → ∀ x ∈ characters l s, Plain l x) : Lawful l keys where
  defined a b ha hb := by simp [stricmp_eq l (h a ha) (h b hb)]
  hash a b ha hb heq := by
    rw [noCaseStringEq_iff l (h a ha) (h b hb)] at heq
    rw [noCaseStringHash_eq l (h a ha), noCaseStringHash_eq l (h b hb), heq]
  refl a ha := (noCaseStringEq_iff l (h a ha) (h a ha)).mpr rfl
  symm a b ha hb heq := by
    rw [noCaseStringEq_iff l (h a ha) (h b hb)] at heq
    exact (noCaseStringEq_iff l (h b hb) (h a ha)).mpr heq.symm
  trans a b c ha hb hc hab hbc := by
    rw [noCaseStringEq_iff l (h a ha) (h b hb)] at hab
    rw [noCaseStringEq_iff l (h b hb) (h c hc)] at hbc
    exact (noCaseStringEq_iff l (h a ha) (h c hc)).mpr (hab.trans hbc)
  le_total a b ha hb := by
    rw [stricmpLe_iff l (h a ha) (h b hb), stricmpLe_iff l (h b hb) (h a ha)]
    exact le_total (fold l a) (fold l b)
  le_trans a b c ha hb hc := by
    rw [stricmpLe_iff l (h a ha) (h b hb), stricmpLe_iff l (h b hb) (h c hc), stricmpLe_iff l (h a ha) (h c hc)]
    exact le_trans
  consistent a b ha hb := by
    rw [noCaseStringEq_iff l (h a ha) (h b hb), stricmpLe_iff l (h a ha) (h b hb), stricmpLe_iff l (h b hb) (h a ha)]
    exact le_antisymm_iff

/-- Valid UTF-8 without NUL is plain, where a `wchar_t` holds every character. -/
theorem plain_of_encode (hwide : 21 ≤ l.wcharBits) {cs : List Char} (hnul : ∀ c ∈ cs, c.toNat ≠ 0) :
    ∀ x ∈ characters l (encode cs), Plain l x := by
  induction cs with
  | nil => simp [encode, characters_nil]
  | cons c cs ih =>
    obtain ⟨hc, hcs⟩ := List.forall_mem_cons.mp hnul
    have hpow : 2 ^ 21 ≤ 2 ^ l.wcharBits := Nat.pow_le_pow_right (by omega) hwide
    have hmod : c.toNat % 2 ^ l.wcharBits = c.toNat := by
      apply Nat.mod_eq_of_lt
      have hle := (toNat_le c).1
      omega
    have hne : encode (c :: cs) ≠ [] := by
      apply List.ne_nil_of_length_pos
      rw [encode, List.flatMap_cons, List.length_append, String.length_utf8EncodeChar]
      have hpos := c.utf8Size_pos
      omega
    have hfirst := utf8ToWc_encode (fits_of_wide hwide c) (encode cs)
    rw [hmod, ite_self] at hfirst
    change utf8ToWc l.wcharBits (encode (c :: cs)) = _ at hfirst
    rw [characters_of_ne l hne, hfirst, List.forall_mem_cons]
    constructor
    · exact ⟨hc, fun hneg => by dsimp only at hneg; omega⟩
    · change ∀ x ∈ characters l ((String.utf8EncodeChar c ++ encode cs).drop (Int.natAbs (String.utf8EncodeChar c).length)), _
      rw [Int.natAbs_natCast, List.drop_left]
      exact ih hcs

/-- A string of one character. -/
structure Single (s : Bytes) (x : Int × Nat) : Prop where
  ne : s ≠ []
  decoded : utf8ToWc l.wcharBits s = x
  ended : s.drop x.1.natAbs = []

theorem Single.characters_eq {s : Bytes} {x : Int × Nat} (h : Single l s x) : characters l s = [x] := by
  rw [characters_of_ne l h.ne, h.decoded, h.ended, characters_nil]

theorem Single.hash_eq {s : Bytes} {x : Int × Nat} (h : Single l s x) :
    noCaseStringHash l s = UInt64.ofNat (hashCode l x) := by
  rw [noCaseStringHash, noCaseStringHashLoop_of_ne l 0 h.ne, h.decoded, h.ended, noCaseStringHashLoop_nil]
  simp

/-- Every character of a string is a string of its own. -/
theorem exists_single {s : Bytes} {x : Int × Nat} (hx : x ∈ characters l s) : ∃ w, Single l w x := by
  induction hn : s.length using Nat.strong_induction_on generalizing s with
  | _ n ih =>
    subst hn
    by_cases hs : s = []
    · simp [hs, characters_nil] at hx
    · obtain ⟨hpos, hle⟩ := utf8ToWc_length l.wcharBits hs
      rw [characters_of_ne l hs, List.mem_cons] at hx
      obtain rfl | hx := hx
      · refine ⟨s.take (utf8ToWc l.wcharBits s).1.natAbs, ?_, utf8ToWc_take l.wcharBits s, ?_⟩
        · simp [hs]
          omega
        · simp
      · exact ih _ (length_drop_utf8ToWc l.wcharBits hs) hx rfl

/-- The codes that invalid characters leave have valid characters as well. -/
theorem exists_valid {c : Nat} (hc : c < 0x8000 ∨ c = 0xfffd) : ∃ v m, 0 < m ∧ Single l v (m, c) := by
  have hchar : (Char.ofNat c).toNat = c := by
    have hvalid : c.isValidChar := by
      rw [Nat.isValidChar]
      omega
    rw [Char.ofNat, dif_pos hvalid]
    rfl
  have hpow : 2 ^ 16 ≤ 2 ^ l.wcharBits := Nat.pow_le_pow_right (by omega) l.wide
  have hmod : c % 2 ^ l.wcharBits = c := Nat.mod_eq_of_lt (by omega)
  have hfits : Fits l.wcharBits (Char.ofNat c) := by
    rw [Fits, hchar, hmod]
    omega
  have hlen : 0 < (String.utf8EncodeChar (Char.ofNat c)).length := by
    rw [String.length_utf8EncodeChar]
    exact (Char.ofNat c).utf8Size_pos
  have hdecoded := utf8ToWc_encode hfits []
  rw [List.append_nil, hchar, hmod, ite_self] at hdecoded
  refine ⟨String.utf8EncodeChar (Char.ofNat c), _, ?_, List.length_pos_iff.mp hlen, hdecoded, ?_⟩
  · omega
  · simp

/-- Characters with the same code in lower case are the same for the comparison. -/
theorem Single.noCaseStringEq_iff {a b : Bytes} {x y : Int × Nat} (ha : Single l a x) (hb : Single l b y)
    (hhead : a.headD 0 ≠ 0) (hlower : l.toLower x.2 = l.toLower y.2) : noCaseStringEq l a b = true := by
  have hend : stricmpLoop l [0] [0] = some 0 := by
    have h := stricmpLoop_nul l [] []
    simpa using h
  have hstep := stricmpLoop_nul l a b
  rw [drop_nul l ha.ne, drop_nul l hb.ne, ha.decoded, hb.decoded, ha.ended, hb.ended, if_pos ⟨hhead, hlower⟩] at hstep
  rw [noCaseStringEq, stricmp, hstep, decide_eq_true_eq]
  exact hend

/-- A character without a code is read along with the NUL behind the empty string. -/
theorem Single.undefined {s : Bytes} {x : Int × Nat} (h : Single l s x) (hhead : s.headD 0 ≠ 0) (hzero : x.2 = 0) :
    stricmp l s [] = none := by
  have hend : utf8ToWc l.wcharBits [] = (1, 0) := utf8ToWc_zero l rfl
  rw [stricmp, stricmpLoop_nul, h.decoded, hend, if_pos ⟨hhead, by rw [hzero]⟩, stricmpLoop]
  simp

theorem single_a : Single l [byte 'a'] (1, 'a'.toNat) := ⟨by simp, utf8ToWc_ascii l.wcharBits (by decide), rfl⟩

/-- What stands behind a NUL counts for the hash only. -/
theorem nul_unlawful : noCaseStringEq l [0, byte 'a'] [0] = true ∧
    noCaseStringHash l [0, byte 'a'] ≠ noCaseStringHash l [0] := by
  have hnul : ∀ s : Bytes, utf8ToWc l.wcharBits (0 :: s) = (1, 0) := fun s => utf8ToWc_zero l rfl
  have hne : ∀ s : Bytes, 0 :: s ≠ [] := fun s => List.cons_ne_nil 0 s
  constructor
  · rw [noCaseStringEq, stricmp, stricmpLoop_nul, hnul, hnul]
    simp
  · have hlower : l.toLower 'a'.toNat ≠ 0 := (l.nul _).not.mpr (by decide)
    have hlt := l.lt 'a'.toNat
    have hone : ∀ s : Bytes, noCaseStringHash l (0 :: s) = noCaseStringHashLoop l 0 s := by
      intro s
      rw [noCaseStringHash, noCaseStringHashLoop_of_ne l 0 (hne s), hnul]
      simp [hashCode, toLower_nul]
    have hhash : noCaseStringHashLoop l 0 [byte 'a'] = UInt64.ofNat (l.toLower 'a'.toNat) := (single_a l).hash_eq
    rw [hone, hone, hhash, noCaseStringHashLoop_nil, ne_eq, ← UInt64.toNat_inj, UInt64.toNat_ofNat',
      Nat.mod_eq_of_lt (by omega)]
    exact hlower

/-- Keys that can have a character that is not plain break the laws. -/
theorem plain_of_lawful {further : Int × Nat → Prop} (h : Lawful l (Spelled l further)) {s : Bytes}
    (hs : Spelled l further s) : ∀ x ∈ characters l s, Plain l x := by
  intro x hx
  obtain ⟨w, hw⟩ := exists_single l hx
  have hw' : Spelled l further w := by
    rw [Spelled, hw.characters_eq]
    simpa using hs x hx
  have hcode : x.2 ≠ 0 := by
    intro hzero
    by_cases hhead : w.headD 0 = 0
    · have hx0 : x = (1, 0) := hw.decoded.symm.trans (utf8ToWc_zero l hhead)
      have hnul : further (1, 0) := by simpa [hx0, Plain] using hs x hx
      have hone : Spelled l further [0] := by
        rw [Spelled, characters_of_ne l (by simp), utf8ToWc_zero l rfl]
        simp [characters_nil, hnul]
      have htwo : Spelled l further [0, byte 'a'] := by
        rw [Spelled, characters_of_ne l (by simp), utf8ToWc_zero l rfl]
        change ∀ x ∈ (1, 0) :: characters l [byte 'a'], _
        rw [(single_a l).characters_eq]
        simp [Plain, hnul]
      obtain ⟨heq, hne⟩ := nul_unlawful l
      exact hne (h.hash _ _ htwo hone heq)
    · have hdefined := h.defined w [] hw' (by simp [Spelled, characters_nil])
      simp [hw.undefined l hhead hzero] at hdefined
  refine ⟨hcode, fun hneg => ?_⟩
  by_contra hne
  have hhead : w.headD 0 ≠ 0 := by
    intro hzero
    apply hcode
    rw [← hw.decoded, utf8ToWc_zero l hzero]
  have hinvalid : (utf8ToWc l.wcharBits w).1 < 0 → _ := utf8ToWc_invalid l.wcharBits
  rw [hw.decoded] at hinvalid
  -- the comparison takes it for the valid character with its code, and the hash does not
  obtain ⟨v, m, hm, hv⟩ := exists_valid l (hinvalid hneg)
  have hv' : Spelled l further v := by
    rw [Spelled, hv.characters_eq]
    simp [Plain, hcode]
    omega
  have hhash := h.hash w v hw' hv' (hw.noCaseStringEq_iff l hv hhead rfl)
  have hlt := l.lt x.2
  have hvalid : hashCode l (m, x.2) = l.toLower x.2 := if_neg (by dsimp only; omega)
  rw [hw.hash_eq, hv.hash_eq, hvalid, hashCode, if_pos hneg, ← UInt64.toNat_inj, UInt64.toNat_ofNat',
    UInt64.toNat_ofNat', Nat.mod_eq_of_lt (by decide), Nat.mod_eq_of_lt (by omega)] at hhash
  exact hne hhash.symm

/-- The laws hold of the keys that are spelled with plain and some further characters exactly when all characters
that occur in them are plain. -/
theorem lawful_iff (further : Int × Nat → Prop) : Lawful l (Spelled l further) ↔
    ∀ s, Spelled l further s → ∀ x ∈ characters l s, Plain l x := by
  constructor
  · exact fun h s hs => plain_of_lawful l h hs
  · exact lawful_of_plain l

/-- ASCII letters have a lower case. -/
def ascii : Locale where
  wcharBits := 32
  toLower c := min (if 'A'.toNat ≤ c ∧ c ≤ 'Z'.toNat then c + 32 else c) (2 ^ 31 - 1)
  wide := by decide
  lt c := by omega
  nul c := by
    have h : 'A'.toNat = 65 ∧ 'Z'.toNat = 90 := by decide
    split <;> omega

/-- Half a character that is compared as U+0001, and hashed as an underscore. -/
theorem not_lawful : ¬∀ l, Lawful l fun _ => True := by
  intro h
  have h1 : Single ascii [1] (1, 1) := ⟨by simp, by decide, rfl⟩
  have hc1 : Single ascii [0xc1] (-1, 1) := ⟨by simp, by decide, rfl⟩
  have heq := hc1.noCaseStringEq_iff ascii h1 (by decide) rfl
  have hhash := (h ascii).hash [0xc1] [1] trivial trivial heq
  rw [hc1.hash_eq, h1.hash_eq] at hhash
  exact absurd hhash (by decide)

end Dcpp.Util
