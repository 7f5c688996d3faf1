import Dcpp.Library.QuickSearch
import Dcpp.SanitizeUtf8
import Dcpp.StringCompare
import Dcpp.StringSearch

-- The search in the lower case of a text, where that has a length of its own.
namespace Dcpp

namespace Text

variable (l : Util.Locale)

/-- What is not valid becomes an underscore. -/
def toLower (str : Bytes) : Bytes :=
  if _h : str = [] then []
  else
    let r := utf8ToWc l.wcharBits str
    if r.1 < 0 then byte '_' :: toLower (str.drop r.1.natAbs)
    else wcToUtf8 (l.toLower r.2) ++ toLower (str.drop r.1.natAbs)
termination_by str.length
decreasing_by all_goals exact length_drop_character l.wcharBits _h

theorem toLower_nil : toLower l [] = [] := by
  rw [toLower, dif_pos rfl]

theorem toLower_of_ne {s : Bytes} (hs : s ≠ []) : toLower l s =
    (if (utf8ToWc l.wcharBits s).1 < 0 then [byte '_'] else wcToUtf8 (l.toLower (utf8ToWc l.wcharBits s).2)) ++
      toLower l (s.drop (utf8ToWc l.wcharBits s).1.natAbs) := by
  rw [toLower, dif_neg hs]
  dsimp only
  split <;> rfl

end Text

namespace StringSearch

open Text QuickSearch

/-- What `px` is compared with up to its NUL, without a result when that is read behind the end. -/
def compareIn : Bytes → Bytes → Option Bool
  | [], _ => some true
  | p :: px, tx =>
    if p = 0 then some true
    else match tx with
      | [] => none
      | t :: tx => if p = t then compareIn px tx else some false

/-- The loop of `match`. It has no result when it reads behind the NUL of the text, or the rounds do not suffice. -/
def matchLoopIn (pattern lower : Bytes) : Nat → Nat → Nat → Option Bool
  | 0, _, _ => none
  | rounds + 1, tx, last =>
    if tx < last then do
      if ← compareIn pattern ((lower ++ [0]).drop tx) then some true
      else matchLoopIn pattern lower rounds (tx + delta1 pattern (← (lower ++ [0])[tx + pattern.length]?)) last
    else some false

def matchIn (l : Util.Locale) (s : StringSearch) (rounds : Nat) (aText : Bytes) : Option Bool :=
  let lower := toLower l aText
  if aText.length < s.pattern.length then some false
  else matchLoopIn s.pattern lower rounds 0 (aText.length - s.pattern.length + 1)

/-- The pattern up to its first NUL. -/
def cut (pattern : Bytes) : Bytes := pattern.takeWhile (· ≠ 0)

/-- The shift for what is behind a window, which may be the NUL of the text. -/
def shift (pattern : Bytes) (c : Option UInt8) : Nat := delta1 pattern (c.getD 0)

/-- What is asked of the search: it reads no more than the text in lower case and its NUL, and tells whether the
pattern is in it. -/
def Finds (l : Util.Locale) (s : StringSearch) (aText : Bytes) : Prop :=
  ∃ rounds found, s.matchIn l rounds aText = some found ∧ (found = true ↔ s.pattern <:+: toLower l aText)

variable {pattern lower : Bytes}

theorem compareIn_nul (px tx : Bytes) : compareIn px (tx ++ [0]) = some (decide (cut px <+: tx)) := by
  induction px generalizing tx with
  | nil => simp [compareIn, cut]
  | cons p px ih =>
    by_cases hp : p = 0
    · simp [compareIn, cut, hp]
    · cases tx with
      | nil => simp [compareIn, cut, hp]
      | cons t tx =>
        by_cases ht : p = t
        · subst ht
          simpa [compareIn, cut, hp, List.cons_prefix_cons] using ih tx
        · simp [compareIn, cut, hp, ht, List.cons_prefix_cons]

theorem compareIn_of_cut {px : Bytes} (h : cut px = []) (tx : Bytes) : compareIn px tx = some true := by
  cases px with
  | nil => rfl
  | cons p px =>
    have hp : p = 0 := by
      by_contra hne
      simp [cut, hne] at h
    simp [compareIn, hp]

theorem compareIn_behind {px : Bytes} (h : cut px ≠ []) : compareIn px [] = none := by
  cases px with
  | nil => exact absurd rfl h
  | cons p px =>
    have hp : p ≠ 0 := by
      rintro rfl
      simp [cut] at h
    simp [compareIn, hp]

theorem cut_of_plain (h : 0 ∉ pattern) : cut pattern = pattern :=
  List.takeWhile_eq_self_iff.mpr fun _ hc => decide_eq_true fun h0 => h (h0 ▸ hc)

theorem drop_nul (h : tx ≤ lower.length) : (lower ++ [0]).drop tx = lower.drop tx ++ [0] :=
  List.drop_append_of_le_length h

section Loop

variable {rounds tx last : Nat}

theorem matchLoopIn_stop (h : ¬tx < last) : matchLoopIn pattern lower (rounds + 1) tx last = some false := by
  simp [matchLoopIn, h]

theorem matchLoopIn_hit (h : tx < last) (hit : cut pattern <+: lower.drop tx) :
    matchLoopIn pattern lower (rounds + 1) tx last = some true := by
  have hcompare : compareIn pattern ((lower ++ [0]).drop tx) = some true := by
    by_cases htx : tx ≤ lower.length
    · simp [drop_nul htx, compareIn_nul, hit]
    · rw [List.drop_eq_nil_of_le (Nat.le_of_not_le htx), List.prefix_nil] at hit
      exact compareIn_of_cut hit _
  simp [matchLoopIn, h, hcompare]

theorem matchLoopIn_next (h : tx < last) (hit : ¬cut pattern <+: lower.drop tx)
    (hin : tx + pattern.length ≤ lower.length) : matchLoopIn pattern lower (rounds + 1) tx last =
      matchLoopIn pattern lower rounds (tx + shift pattern lower[tx + pattern.length]?) last := by
  have hcompare : compareIn pattern ((lower ++ [0]).drop tx) = some false := by
    simp [drop_nul (Nat.le_trans (Nat.le_add_right _ _) hin), compareIn_nul, hit]
  have hbehind : (lower ++ [0])[tx + pattern.length]? = some (lower[tx + pattern.length]?.getD 0) := by
    obtain hlt | heq := Nat.lt_or_eq_of_le hin
    · rw [List.getElem?_append_left hlt, List.getElem?_eq_getElem hlt, Option.getD_some]
    · simp [heq]
  simp [matchLoopIn, h, hcompare, hbehind, shift]

theorem matchLoopIn_behind (h : tx < last) (hit : ¬cut pattern <+: lower.drop tx)
    (hin : lower.length < tx + pattern.length) : matchLoopIn pattern lower (rounds + 1) tx last = none := by
  have hbehind : (lower ++ [0])[tx + pattern.length]? = none := by simpa using Nat.succ_le_of_lt hin
  by_cases htx : tx ≤ lower.length
  · simp [matchLoopIn, h, drop_nul htx, compareIn_nul, hit, hbehind]
  · have hdrop : (lower ++ [0]).drop tx = [] := by
      rw [List.drop_eq_nil_iff]
      simp
      omega
    have hne : cut pattern ≠ [] := by
      intro hnil
      exact hit (hnil ▸ List.nil_prefix)
    simp [matchLoopIn, h, hdrop, compareIn_behind hne]

/-- What the run of `matchLoop` gives that reads a NUL everywhere behind the text. -/
theorem matchLoop_of_matchLoopIn {found : Bool} (h : matchLoopIn pattern lower rounds tx last = some found) {fuel : Nat}
    (hfuel : last - tx < fuel) : matchLoop pattern lower fuel tx last = found := by
  induction rounds generalizing tx fuel with
  | zero => cases h
  | succ rounds ih =>
    obtain ⟨fuel, rfl⟩ := Nat.exists_eq_add_one_of_ne_zero (Nat.ne_of_gt (Nat.zero_lt_of_lt hfuel))
    by_cases hlast : tx < last
    · by_cases hit : cut pattern <+: lower.drop tx
      · rw [matchLoopIn_hit hlast hit] at h
        have hpre : (pattern.takeWhile (· ≠ 0)).isPrefixOf (lower.drop tx) = true :=
          List.isPrefixOf_iff_prefix.mpr hit
        rw [matchLoop, if_pos hlast, if_pos hpre]
        exact Option.some_inj.mp h
      · by_cases hin : tx + pattern.length ≤ lower.length
        · rw [matchLoopIn_next hlast hit hin] at h
          obtain hzero | hpos := Nat.eq_zero_or_pos (shift pattern lower[tx + pattern.length]?)
          · rw [hzero, Nat.add_zero] at h
            exact ih h hfuel
          · have hnext := @ih _ h fuel (by omega)
            have hpre : ¬(pattern.takeWhile (· ≠ 0)).isPrefixOf (lower.drop tx) = true :=
              fun hpre => hit (List.isPrefixOf_iff_prefix.mp hpre)
            rw [matchLoop, if_pos hlast, if_neg hpre, List.getD_eq_getElem?_getD]
            exact hnext
        · rw [matchLoopIn_behind hlast hit (Nat.lt_of_not_le hin)] at h
          cases h
    · rw [matchLoopIn_stop hlast] at h
      rw [matchLoop, if_neg hlast]
      exact Option.some_inj.mp h

/-- Where a run ends. -/
theorem window_of_run {found : Bool} (hwindow : Window (cut pattern) lower pattern.length (shift pattern) tx)
    (h : matchLoopIn pattern lower rounds tx last = some found) :
    ∃ t, Window (cut pattern) lower pattern.length (shift pattern) t ∧
      (found = true → t < last ∧ cut pattern <+: lower.drop t) ∧ (found = false → ¬t < last) := by
  induction rounds generalizing tx with
  | zero => cases h
  | succ rounds ih =>
    by_cases hlast : tx < last
    · by_cases hit : cut pattern <+: lower.drop tx
      · rw [matchLoopIn_hit hlast hit] at h
        cases h
        exact ⟨tx, hwindow, fun _ => ⟨hlast, hit⟩, by simp⟩
      · by_cases hin : tx + pattern.length ≤ lower.length
        · rw [matchLoopIn_next hlast hit hin] at h
          exact ih (hwindow.next hin hit) h
        · rw [matchLoopIn_behind hlast hit (Nat.lt_of_not_le hin)] at h
          cases h
    · rw [matchLoopIn_stop hlast] at h
      cases h
      exact ⟨tx, hwindow, by simp, fun _ => hlast⟩

/-- A window is reached, or the loop has ended in front of it. -/
theorem run_of_window (last : Nat) {t : Nat}
    (hwindow : Window (cut pattern) lower pattern.length (shift pattern) t) :
    (∃ n, ∀ rounds, matchLoopIn pattern lower (rounds + n) 0 last = matchLoopIn pattern lower rounds t last) ∨
      ¬t < last ∧ ∃ rounds, matchLoopIn pattern lower rounds 0 last = some false := by
  induction hwindow with
  | first => exact Or.inl ⟨0, fun _ => rfl⟩
  | @next t _ hin hit ih =>
    obtain ⟨n, hn⟩ | ⟨hlast, hend⟩ := ih
    · by_cases hlast : t < last
      · refine Or.inl ⟨n + 1, fun rounds => ?_⟩
        rw [← matchLoopIn_next hlast hit hin, ← hn, Nat.add_right_comm, Nat.add_assoc]
      · refine Or.inr ⟨by omega, 1 + n, ?_⟩
        rw [hn, matchLoopIn_stop hlast]
    · exact Or.inr ⟨by omega, hend⟩

end Loop

/-- The search of `match`, which is the one here where nothing is read behind the text. -/
theorem match_of_matchIn {l : Util.Locale} {s : StringSearch} {rounds : Nat} {aText : Bytes} {found : Bool}
    (h : s.matchIn l rounds aText = some found) : s.match (toLower l) aText = found := by
  rw [matchIn] at h
  rw [StringSearch.match]
  split at h
  next hshort =>
    rw [if_pos hshort]
    exact Option.some_inj.mp h
  next hshort =>
    rw [if_neg hshort]
    by_cases hempty : s.pattern = []
    · rw [hempty] at h ⊢
      cases rounds with
      | zero => cases h
      | succ rounds =>
        have hit : cut [] <+: (toLower l aText).drop 0 := List.nil_prefix
        rw [matchLoopIn_hit (Nat.succ_pos _) hit] at h
        exact Option.some_inj.mp h
    · have hpos := List.length_pos_of_ne_nil hempty
      exact matchLoop_of_matchLoopIn h (by omega)

/-- There is a window that decides right: with the pattern at its start, ending within the `length` that is searched,
or ending behind that where the pattern is not in the text. -/
def Decided (pattern lower : Bytes) (length : Nat) : Prop :=
  ∃ t, Window (cut pattern) lower pattern.length (shift pattern) t ∧
    (pattern <:+: lower → t + pattern.length ≤ length ∧ cut pattern <+: lower.drop t) ∧
    (¬pattern <:+: lower → length < t + pattern.length)

theorem finds_iff_decided (l : Util.Locale) (s : StringSearch) (aText : Bytes) :
    Finds l s aText ↔ Decided s.pattern (toLower l aText) aText.length := by
  by_cases hshort : aText.length < s.pattern.length
  · have hmatch (rounds : Nat) : s.matchIn l rounds aText = some false := by simp [matchIn, hshort]
    constructor
    · rintro ⟨rounds, found, h, hfound⟩
      rw [hmatch] at h
      cases h
      exact ⟨0, Window.first, fun hin => absurd (hfound.mpr hin) (by decide), fun _ => by omega⟩
    · rintro ⟨t, -, hin, -⟩
      have hno : ¬s.pattern <:+: toLower l aText := fun h => by
        have hle := (hin h).1
        omega
      exact ⟨0, false, hmatch 0, by simpa using hno⟩
  · have hlast (t : Nat) : t < aText.length - s.pattern.length + 1 ↔ t + s.pattern.length ≤ aText.length := by omega
    have hmatch (rounds : Nat) : s.matchIn l rounds aText = matchLoopIn s.pattern (toLower l aText) rounds 0
        (aText.length - s.pattern.length + 1) := by simp [matchIn, hshort]
    constructor
    · rintro ⟨rounds, found, h, hfound⟩
      rw [hmatch] at h
      obtain ⟨t, hwindow, htrue, hfalse⟩ := window_of_run Window.first h
      refine ⟨t, hwindow, fun hin => ?_, fun hno => ?_⟩
      · obtain ⟨hlt, hit⟩ := htrue (hfound.mpr hin)
        exact ⟨(hlast t).mp hlt, hit⟩
      · have hend := hfalse (Bool.eq_false_iff.mpr fun h => hno (hfound.mp h))
        rw [hlast] at hend
        omega
    · rintro ⟨t, hwindow, htrue, hfalse⟩
      by_cases hin : s.pattern <:+: toLower l aText
      · obtain ⟨hle, hit⟩ := htrue hin
        have hlt := (hlast t).mpr hle
        obtain ⟨n, hn⟩ | ⟨hno, -⟩ := run_of_window _ hwindow
        · refine ⟨1 + n, true, ?_, by simpa using hin⟩
          rw [hmatch, hn, matchLoopIn_hit hlt hit]
        · exact absurd hlt hno
      · have hend := hfalse hin
        obtain ⟨n, hn⟩ | ⟨-, rounds, hrounds⟩ := run_of_window (aText.length - s.pattern.length + 1) hwindow
        · refine ⟨1 + n, false, ?_, by simpa using hin⟩
          rw [hmatch, hn, matchLoopIn_stop (by omega)]
        · exact ⟨rounds, false, (hmatch rounds).trans hrounds, by simpa using hin⟩

/-- A pattern without NUL whose shifts fit in 16 bits. -/
structure Plain (pattern : Bytes) : Prop where
  nul : 0 ∉ pattern
  short : pattern.length + 1 < 2 ^ 16

/-- The last number below `x` with a property. -/
theorem find?_range_reverse {q : Nat → Bool} {x i : Nat} (h : (List.range x).reverse.find? q = some i) :
    i < x ∧ ∀ k < x, q k = true → k ≤ i := by
  induction x with
  | zero => cases h
  | succ x ih =>
    rw [List.range_succ, List.reverse_append, List.reverse_singleton, List.singleton_append, List.find?_cons] at h
    cases hx : q x with
    | true =>
      rw [hx] at h
      cases h
      exact ⟨Nat.lt_succ_self _, fun k hk _ => Nat.le_of_lt_succ hk⟩
    | false =>
      rw [hx] at h
      obtain ⟨hlt, hlast⟩ := ih h
      refine ⟨Nat.lt_succ_of_lt hlt, fun k hk hq => ?_⟩
      obtain hlt | rfl := Nat.lt_succ_iff_lt_or_eq.mp hk
      · exact hlast k hlt hq
      · rw [hx] at hq
        cases hq

theorem shift_safe (h : Plain pattern) : Safe pattern (shift pattern) := by
  have hlen : pattern.length % 2 ^ 16 = pattern.length := Nat.mod_eq_of_lt (Nat.lt_of_succ_lt h.short)
  have hbounds (c : Option UInt8) : 0 < shift pattern c ∧ shift pattern c ≤ pattern.length + 1 := by
    simp only [shift, delta1, hlen, Nat.mod_eq_of_lt h.short]
    split
    next => omega
    next i hi =>
      have hlt := (find?_range_reverse hi).1
      omega
  refine ⟨fun c => (hbounds c).1, fun c => (hbounds c).2, fun j c hj => ?_⟩
  have hlt : j < pattern.length := (List.getElem?_eq_some_iff.mp hj).1
  simp only [shift, Option.getD_some, delta1, hlen]
  split
  next hnone => simpa [hj] using List.find?_eq_none.mp hnone j (by simpa using hlt)
  next i hi =>
    obtain ⟨hlt', hlast⟩ := find?_range_reverse hi
    have hle := hlast j hlt (decide_eq_true hj)
    omega

theorem infix_take {t n : Nat} (h : pattern <+: lower.drop t) (hn : t + pattern.length ≤ n) :
    pattern <:+: lower.take n := by
  have hpre : pattern <+: (lower.take n).drop t := by
    rw [List.drop_take, List.prefix_take_iff]
    exact ⟨h, by omega⟩
  exact hpre.isInfix.trans (List.drop_suffix t _).isInfix

/-- The first place of a pattern that is found within a length. -/
theorem exists_first {n : Nat} (h : pattern <:+: lower.take n) :
    ∃ t, pattern <+: lower.drop t ∧ t + pattern.length ≤ min n lower.length ∧ ∀ k < t, ¬pattern <+: lower.drop k := by
  have hin : pattern <:+: lower := h.trans (List.take_prefix n lower).isInfix
  obtain ⟨i, hi⟩ := Option.ne_none_iff_exists'.mp fun hnone => Edit.indexOf_eq_none.mp hnone hin
  obtain ⟨u, v, hsplit, rfl, hfirst⟩ := Edit.indexOf_eq_some hi
  obtain ⟨w, x, hwx⟩ := h
  have hpre : pattern <+: lower.drop w.length := by
    have htake : pattern <+: (lower.take n).drop w.length := by simp [← hwx]
    rw [List.drop_take] at htake
    exact (List.prefix_take_iff.mp htake).1
  have hle : u.length ≤ w.length := Nat.le_of_not_lt fun hlt => hfirst _ hlt hpre
  have hlen := congrArg List.length hwx
  simp only [List.length_append, List.length_take] at hlen
  refine ⟨u.length, by simp [hsplit], by omega, hfirst⟩

/-- For a plain pattern only the length of the text can be in the way. -/
theorem decided_iff_of_plain (h : Plain pattern) (length : Nat) : Decided pattern lower length ↔
    (pattern <:+: lower → pattern <:+: lower.take length) ∧
      (¬pattern <:+: lower → lower.length < length →
        ∃ t, Window pattern lower pattern.length (shift pattern) t ∧ length < t + pattern.length) := by
  rw [Decided, cut_of_plain h.nul]
  constructor
  · rintro ⟨t, hwindow, htrue, hfalse⟩
    refine ⟨fun hin => ?_, fun hno _ => ⟨t, hwindow, hfalse hno⟩⟩
    obtain ⟨hle, hit⟩ := htrue hin
    exact infix_take hit hle
  · rintro ⟨htrue, hfalse⟩
    by_cases hin : pattern <:+: lower
    · obtain ⟨t, hit, hle, hfirst⟩ := exists_first (htrue hin)
      have hwindow := (shift_safe h).window hit (by omega) hfirst
      exact ⟨t, hwindow, fun _ => ⟨by omega, hit⟩, fun hno => absurd hin hno⟩
    · by_cases hlen : lower.length < length
      · obtain ⟨t, hwindow, hend⟩ := hfalse hin hlen
        exact ⟨t, hwindow, fun h => absurd h hin, fun _ => hend⟩
      · have hno (t : Nat) (_ : t + pattern.length ≤ lower.length) : ¬pattern <+: lower.drop t :=
          fun hit => hin (hit.isInfix.trans (List.drop_suffix t lower).isInfix)
        obtain ⟨t, hwindow, hend⟩ := Window.exists_behind (shift_safe h).pos hno
        exact ⟨t, hwindow, fun h => absurd h hin, fun _ => by omega⟩

/-- The search is right exactly when a window decides right; for a plain pattern, exactly when the pattern does not
occur only behind the length that the text had before it was put in lower case, and where it does not occur in a text
that has become shorter, a window ends behind that length. -/
theorem finds_iff (l : Util.Locale) (aPattern aText : Bytes) :
    (Finds l (new (toLower l) aPattern) aText ↔ Decided (toLower l aPattern) (toLower l aText) aText.length) ∧
      (Plain (toLower l aPattern) → (Finds l (new (toLower l) aPattern) aText ↔
        (toLower l aPattern <:+: toLower l aText → toLower l aPattern <:+: (toLower l aText).take aText.length) ∧
          (¬toLower l aPattern <:+: toLower l aText → (toLower l aText).length < aText.length →
            ∃ t, Window (toLower l aPattern) (toLower l aText) (toLower l aPattern).length
              (shift (toLower l aPattern)) t ∧ aText.length < t + (toLower l aPattern).length))) := by
  have h := finds_iff_decided l (new (toLower l) aPattern) aText
  exact ⟨h, fun hplain => h.trans (decided_iff_of_plain hplain aText.length)⟩

/-- In a text that keeps its length every plain pattern is found. -/
theorem finds_of_length {l : Util.Locale} {aText : Bytes} (hlen : (toLower l aText).length = aText.length)
    {s : StringSearch} (h : Plain s.pattern) : Finds l s aText := by
  rw [finds_iff_decided, decided_iff_of_plain h, ← hlen, List.take_length]
  exact ⟨id, fun _ hlt => absurd hlt (Nat.lt_irrefl _)⟩

/-- A locale in which the Kelvin sign has the lower case `k`. -/
def kelvin : Util.Locale := { Util.ascii with
  toLower := fun c => if c = 0x212a then 'k'.toNat else Util.ascii.toLower c
  lt := fun c => by
    split
    · decide
    · exact Util.ascii.lt c
  nul := fun c => by
    split
    next h =>
      subst h
      decide
    next => exact Util.ascii.nul c }

theorem toLower_b : toLower kelvin [byte 'b'] = [byte 'b'] := by
  have hdecoded : utf8ToWc kelvin.wcharBits [byte 'b'] = (1, 98) := by decide
  rw [toLower_of_ne kelvin (List.cons_ne_nil _ _), hdecoded]
  simp only [Int.natAbs_one, List.drop_succ_cons, List.drop_zero, toLower_nil]
  decide

theorem toLower_sign : toLower kelvin [0xe2, 0x84, 0xaa] = [byte 'k'] := by
  have hdecoded : utf8ToWc kelvin.wcharBits [0xe2, 0x84, 0xaa] = (3, 0x212a) := by decide
  rw [toLower_of_ne kelvin (List.cons_ne_nil _ _), hdecoded]
  have hdrop : ([0xe2, 0x84, 0xaa] : Bytes).drop (Int.natAbs 3) = [] := rfl
  rw [hdrop, toLower_nil]
  decide

/-- A Kelvin sign is searched as far as three bytes go, of which one is left in lower case. -/
theorem not_finds : ¬∀ l aPattern aText, Finds l (new (toLower l) aPattern) aText := by
  intro h
  obtain ⟨rounds, found, hfound, -⟩ := h kelvin [byte 'b'] [0xe2, 0x84, 0xaa]
  have hnone : (new (toLower kelvin) [byte 'b']).matchIn kelvin rounds [0xe2, 0x84, 0xaa] = none := by
    rw [matchIn, new, toLower_b, toLower_sign]
    match rounds with
    | 0 => rfl
    | 1 => rfl
    | rounds + 2 => rfl
  rw [hnone] at hfound
  cases hfound

end StringSearch

end Dcpp
