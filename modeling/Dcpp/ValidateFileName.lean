import Dcpp.Bytes
import Dcpp.Library.Edit

-- The names that files are saved under.
namespace Dcpp.Util

open Edit

def badChars (windows : Bool) : Bytes :=
  (List.range 31).map (fun n => UInt8.ofNat (n + 1)) ++
    [byte '<', byte '>', if windows then byte '/' else byte '\\', byte '"', byte '|', byte '?', byte '*']

/-- The part `.` between two separators is removed. -/
def removeDots (sep : UInt8) (tmp : Bytes) : Option Bytes :=
  whileFind (find [sep, byte '.', sep]) (fun tmp i => (erase tmp (i + 1) 2, i)) (tmp.length + 1) tmp 0

/-- Doubled separators are removed that are not at the beginning. -/
def removeDouble (sep : UInt8) (tmp : Bytes) : Option Bytes :=
  whileFind (find [sep, sep]) (fun tmp i => (erase tmp (i + 1) 1, i)) (tmp.length + 1) tmp 1

/-- The part `..` between two separators is replaced, along with the second one. -/
def replaceDotDot (sep : UInt8) (tmp : Bytes) : Option Bytes :=
  whileFind (find [sep, byte '.', byte '.', sep])
    (fun tmp i => (((tmp.set (i + 1) (byte '_')).set (i + 2) (byte '_')).set (i + 3) (byte '_'), i + 2))
    (tmp.length + 1) tmp 0

/-- A dot in front of a separator is replaced. -/
def replaceEndDot (sep : UInt8) (tmp : Bytes) : Option Bytes :=
  whileFind (find [byte '.', sep]) (fun tmp i => (tmp.set i (byte '_'), i + 1)) (tmp.length + 1) tmp 0

def replaceBad (windows : Bool) (tmp : Bytes) : Option Bytes :=
  whileFind (findFirstOf (badChars windows)) (fun tmp i => (tmp.set i (byte '_'), i + 1)) (tmp.length + 1) tmp 0

/-- Colons are replaced that are not the second character. -/
def replaceColon (tmp : Bytes) : Option Bytes :=
  whileFind (findFirstOf [byte ':']) (fun tmp i => if i = 1 then (tmp, i + 1) else (tmp.set i (byte '_'), i + 1))
    (tmp.length + 1) tmp 0

def validateFileName (windows : Bool) (tmp : Bytes) : Option Bytes := do
  let tmp ← replaceBad windows tmp
  let tmp ← replaceColon tmp
  let tmp ← removeDots (byte '\\') tmp
  let tmp ← removeDots (byte '/') tmp
  let tmp ← removeDouble (byte '\\') tmp
  let tmp ← removeDouble (byte '/') tmp
  let tmp ← replaceDotDot (byte '\\') tmp
  let tmp ← replaceDotDot (byte '/') tmp
  let tmp ← replaceEndDot (byte '\\') tmp
  replaceEndDot (byte '/') tmp

/-- Of the places in `P`, none is one of `a` with `b` behind it. -/
def NoPair (a b : UInt8) (P : Nat → Prop) (s : Bytes) : Prop := ∀ k, P k → s[k]? = some a → s[k + 1]? ≠ some b

/-- The characters are allowed where they are. -/
structure Allowed (windows : Bool) (s : Bytes) : Prop where
  bad : ∀ c ∈ s, c ∉ badChars windows
  colon : ∀ i, s[i]? = some (byte ':') → i = 1

theorem getElem?_set_underscore {s : Bytes} {i k : Nat} {c : UInt8} (hc : c ≠ byte '_')
    (h : (s.set i (byte '_'))[k]? = some c) : s[k]? = some c := by
  by_cases hik : i = k
  · subst hik
    by_cases hlt : i < s.length
    · rw [List.getElem?_set_self hlt, Option.some_inj] at h
      exact absurd h.symm hc
    · rw [List.set_eq_of_length_le (Nat.le_of_not_lt hlt)] at h
      exact h
  · rwa [List.getElem?_set_ne hik] at h

theorem NoPair.set {a b : UInt8} {P : Nat → Prop} {s : Bytes} (h : NoPair a b P s) (ha : a ≠ byte '_')
    (hb : b ≠ byte '_') (i : Nat) : NoPair a b P (s.set i (byte '_')) :=
  fun k hk hka hkb => h k hk (getElem?_set_underscore ha hka) (getElem?_set_underscore hb hkb)

/-- Where one of two equal characters is erased, every pair was one before. -/
theorem NoPair.erase {a b : UInt8} {s : Bytes} {i lo : Nat} (h : NoPair a b (lo ≤ ·) s) (hi : i + 2 ≤ s.length)
    (heq : s[i]? = s[i + 1]?) : NoPair a b (lo ≤ ·) (erase s (i + 1) 1) := by
  intro k hk hka hkb
  rw [getElem?_erase 1 (by omega)] at hka hkb
  by_cases hki : k < i
  · rw [if_pos (by omega)] at hka hkb
    exact h k hk hka hkb
  · rw [if_neg (by omega)] at hkb
    by_cases heqk : k = i
    · subst heqk
      rw [if_pos (by omega), heq] at hka
      exact h (k + 1) (Nat.le_succ_of_le hk) hka hkb
    · rw [if_neg (by omega)] at hka
      exact h (k + 1) (Nat.le_succ_of_le hk) hka hkb

section Loops

variable {windows : Bool} {s : Bytes}

theorem underscore_allowed (windows : Bool) : byte '_' ∉ badChars windows := by
  cases windows <;> decide

theorem Allowed.set (h : Allowed windows s) (i : Nat) : Allowed windows (s.set i (byte '_')) where
  bad c hc := by
    obtain hc | rfl := List.mem_or_eq_of_mem_set hc
    · exact h.bad c hc
    · exact underscore_allowed windows
  colon k hk := h.colon k (getElem?_set_underscore (by decide) hk)

theorem Allowed.erase (h : Allowed windows s) {i n : Nat} (hi : i + 1 ≤ s.length) :
    Allowed windows (erase s (i + 1) n) where
  bad c hc := by
    rw [Edit.erase, List.mem_append] at hc
    exact h.bad c (hc.elim List.mem_of_mem_take List.mem_of_mem_drop)
  colon k hk := by
    rw [getElem?_erase n hi] at hk
    split at hk
    next => exact h.colon k hk
    next hlt =>
      have hone := h.colon (k + n) hk
      omega

theorem replaceBad_spec (windows : Bool) (s : Bytes) :
    ∃ t, replaceBad windows s = some t ∧ ∀ c ∈ t, c ∉ badChars windows := by
  obtain ⟨t, j, ht, hinv, hend⟩ := whileFind_invariant (findFirstOf (badChars windows))
    (fun tmp i => (tmp.set i (byte '_'), i + 1))
    (fun t i => ∀ k < i, ∀ c ∈ badChars windows, t[k]? ≠ some c) (s.length + 1) s 0
    (by
      intro t i j hinv hj
      obtain ⟨hij, ⟨c, -, hc⟩, hfirst⟩ := findFirstOf_eq_some hj
      have hlt := (List.getElem?_eq_some_iff.mp hc).1
      refine ⟨fun k hk c hc hkc => ?_, by simp; omega⟩
      have hne : c ≠ byte '_' := fun h => underscore_allowed windows (h ▸ hc)
      have hkc' := getElem?_set_underscore hne hkc
      by_cases hki : k < i
      · exact hinv k hki c hc hkc'
      · by_cases hkj : k = j
        · subst hkj
          rw [List.getElem?_set_self hlt, Option.some_inj] at hkc
          exact hne hkc.symm
        · exact hfirst k (by omega) (by omega) c hc hkc')
    (fun k hk => by omega) (by omega)
  refine ⟨t, ht, fun c hc hbad => ?_⟩
  obtain ⟨k, hk⟩ := List.mem_iff_getElem?.mp hc
  by_cases hkj : k < j
  · exact hinv k hkj c hbad hk
  · exact findFirstOf_eq_none hend (by omega) hbad hk

theorem replaceColon_spec (hbad : ∀ c ∈ s, c ∉ badChars windows) :
    ∃ t, replaceColon s = some t ∧ Allowed windows t := by
  obtain ⟨t, j, ht, ⟨hbad', hinv⟩, hend⟩ := whileFind_invariant (findFirstOf [byte ':'])
    (fun tmp i => if i = 1 then (tmp, i + 1) else (tmp.set i (byte '_'), i + 1))
    (fun t i => (∀ c ∈ t, c ∉ badChars windows) ∧ ∀ k < i, t[k]? = some (byte ':') → k = 1)
    (s.length + 1) s 0
    (by
      rintro t i j ⟨hbad, hinv⟩ hj
      obtain ⟨hij, ⟨c, -, hc⟩, hfirst⟩ := findFirstOf_eq_some hj
      have hlt := (List.getElem?_eq_some_iff.mp hc).1
      have hbefore : ∀ k < j, t[k]? = some (byte ':') → k = 1 := by
        intro k hkj hk
        by_cases hki : k < i
        · exact hinv k hki hk
        · exact absurd hk (hfirst k (by omega) hkj _ List.mem_cons_self)
      split
      next hone =>
        refine ⟨⟨hbad, fun k hk hkc => ?_⟩, by dsimp only; omega⟩
        by_cases hkj : k = j
        · omega
        · exact hbefore k (by omega) hkc
      next hone =>
        refine ⟨⟨fun c hc => ?_, fun k hk hkc => ?_⟩, by simp; omega⟩
        · obtain hc | rfl := List.mem_or_eq_of_mem_set hc
          · exact hbad c hc
          · exact underscore_allowed windows
        · by_cases hkj : k = j
          · subst hkj
            rw [List.getElem?_set_self hlt, Option.some_inj] at hkc
            exact absurd hkc (by decide)
          · exact hbefore k (by omega) (getElem?_set_underscore (by decide) hkc))
    ⟨hbad, fun k hk => by omega⟩ (by omega)
  refine ⟨t, ht, hbad', fun k hk => ?_⟩
  by_cases hkj : k < j
  · exact hinv k hkj hk
  · exact absurd hk (findFirstOf_eq_none hend (by omega) List.mem_cons_self)

theorem removeDots_spec (sep : UInt8) (h : Allowed windows s) : ∃ t, removeDots sep s = some t ∧ Allowed windows t := by
  obtain ⟨t, j, ht, hinv, -⟩ := whileFind_invariant (find [sep, byte '.', sep])
    (fun tmp i => (Edit.erase tmp (i + 1) 2, i)) (fun t _ => Allowed windows t) (s.length + 1) s 0
    (by
      intro t i j hinv hj
      obtain ⟨hij, hlen⟩ := find_bounds hj
      simp only [List.length_cons, List.length_nil] at hlen
      refine ⟨hinv.erase (by omega), ?_⟩
      rw [length_erase (by omega)]
      omega)
    h (by omega)
  exact ⟨t, ht, hinv⟩

theorem removeDouble_spec (sep : UInt8) (h : Allowed windows s) :
    ∃ t, removeDouble sep s = some t ∧ Allowed windows t ∧ NoPair sep sep (1 ≤ ·) t ∧
      ∀ d, NoPair d d (1 ≤ ·) s → NoPair d d (1 ≤ ·) t := by
  obtain ⟨t, j, ht, ⟨hone, hallowed, hother, hinv⟩, hend⟩ := whileFind_invariant (find [sep, sep])
    (fun tmp i => (Edit.erase tmp (i + 1) 1, i))
    (fun t i => 1 ≤ i ∧ Allowed windows t ∧ (∀ d, NoPair d d (1 ≤ ·) s → NoPair d d (1 ≤ ·) t) ∧
      NoPair sep sep (fun k => 1 ≤ k ∧ k < i) t) (s.length + 1) s 1
    (by
      rintro t i j ⟨hone, hallowed, hother, hinv⟩ hj
      obtain ⟨hij, hlen, ⟨hget, hget'⟩, hfirst⟩ := find_pair_eq_some hj
      refine ⟨⟨by omega, hallowed.erase (by omega), fun d hd => ?_, fun k hk hka hkb => ?_⟩, ?_⟩
      · exact (hother d hd).erase hlen (hget.trans hget'.symm)
      · rw [getElem?_erase 1 (by omega), if_pos (by omega)] at hka hkb
        by_cases hki : k < i
        · exact hinv k ⟨hk.1, hki⟩ hka hkb
        · exact hfirst k (by omega) hk.2 hka hkb
      · rw [length_erase (by omega)]
        omega)
    ⟨Nat.le_refl 1, h, fun _ hd => hd, fun k hk => by omega⟩ (by omega)
  refine ⟨t, ht, hallowed, fun k hk hka hkb => ?_, hother⟩
  by_cases hkj : k < j
  · exact hinv k ⟨hk, hkj⟩ hka hkb
  · exact find_pair_eq_none hend (by omega) hka hkb

/-- What stays when characters are replaced by underscores. -/
def Stays (P : Bytes → Prop) : Prop := ∀ s i, P s → P (s.set i (byte '_'))

variable {P : Bytes → Prop}

theorem replaceDotDot_spec (sep : UInt8) (hP : Stays P) (h : P s) : ∃ t, replaceDotDot sep s = some t ∧ P t := by
  obtain ⟨t, j, ht, hinv, -⟩ := whileFind_invariant (find [sep, byte '.', byte '.', sep])
    (fun tmp i => (((tmp.set (i + 1) (byte '_')).set (i + 2) (byte '_')).set (i + 3) (byte '_'), i + 2))
    (fun t _ => P t) (s.length + 1) s 0
    (by
      intro t i j hinv hj
      obtain ⟨hij, hlen⟩ := find_bounds hj
      simp only [List.length_cons, List.length_nil] at hlen
      refine ⟨hP _ _ (hP _ _ (hP _ _ hinv)), ?_⟩
      simp only [List.length_set]
      omega)
    h (by omega)
  exact ⟨t, ht, hinv⟩

theorem replaceEndDot_spec {sep : UInt8} (hsep : sep ≠ byte '_') (hP : Stays P) (h : P s) :
    ∃ t, replaceEndDot sep s = some t ∧ P t ∧ NoPair (byte '.') sep (0 ≤ ·) t := by
  obtain ⟨t, j, ht, ⟨hstays, hinv⟩, hend⟩ := whileFind_invariant (find [byte '.', sep])
    (fun tmp i => (tmp.set i (byte '_'), i + 1)) (fun t i => P t ∧ NoPair (byte '.') sep (· < i) t)
    (s.length + 1) s 0
    (by
      rintro t i j ⟨hstays, hinv⟩ hj
      obtain ⟨hij, hlen, -, hfirst⟩ := find_pair_eq_some hj
      refine ⟨⟨hP _ _ hstays, fun k hk hka hkb => ?_⟩, by simp; omega⟩
      have hka' := getElem?_set_underscore (by decide) hka
      have hkb' := getElem?_set_underscore hsep hkb
      by_cases hki : k < i
      · exact hinv k hki hka' hkb'
      · by_cases hkj : k = j
        · subst hkj
          rw [List.getElem?_set_self (by omega), Option.some_inj] at hka
          exact absurd hka (by decide)
        · exact hfirst k (by omega) (by omega) hka' hkb')
    ⟨h, fun k hk => by omega⟩ (by omega)
  refine ⟨t, ht, hstays, fun k _ hka hkb => ?_⟩
  by_cases hkj : k < j
  · exact hinv k hkj hka hkb
  · exact find_pair_eq_none hend (by omega) hka hkb

end Loops

def separators : Bytes := [byte '\\', byte '/']

/-- No part of the name leads out of a directory: none but the last is or ends in a dot. -/
structure Sanitized (windows : Bool) (s : Bytes) : Prop where
  bad : ∀ c ∈ s, c ∉ badChars windows
  colon : ∀ i, s[i]? = some (byte ':') → i = 1
  double : ∀ sep ∈ separators, ∀ i, s[i]? = some sep → s[i + 1]? = some sep → i = 0
  part : ∀ sep ∈ separators, ∀ part ∈ (s.splitOn sep).dropLast,
    part ≠ str "." ∧ part ≠ str ".." ∧ part.getLast? ≠ some (byte '.')

/-- What the loops leave. -/
structure Tidy (windows : Bool) (s : Bytes) : Prop where
  allowed : Allowed windows s
  double : ∀ sep ∈ separators, NoPair sep sep (1 ≤ ·) s
  dot : ∀ sep ∈ separators, NoPair (byte '.') sep (0 ≤ ·) s

variable {windows : Bool} {s : Bytes}

theorem separator_ne : ∀ sep ∈ separators, sep ≠ byte '_' := by decide +kernel

theorem validateFileName_tidy (windows : Bool) (s : Bytes) : ∃ t, validateFileName windows s = some t ∧ Tidy windows t := by
  obtain ⟨s₁, h₁, hbad⟩ := replaceBad_spec windows s
  obtain ⟨s₂, h₂, hallowed₂⟩ := replaceColon_spec hbad
  obtain ⟨s₃, h₃, hallowed₃⟩ := removeDots_spec (byte '\\') hallowed₂
  obtain ⟨s₄, h₄, hallowed₄⟩ := removeDots_spec (byte '/') hallowed₃
  obtain ⟨s₅, h₅, hallowed₅, hback, -⟩ := removeDouble_spec (byte '\\') hallowed₄
  obtain ⟨s₆, h₆, hallowed₆, hslash, hkept⟩ := removeDouble_spec (byte '/') hallowed₅
  have hback_ne : byte '\\' ≠ byte '_' := by decide
  have hslash_ne : byte '/' ≠ byte '_' := by decide
  have hdouble : ∀ sep ∈ separators, NoPair sep sep (1 ≤ ·) s₆ := by
    simp only [separators, List.forall_mem_cons, List.not_mem_nil, false_implies, implies_true, and_true]
    exact ⟨hkept _ hback, hslash⟩
  -- from here on, characters are only replaced by underscores
  have hstays : Stays fun t => Allowed windows t ∧ ∀ sep ∈ separators, NoPair sep sep (1 ≤ ·) t := by
    intro t i ht
    exact ⟨ht.1.set i, fun sep hsep => (ht.2 sep hsep).set (separator_ne sep hsep) (separator_ne sep hsep) i⟩
  obtain ⟨s₇, h₇, hs₇⟩ := replaceDotDot_spec (byte '\\') hstays ⟨hallowed₆, hdouble⟩
  obtain ⟨s₈, h₈, hs₈⟩ := replaceDotDot_spec (byte '/') hstays hs₇
  obtain ⟨s₉, h₉, hs₉, hdot₉⟩ := replaceEndDot_spec hback_ne hstays hs₈
  have hstays' : Stays fun t => (Allowed windows t ∧ ∀ sep ∈ separators, NoPair sep sep (1 ≤ ·) t) ∧
      NoPair (byte '.') (byte '\\') (0 ≤ ·) t :=
    fun t i ht => ⟨hstays t i ht.1, ht.2.set (by decide) (by decide) i⟩
  obtain ⟨s₁₀, h₁₀, ⟨⟨hallowed, hdouble'⟩, hback'⟩, hslash'⟩ := replaceEndDot_spec hslash_ne hstays'
    ⟨hs₉, hdot₉⟩
  refine ⟨s₁₀, ?_, hallowed, hdouble', ?_⟩
  · simp only [validateFileName, Option.bind_eq_bind, h₁, h₂, h₃, h₄, h₅, h₆, h₇, h₈, h₉, Option.bind_some, h₁₀]
  · simp only [separators, List.forall_mem_cons, List.not_mem_nil, false_implies, implies_true, and_true]
    exact ⟨hback', hslash'⟩

theorem NoPair.absent {a b : UInt8} (h : NoPair a b (0 ≤ ·) s) : ¬[a, b] <:+: s := by
  rintro ⟨u, v, rfl⟩
  obtain ⟨ha, hb⟩ := pair_getElem? a b u v
  exact h u.length (Nat.zero_le _) ha hb

theorem Tidy.find_eq_none (h : Tidy windows s) {sep : UInt8} (hsep : sep ∈ separators) {pat : Bytes}
    (hpat : [byte '.', sep] <:+: pat) (pos : Nat) : find pat s pos = none :=
  find_eq_none_of_absent (fun hin => (h.dot sep hsep).absent (hpat.trans hin)) pos

theorem Tidy.removeDouble_eq (h : Tidy windows s) {sep : UInt8} (hsep : sep ∈ separators) :
    removeDouble sep s = some s := by
  apply whileFind_of_none
  cases hj : find [sep, sep] s 1 with
  | none => rfl
  | some j =>
    obtain ⟨hone, -, ⟨ha, hb⟩, -⟩ := find_pair_eq_some hj
    exact absurd hb (h.double sep hsep j hone ha)

/-- A colon that is the second character is passed by. -/
theorem Allowed.replaceColon_eq (h : Allowed windows s) : replaceColon s = some s := by
  have hend : findFirstOf [byte ':'] s 2 = none := by
    cases hj : findFirstOf [byte ':'] s 2 with
    | none => rfl
    | some j =>
      obtain ⟨htwo, ⟨c, hc, hget⟩, -⟩ := findFirstOf_eq_some hj
      have hone := h.colon j (List.mem_singleton.mp hc ▸ hget)
      omega
  rw [replaceColon, whileFind]
  cases hj : findFirstOf [byte ':'] s 0 with
  | none => rfl
  | some j =>
    obtain ⟨-, ⟨c, hc, hget⟩, -⟩ := findFirstOf_eq_some hj
    have hone := h.colon j (List.mem_singleton.mp hc ▸ hget)
    have hlt := (List.getElem?_eq_some_iff.mp hget).1
    obtain ⟨n, hn⟩ := Nat.exists_eq_succ_of_ne_zero (n := s.length) (by omega)
    dsimp only
    rw [if_pos hone, hone, hn]
    exact whileFind_of_none hend

/-- What is tidy is left alone. -/
theorem Tidy.validateFileName_eq (h : Tidy windows s) : validateFileName windows s = some s := by
  have hbad : replaceBad windows s = some s := whileFind_of_none (findFirstOf_of_not_mem h.allowed.bad 0)
  have hdots {sep : UInt8} (hsep : sep ∈ separators) : removeDots sep s = some s :=
    whileFind_of_none (h.find_eq_none hsep ⟨[sep], [], rfl⟩ 0)
  have hdotdot {sep : UInt8} (hsep : sep ∈ separators) : replaceDotDot sep s = some s :=
    whileFind_of_none (h.find_eq_none hsep ⟨[sep, byte '.'], [], rfl⟩ 0)
  have hend {sep : UInt8} (hsep : sep ∈ separators) : replaceEndDot sep s = some s :=
    whileFind_of_none (h.find_eq_none hsep (List.infix_refl _) 0)
  have hback : byte '\\' ∈ separators := by decide
  have hslash : byte '/' ∈ separators := by decide
  simp only [validateFileName, Option.bind_eq_bind, Option.bind_some, hbad, h.allowed.replaceColon_eq, hdots hback,
    hdots hslash, h.removeDouble_eq hback, h.removeDouble_eq hslash, hdotdot hback, hdotdot hslash, hend hback,
    hend hslash]

theorem infix_intercalate (sep : UInt8) (before : List Bytes) (part : Bytes) (after : List Bytes) (h : after ≠ []) :
    part ++ [sep] <:+: [sep].intercalate (before ++ part :: after) := by
  induction before with
  | nil =>
    obtain ⟨next, after, rfl⟩ := List.exists_cons_of_ne_nil h
    rw [List.nil_append, List.intercalate_cons_cons]
    exact (List.prefix_append _ _).isInfix
  | cons first before ih =>
    obtain ⟨next, rest, hnext⟩ := List.exists_cons_of_ne_nil (l := before ++ part :: after) (by simp)
    rw [List.cons_append, hnext, List.intercalate_cons_cons, ← hnext]
    exact ih.trans (List.suffix_append _ _).isInfix

/-- A part that a separator follows. -/
theorem infix_of_mem_dropLast_splitOn {sep : UInt8} {part : Bytes} (h : part ∈ (s.splitOn sep).dropLast) :
    part ++ [sep] <:+: s := by
  obtain ⟨before, after, hsplit⟩ := List.append_of_mem h
  have hne : s.splitOn sep ≠ [] := by
    intro hnil
    rw [hnil] at h
    exact absurd h List.not_mem_nil
  have hparts : s.splitOn sep = before ++ part :: (after ++ [(s.splitOn sep).getLast hne]) := by
    rw [← List.cons_append, ← List.append_assoc, ← hsplit, List.dropLast_append_getLast]
  have hin := infix_intercalate sep before part (after ++ [(s.splitOn sep).getLast hne]) (by simp)
  rwa [← hparts, List.intercalate_splitOn] at hin

theorem Tidy.sanitized (h : Tidy windows s) : Sanitized windows s where
  bad := h.allowed.bad
  colon := h.allowed.colon
  double sep hsep i hi hi' := by
    by_contra hne
    exact h.double sep hsep i (Nat.one_le_iff_ne_zero.mpr hne) hi hi'
  part sep hsep part hpart := by
    have hlast : part.getLast? ≠ some (byte '.') := by
      intro hdot
      obtain ⟨front, rfl⟩ := List.getLast?_eq_some_iff.mp hdot
      have hpair : [byte '.', sep] <:+: front ++ [byte '.'] ++ [sep] := ⟨front, [], by simp⟩
      exact (h.dot sep hsep).absent (hpair.trans (infix_of_mem_dropLast_splitOn hpart))
    exact ⟨fun hone => hlast (hone ▸ rfl), fun htwo => hlast (htwo ▸ rfl), hlast⟩

/-- A name comes out sanitized, and stays as it is when it is sanitized again. -/
theorem validateFileName_sanitized (windows : Bool) (tmp : Bytes) : ∃ name, validateFileName windows tmp = some name ∧
    Sanitized windows name ∧ validateFileName windows name = some name := by
  obtain ⟨name, hname, htidy⟩ := validateFileName_tidy windows tmp
  exact ⟨name, hname, htidy.sanitized, htidy.validateFileName_eq⟩

end Dcpp.Util
