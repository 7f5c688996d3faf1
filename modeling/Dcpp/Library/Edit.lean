import Mathlib.Data.List.Infix
import Mathlib.Tactic.Common

-- Strings that are searched from a place on and edited there.
namespace Dcpp.Edit

variable {α : Type*}

section Search

variable [DecidableEq α]

/-- The first place of `pat`. -/
def indexOf (pat : List α) : List α → Option Nat
  | [] => if pat = [] then some 0 else none
  | c :: s => if pat <+: c :: s then some 0 else (indexOf pat s).map (· + 1)

/-- `s.find(pat, pos)`. -/
def find (pat s : List α) (pos : Nat) : Option Nat :=
  if pos ≤ s.length then (indexOf pat (s.drop pos)).map (pos + ·) else none

/-- `s.find_first_of(chars, pos)`. -/
def findFirstOf (chars : List α) (s : List α) (pos : Nat) : Option Nat :=
  if pos ≤ s.length then ((s.drop pos).findIdx? fun c => c ∈ chars).map (pos + ·) else none

/-- `s.rfind(c, pos)`. -/
def rfind (c : α) (s : List α) : Nat → Option Nat
  | 0 => if s[0]? = some c then some 0 else none
  | pos + 1 => if s[pos + 1]? = some c then some (pos + 1) else rfind c s pos

/-- `s.rfind(pat)`, the last place of `pat`. -/
def lastIndexOf (pat : List α) : List α → Option Nat
  | [] => if pat = [] then some 0 else none
  | c :: s =>
    match lastIndexOf pat s with
    | some i => some (i + 1)
    | none => if pat <+: c :: s then some 0 else none

theorem indexOf_of_starts {pat s : List α} (h : pat <+: s) : indexOf pat s = some 0 := by
  cases s with
  | nil => simpa [indexOf] using h
  | cons c s => simp [indexOf, h]

theorem indexOf_cons_of_not_starts {pat s : List α} {c : α} (h : ¬pat <+: c :: s) :
    indexOf pat (c :: s) = (indexOf pat s).map (· + 1) := by
  simp [indexOf, h]

theorem indexOf_eq_none {pat s : List α} : indexOf pat s = none ↔ ¬pat <:+: s := by
  induction s with
  | nil => simp [indexOf]
  | cons c s ih =>
    by_cases h : pat <+: c :: s
    · simp [indexOf, h, h.isInfix]
    · simp [indexOf, h, List.infix_cons_iff, ih]

/-- What stands at the first place, and that none is before it. -/
theorem indexOf_eq_some {pat s : List α} {i : Nat} (h : indexOf pat s = some i) :
    ∃ u v, s = u ++ pat ++ v ∧ u.length = i ∧ ∀ k < i, ¬pat <+: s.drop k := by
  induction s generalizing i with
  | nil =>
    simp [indexOf] at h
    exact ⟨[], [], by simp [h.1], h.2, by omega⟩
  | cons c s ih =>
    by_cases hpre : pat <+: c :: s
    · rw [indexOf_of_starts hpre, Option.some_inj] at h
      obtain ⟨v, hv⟩ := hpre
      exact ⟨[], v, by simp [hv], h, by omega⟩
    · rw [indexOf_cons_of_not_starts hpre, Option.map_eq_some_iff] at h
      obtain ⟨j, hj, rfl⟩ := h
      obtain ⟨u, v, rfl, rfl, hfirst⟩ := ih hj
      refine ⟨c :: u, v, rfl, rfl, fun k hk => ?_⟩
      cases k with
      | zero => exact hpre
      | succ k => exact hfirst k (Nat.lt_of_succ_lt_succ hk)

/-- What stands behind the first place does not count. -/
theorem indexOf_append_right {pat s : List α} {i : Nat} (h : indexOf pat s = some i) (t : List α) :
    indexOf pat (s ++ t) = some i := by
  obtain ⟨u, v, rfl, rfl, hbefore⟩ := indexOf_eq_some h
  induction u with
  | nil =>
    apply indexOf_of_starts
    simp
  | cons c u ih =>
    have hc : ¬pat <+: c :: (u ++ pat ++ v) := hbefore 0 (Nat.succ_pos _)
    have hct : ¬pat <+: c :: (u ++ pat ++ v ++ t) := by
      intro hp
      apply hc
      apply List.prefix_of_prefix_length_le hp (List.prefix_append (c :: (u ++ pat ++ v)) t)
      simp only [List.length_cons, List.length_append]
      omega
    have hu : indexOf pat (u ++ pat ++ v) = some u.length := by
      rw [List.cons_append, List.cons_append, indexOf_cons_of_not_starts hc, Option.map_eq_some_iff] at h
      obtain ⟨k, hk, hlen⟩ := h
      rw [hk]
      simpa using hlen
    rw [List.cons_append, List.cons_append, List.cons_append, indexOf_cons_of_not_starts hct,
      ih hu fun k hk => hbefore (k + 1) (by simpa using hk)]
    rfl

/-- The search passes by what the pattern does not start in. -/
theorem indexOf_append {a : α} {pat d : List α} (ha : a ∉ d) (s : List α) :
    indexOf (a :: pat) (d ++ s) = (indexOf (a :: pat) s).map (d.length + ·) := by
  induction d with
  | nil => simp
  | cons c d ih =>
    simp only [List.mem_cons, not_or] at ha
    have hno : ¬a :: pat <+: c :: (d ++ s) := fun h => ha.1 (List.cons_prefix_cons.mp h).1
    rw [List.cons_append, indexOf_cons_of_not_starts hno, ih ha.2, Option.map_map]
    congr 1
    funext n
    simp
    omega

theorem find_append (pat u s : List α) : find pat (u ++ s) u.length = (indexOf pat s).map (u.length + ·) := by
  simp [find]

theorem find_eq_none_of_absent {pat s : List α} (h : ¬pat <:+: s) (pos : Nat) : find pat s pos = none := by
  rw [find]
  split
  · rw [indexOf_eq_none.mpr fun hin => h (hin.trans (List.drop_suffix pos s).isInfix)]
    rfl
  · rfl

/-- What a search leaves between its start and the place that it finds. -/
theorem find_eq_some {pat s : List α} {pos i : Nat} (h : find pat s pos = some i) :
    pos ≤ i ∧ (∃ u v, s = u ++ pat ++ v ∧ u.length = i) ∧ ∀ k, pos ≤ k → k < i → ¬pat <+: s.drop k := by
  rw [find] at h
  split at h
  next hpos =>
    obtain ⟨j, hj, rfl⟩ := Option.map_eq_some_iff.mp h
    obtain ⟨u, v, hs, rfl, hfirst⟩ := indexOf_eq_some hj
    refine ⟨Nat.le_add_right _ _, ⟨s.take pos ++ u, v, ?_, ?_⟩, fun k hk hki => ?_⟩
    · rw [List.append_assoc, List.append_assoc, ← List.append_assoc u, ← hs, List.take_append_drop]
    · rw [List.length_append, List.length_take_of_le hpos]
    · have h := hfirst (k - pos) (by omega)
      rwa [List.drop_drop, Nat.add_sub_cancel' hk] at h
  next => cases h

theorem find_eq_none {pat s : List α} {pos : Nat} (h : find pat s pos = none) {k : Nat} (hpos : pos ≤ k)
    (hk : k ≤ s.length) : ¬pat <+: s.drop k := by
  rw [find, if_pos (hpos.trans hk), Option.map_eq_none_iff, indexOf_eq_none] at h
  intro hpre
  apply h
  have hdrop : s.drop k = (s.drop pos).drop (k - pos) := by rw [List.drop_drop, Nat.add_sub_cancel' hpos]
  rw [hdrop] at hpre
  exact hpre.isInfix.trans (List.drop_suffix _ _).isInfix

theorem find_bounds {pat s : List α} {pos i : Nat} (h : find pat s pos = some i) :
    pos ≤ i ∧ i + pat.length ≤ s.length := by
  obtain ⟨hpos, ⟨u, v, rfl, rfl⟩, -⟩ := find_eq_some h
  refine ⟨hpos, ?_⟩
  simp only [List.length_append]
  omega

theorem find_lt {c : α} {s : List α} {pos i : Nat} (h : find [c] s pos = some i) : pos ≤ i ∧ i < s.length :=
  find_bounds h

theorem find_char {c : α} {w : List α} (hc : c ∉ w) (u v : List α) :
    find [c] (u ++ (w ++ c :: v)) u.length = some (u.length + w.length) := by
  rw [find_append, indexOf_append hc, indexOf_of_starts (by simp)]
  rfl

theorem find_first {c : α} {w : List α} (hc : c ∉ w) (v : List α) : find [c] (w ++ c :: v) 0 = some w.length := by
  have h := find_char hc [] v
  rwa [List.nil_append, List.length_nil, Nat.zero_add] at h

theorem split_first {c : α} {w w' v v' : List α} (hc : c ∉ w) (hc' : c ∉ w') (h : w ++ c :: v = w' ++ c :: v') :
    w = w' ∧ v = v' := by
  have hlen : some w.length = some w'.length := by rw [← find_first hc v, h, find_first hc' v']
  obtain ⟨rfl, htail⟩ := List.append_inj h (Option.some_inj.mp hlen)
  exact ⟨rfl, (List.cons.inj htail).2⟩

theorem find_char_none {c : α} {s : List α} (hc : c ∉ s) (pos : Nat) : find [c] s pos = none :=
  find_eq_none_of_absent (fun h => hc (h.subset List.mem_cons_self)) pos

/-- The first of the characters that stands at `pos` or behind it. -/
theorem findFirstOf_eq_some {chars s : List α} {pos i : Nat} (h : findFirstOf chars s pos = some i) :
    pos ≤ i ∧ (∃ c ∈ chars, s[i]? = some c) ∧ ∀ k, pos ≤ k → k < i → ∀ c ∈ chars, s[k]? ≠ some c := by
  rw [findFirstOf] at h
  split at h
  next hpos =>
    obtain ⟨j, hj, rfl⟩ := Option.map_eq_some_iff.mp h
    obtain ⟨hlt, hmem, hfirst⟩ := List.findIdx?_eq_some_iff_getElem.mp hj
    refine ⟨Nat.le_add_right _ _, ⟨_, of_decide_eq_true hmem, ?_⟩, fun k hk hki c hc hkc => ?_⟩
    · rw [← List.getElem?_drop, List.getElem?_eq_getElem hlt]
    · apply hfirst (k - pos) (by omega)
      have hget : (s.drop pos)[k - pos]? = some c := by rw [List.getElem?_drop, Nat.add_sub_cancel' hk, hkc]
      rw [(List.getElem?_eq_some_iff.mp hget).2]
      exact decide_eq_true hc
  next => cases h

theorem findFirstOf_eq_none {chars s : List α} {pos k : Nat} (h : findFirstOf chars s pos = none) (hk : pos ≤ k)
    {c : α} (hc : c ∈ chars) : s[k]? ≠ some c := by
  intro hkc
  have hlt : k < s.length := (List.getElem?_eq_some_iff.mp hkc).1
  rw [findFirstOf, if_pos (by omega), Option.map_eq_none_iff, List.findIdx?_eq_none_iff] at h
  have hmem : c ∈ s.drop pos := by
    apply List.mem_of_getElem? (i := k - pos)
    rw [List.getElem?_drop, Nat.add_sub_cancel' hk, hkc]
  simpa [hc] using h c hmem

/-- Where none of the characters is, there is nothing to find. -/
theorem findFirstOf_of_not_mem {chars s : List α} (h : ∀ c ∈ s, c ∉ chars) (pos : Nat) :
    findFirstOf chars s pos = none := by
  cases hi : findFirstOf chars s pos with
  | none => rfl
  | some i =>
    obtain ⟨-, ⟨c, hc, hget⟩, -⟩ := findFirstOf_eq_some hi
    exact absurd hc (h c (List.mem_of_getElem? hget))

/-- The search passes by what has none of the characters. -/
theorem findFirstOf_append {chars d : List α} (hd : ∀ c ∈ d, c ∉ chars) (u s : List α) :
    findFirstOf chars (u ++ (d ++ s)) u.length =
      (s.findIdx? fun c => c ∈ chars).map ((u ++ d).length + ·) := by
  have hnone : (d.findIdx? fun c => c ∈ chars) = none := by
    simpa [List.findIdx?_eq_none_iff] using hd
  rw [findFirstOf, if_pos (by simp), List.drop_left, List.findIdx?_append, hnone, Option.none_or, Option.map_map]
  congr 1
  funext n
  simp only [Function.comp_apply, List.length_append]
  omega

theorem rfind_eq_some {c : α} {s : List α} {pos i : Nat} (hi : s[i]? = some c) (hpos : i ≤ pos)
    (hlast : ∀ k, i < k → k ≤ pos → s[k]? ≠ some c) : rfind c s pos = some i := by
  induction pos with
  | zero =>
    obtain rfl := Nat.le_zero.mp hpos
    simp [rfind, hi]
  | succ pos ih =>
    obtain heq | hlt := Nat.eq_or_lt_of_le hpos
    · subst heq
      simp [rfind, hi]
    · rw [rfind, if_neg (hlast _ hlt le_rfl)]
      exact ih (Nat.lt_succ_iff.mp hlt) fun k hk hle => hlast k hk (hle.trans (Nat.le_succ pos))

theorem rfind_eq_none {c : α} {s : List α} (h : c ∉ s) (pos : Nat) : rfind c s pos = none := by
  have hne (k : Nat) : s[k]? ≠ some c := fun hk => h (List.mem_of_getElem? hk)
  induction pos with
  | zero => simp [rfind, hne]
  | succ pos ih => simp [rfind, hne, ih]

theorem le_of_rfind {c : α} {s : List α} {pos i : Nat} (h : rfind c s pos = some i) : i ≤ pos ∧ i < s.length := by
  induction pos with
  | zero =>
    rw [rfind] at h
    split at h
    next hget =>
      cases h
      exact ⟨le_rfl, (List.getElem?_eq_some_iff.mp hget).1⟩
    next => cases h
  | succ pos ih =>
    rw [rfind] at h
    split at h
    next hget =>
      cases h
      exact ⟨le_rfl, (List.getElem?_eq_some_iff.mp hget).1⟩
    next => exact ⟨(ih h).1.trans (Nat.le_succ pos), (ih h).2⟩

/-- The search does not see what stands behind its start. -/
theorem rfind_take (c : α) (u v : List α) {pos : Nat} (hpos : pos < u.length) : rfind c (u ++ v) pos = rfind c u pos := by
  induction pos with
  | zero => simp [rfind, List.getElem?_append_left hpos]
  | succ pos ih => simp [rfind, List.getElem?_append_left hpos, ih (Nat.lt_of_succ_lt hpos)]

omit [DecidableEq α] in
theorem getElem?_length_append (u v : List α) : (u ++ v)[u.length]? = v.head? := by
  rw [List.getElem?_append_right le_rfl, Nat.sub_self, List.head?_eq_getElem?]

/-- What stands at the end of the string that is searched, and is not looked for. -/
theorem rfind_head {c : α} {v : List α} (hv : v.head? ≠ some c) (u : List α) :
    rfind c (u ++ v) u.length = rfind c u u.length := by
  have hend : (u ++ v)[u.length]? ≠ some c := by rwa [getElem?_length_append]
  have hbehind : u[u.length]? ≠ some c := by simp
  generalize hlen : u.length = n at hend hbehind
  cases n with
  | zero => rw [rfind, rfind, if_neg hend, if_neg hbehind]
  | succ n => rw [rfind, rfind, if_neg hend, if_neg hbehind, rfind_take c u v (by omega)]

theorem rfind_append {c : α} {v : List α} (hv : c ∉ v) (u : List α) {pos : Nat} (hpos : u.length ≤ pos) :
    rfind c (u ++ c :: v) pos = some u.length := by
  apply rfind_eq_some
  · simp
  · exact hpos
  · intro k hk _ hget
    obtain ⟨n, rfl⟩ := Nat.exists_eq_add_of_lt hk
    apply hv
    apply List.mem_of_getElem? (i := n)
    simpa [List.getElem?_append_right, Nat.add_assoc] using hget

theorem lastIndexOf_of_not_mem {a : α} {s : List α} (ha : a ∉ s) (pat : List α) : lastIndexOf (a :: pat) s = none := by
  induction s with
  | nil => rw [lastIndexOf, if_neg (List.cons_ne_nil a pat)]
  | cons c s ih =>
    rw [List.mem_cons, not_or] at ha
    have hhead : ¬a :: pat <+: c :: s := fun h => ha.1 (List.cons_prefix_cons.mp h).1
    rw [lastIndexOf, ih ha.2, if_neg hhead]

/-- The first character of `pat` does not stand behind it. -/
theorem lastIndexOf_append {a : α} {pat v : List α} (ha : a ∉ pat ++ v) (u : List α) :
    lastIndexOf (a :: pat) (u ++ a :: (pat ++ v)) = some u.length := by
  induction u with
  | nil =>
    have hhead : a :: pat <+: a :: (pat ++ v) := List.cons_prefix_cons.mpr ⟨rfl, List.prefix_append pat v⟩
    rw [List.nil_append, lastIndexOf, lastIndexOf_of_not_mem ha, if_pos hhead]
    rfl
  | cons c u ih => rw [List.cons_append, lastIndexOf, ih, List.length_cons]

theorem lastIndexOf_bounds {pat s : List α} {i : Nat} (h : lastIndexOf pat s = some i) :
    i + pat.length ≤ s.length := by
  induction s generalizing i with
  | nil =>
    rw [lastIndexOf] at h
    split at h
    next hpat =>
      cases h
      rw [hpat]
      exact le_rfl
    next => cases h
  | cons c s ih =>
    rw [lastIndexOf] at h
    split at h
    next j hj =>
      cases h
      have hle := ih hj
      rw [List.length_cons]
      omega
    next =>
      split at h
      next hpre =>
        cases h
        rw [Nat.zero_add]
        exact hpre.length_le
      next => cases h

end Search

theorem pair_prefix_drop {a b : α} {s : List α} {k : Nat} :
    [a, b] <+: s.drop k ↔ s[k]? = some a ∧ s[k + 1]? = some b := by
  have hget (j : Nat) : (s.drop k)[j]? = s[k + j]? := List.getElem?_drop
  rw [← hget 1, ← Nat.add_zero k, ← hget 0, Nat.add_zero]
  obtain _ | ⟨x, _ | ⟨y, t⟩⟩ := s.drop k
  · simp
  · simp [List.cons_prefix_cons]
  · simp [List.cons_prefix_cons, eq_comm]

theorem pair_getElem? (a b : α) (u v : List α) :
    (u ++ [a, b] ++ v)[u.length]? = some a ∧ (u ++ [a, b] ++ v)[u.length + 1]? = some b := by
  apply pair_prefix_drop.mp
  simp

section Pair

variable [DecidableEq α] {a b : α} {s : List α} {pos : Nat}

/-- What a search for two characters finds, and passes by. -/
theorem find_pair_eq_some {i : Nat} (h : find [a, b] s pos = some i) : pos ≤ i ∧ i + 2 ≤ s.length ∧
    (s[i]? = some a ∧ s[i + 1]? = some b) ∧ ∀ k, pos ≤ k → k < i → s[k]? = some a → s[k + 1]? ≠ some b := by
  obtain ⟨hpos, ⟨u, v, rfl, rfl⟩, hfirst⟩ := find_eq_some h
  exact ⟨hpos, (find_bounds h).2, pair_getElem? a b u v,
    fun k hk hki ha hb => hfirst k hk hki (pair_prefix_drop.mpr ⟨ha, hb⟩)⟩

theorem find_pair_eq_none (h : find [a, b] s pos = none) {k : Nat} (hk : pos ≤ k) (ha : s[k]? = some a) :
    s[k + 1]? ≠ some b := by
  intro hb
  have hlt := (List.getElem?_eq_some_iff.mp ha).1
  exact find_eq_none h hk (Nat.le_of_lt hlt) (pair_prefix_drop.mpr ⟨ha, hb⟩)

end Pair

/-- `s.replace(pos, n, new)`. -/
def replace (s : List α) (pos n : Nat) (new : List α) : List α := s.take pos ++ new ++ s.drop (pos + n)

theorem replace_append (u p v : List α) (n : Nat) (new : List α) (hn : n ≤ p.length) :
    replace (u ++ p ++ v) u.length n new = u ++ (new ++ p.drop n) ++ v := by
  simp [replace, List.drop_append_of_le_length hn]

/-- `s.erase(pos, n)`. -/
def erase (s : List α) (pos n : Nat) : List α := s.take pos ++ s.drop (pos + n)

theorem erase_append (u p v : List α) : erase (u ++ (p ++ v)) u.length p.length = u ++ v := by
  simp [erase]

/-- `s.substr(pos, n)`, which throws behind the end. -/
def substr (s : List α) (pos n : Nat) : Option (List α) :=
  if pos ≤ s.length then some ((s.drop pos).take n) else none

theorem substr_of_le {s : List α} {pos : Nat} (h : pos ≤ s.length) (n : Nat) :
    substr s pos n = some ((s.drop pos).take n) := by
  simp [substr, h]

theorem isSome_substr_bind {β : Type*} {s : List α} {pos n : Nat} {f : List α → Option β} (h : pos ≤ s.length)
    (hf : ∀ t, (f t).isSome) : ((substr s pos n).bind f).isSome := by
  rw [substr_of_le h, Option.bind_some]
  exact hf _

theorem substr_append (u p v : List α) : substr (u ++ (p ++ v)) u.length p.length = some p := by
  simp [substr]

theorem substr_rest (u v : List α) : substr (u ++ v) u.length (u ++ v).length = some v := by
  have hle : v.length ≤ (u ++ v).length := by simp
  rw [substr_of_le (by simp), List.drop_left, List.take_of_length_le hle]

theorem getElem?_erase {s : List α} {pos : Nat} (n : Nat) (hpos : pos ≤ s.length) (k : Nat) :
    (erase s pos n)[k]? = if k < pos then s[k]? else s[k + n]? := by
  rw [erase, List.getElem?_append, List.length_take_of_le hpos]
  split
  next hk => rw [List.getElem?_take, if_pos hk]
  next hk =>
    rw [List.getElem?_drop]
    congr 1
    omega

theorem length_erase {s : List α} {pos n : Nat} (h : pos + n ≤ s.length) : (erase s pos n).length = s.length - n := by
  simp [erase]
  omega

/-- The loop `while((i = search(s, i)) != npos)`, without a result when the rounds do not suffice. -/
def whileFind (search : List α → Nat → Option Nat) (body : List α → Nat → List α × Nat) :
    Nat → List α → Nat → Option (List α)
  | 0, _, _ => none
  | rounds + 1, s, i =>
    match search s i with
    | none => some s
    | some i => whileFind search body rounds (body s i).1 (body s i).2

/-- A round keeps the invariant and comes nearer to the end of the string: the loop ends where nothing is found any
more. -/
theorem whileFind_invariant (search : List α → Nat → Option Nat) (body : List α → Nat → List α × Nat)
    (Inv : List α → Nat → Prop) (rounds : Nat) (s : List α) (i : Nat) (hstep : ∀ s i j, Inv s i → search s i = some j →
      Inv (body s j).1 (body s j).2 ∧ (body s j).1.length - (body s j).2 < s.length - i)
    (hs : Inv s i) (hrounds : s.length - i < rounds) :
    ∃ t j, whileFind search body rounds s i = some t ∧ Inv t j ∧ search t j = none := by
  induction rounds generalizing s i with
  | zero => cases hrounds
  | succ rounds ih =>
    rw [whileFind]
    cases hj : search s i with
    | none => exact ⟨s, i, rfl, hs, hj⟩
    | some j =>
      obtain ⟨hinv, hlt⟩ := hstep s i j hs hj
      exact ih _ _ hinv (by omega)

theorem whileFind_of_none {search : List α → Nat → Option Nat} {body : List α → Nat → List α × Nat} {rounds : Nat}
    {s : List α} {i : Nat} (h : search s i = none) : whileFind search body (rounds + 1) s i = some s := by
  rw [whileFind, h]

section Substitute

variable [DecidableEq α]

/-- Every `p` is replaced by `q`, from the left. -/
def substitute (p q : List α) : List α → List α
  | [] => []
  | c :: s => if p <+: c :: s then q ++ substitute p q (s.drop (p.length - 1)) else c :: substitute p q s
termination_by s => s.length
decreasing_by all_goals simp; try omega

variable {p q : List α}

theorem substitute_nil : substitute p q [] = [] := by
  rw [substitute]

theorem substitute_cons {c : α} {s : List α} (h : ¬p <+: c :: s) :
    substitute p q (c :: s) = c :: substitute p q s := by
  rw [substitute, if_neg h]

theorem substitute_append (hp : p ≠ []) (v : List α) : substitute p q (p ++ v) = q ++ substitute p q v := by
  obtain ⟨c, p', rfl⟩ := List.exists_cons_of_ne_nil hp
  rw [List.cons_append, substitute, if_pos (List.cons_append ▸ List.prefix_append _ v)]
  simp

/-- What stands before the first place stays. -/
theorem substitute_before {u s : List α} (h : ∀ k < u.length, ¬p <+: (u ++ s).drop k) :
    substitute p q (u ++ s) = u ++ substitute p q s := by
  induction u with
  | nil => rfl
  | cons c u ih =>
    have hfirst : ¬p <+: c :: (u ++ s) := h 0 (Nat.succ_pos _)
    rw [List.cons_append, substitute_cons hfirst, ih fun k hk => h (k + 1) (Nat.succ_lt_succ hk), List.cons_append]

theorem substitute_of_absent {s : List α} (h : ¬p <:+: s) : substitute p q s = s := by
  have hbefore : substitute p q (s ++ []) = s ++ substitute p q [] := by
    apply substitute_before
    intro k _ hpre
    rw [List.append_nil] at hpre
    exact h (hpre.isInfix.trans (List.drop_suffix k s).isInfix)
  simpa [substitute_nil] using hbefore

omit [DecidableEq α] in
/-- A map that takes nothing else to a character of the pattern does not change where the pattern starts. -/
theorem prefix_map_iff {f : α → α} (hp : ∀ c ∈ p, ∀ x, f x = c ↔ x = c) (s : List α) : p <+: s.map f ↔ p <+: s := by
  induction p generalizing s with
  | nil => simp
  | cons c p ih =>
    cases s with
    | nil => simp
    | cons x s =>
      have hc : c = f x ↔ c = x := by rw [eq_comm, hp c List.mem_cons_self x, eq_comm]
      rw [List.map_cons, List.cons_prefix_cons, List.cons_prefix_cons, hc, ih (fun c hc => hp c (List.mem_cons_of_mem _ hc))]

theorem substitute_map {f : α → α} (hp : ∀ c ∈ p, ∀ x, f x = c ↔ x = c) (hq : q.map f = q) (s : List α) :
    substitute p q (s.map f) = (substitute p q s).map f := by
  induction s using substitute.induct p with
  | case1 => rw [List.map_nil, substitute_nil, List.map_nil]
  | case2 c s hpre ih =>
    have hpre' : p <+: (c :: s).map f := (prefix_map_iff hp _).mpr hpre
    rw [List.map_cons] at hpre' ⊢
    rw [substitute, if_pos hpre', substitute, if_pos hpre, ← List.map_drop, ih, List.map_append, hq]
  | case3 c s hpre ih =>
    have hpre' : ¬p <+: (c :: s).map f := fun h => hpre ((prefix_map_iff hp _).mp h)
    rw [List.map_cons] at hpre' ⊢
    rw [substitute_cons hpre', substitute_cons hpre, ih, List.map_cons]

/-- What the pattern does not start in stays. -/
theorem substitute_pass {a : α} {p d : List α} (ha : a ∉ d) (s : List α) :
    substitute (a :: p) q (d ++ s) = d ++ substitute (a :: p) q s := by
  apply substitute_before
  intro k hk hpre
  rw [List.drop_append_of_le_length (Nat.le_of_lt hk), List.drop_eq_getElem_cons hk, List.cons_append] at hpre
  exact ha ((List.cons_prefix_cons.mp hpre).1 ▸ List.getElem_mem hk)

theorem substitute_singleton (c : α) (q s : List α) :
    substitute [c] q s = s.flatMap fun x => if x = c then q else [x] := by
  induction s with
  | nil => exact substitute_nil
  | cons x s ih =>
    by_cases hx : x = c
    · subst hx
      have h := substitute_append (p := [x]) (q := q) (List.cons_ne_nil x []) s
      simpa [ih] using h
    · have hno : ¬[c] <+: x :: s := fun h => hx (List.cons_prefix_cons.mp h).1.symm
      simp [substitute_cons hno, hx, ih]

theorem absent_append {a : α} {p d s : List α} (ha : a ∉ d) (h : ¬a :: p <:+: s) : ¬a :: p <:+: d ++ s := by
  rw [← indexOf_eq_none] at h ⊢
  rw [indexOf_append ha, h]
  rfl

/-- The loop that replaces `n` elements from a place of `pat` by `new`, and goes on `skip` further. -/
def replaceLoop (pat : List α) (n : Nat) (new : List α) (skip : Nat) (s : List α) : Option (List α) :=
  whileFind (find pat) (fun s i => (replace s i n new, i + skip)) (s.length + 1) s 0

/-- The loop replaces every place of the pattern, when the pattern does not start in what it leaves behind. -/
theorem replaceLoop_eq {a : α} {pat new : List α} {n skip : Nat} (hn : n ≤ pat.length + 1)
    (hskip : skip ≤ (new ++ (a :: pat).drop n).length) (ha : a ∉ (new ++ (a :: pat).drop n).drop skip) (s : List α) :
    replaceLoop (a :: pat) n new skip s = some (substitute (a :: pat) (new ++ (a :: pat).drop n) s) := by
  generalize hq : new ++ (a :: pat).drop n = q at *
  have hloop : ∀ rounds u d s, a ∉ d → s.length < rounds →
      whileFind (find (a :: pat)) (fun s i => (replace s i n new, i + skip)) rounds (u ++ (d ++ s)) u.length =
        some (u ++ (d ++ substitute (a :: pat) q s)) := by
    intro rounds
    induction rounds with
    | zero => intro _ _ _ _ h; cases h
    | succ rounds ih =>
      intro u d s hd hs
      rw [whileFind, find_append, indexOf_append hd]
      cases hi : indexOf (a :: pat) s with
      | none =>
        rw [substitute_of_absent (indexOf_eq_none.mp hi)]
        rfl
      | some i =>
        obtain ⟨w, v, rfl, rfl, hfirst⟩ := indexOf_eq_some hi
        have hsub : substitute (a :: pat) q (w ++ (a :: pat) ++ v) = w ++ (q ++ substitute (a :: pat) q v) := by
          rw [List.append_assoc] at hfirst ⊢
          rw [substitute_before hfirst, substitute_append (List.cons_ne_nil a pat)]
        -- the part of the replacement that is searched again
        have hsplit : replace (u ++ (d ++ (w ++ (a :: pat) ++ v))) (u ++ d ++ w).length n new =
            (u ++ d ++ w ++ q.take skip) ++ (q.drop skip ++ v) := by
          have h := replace_append (u ++ d ++ w) (a :: pat) v n new hn
          rw [hq] at h
          simp only [List.append_assoc] at h ⊢
          rw [h, ← List.append_assoc (q.take skip), List.take_append_drop]
        have hlen : (u ++ d ++ w ++ q.take skip).length = (u ++ d ++ w).length + skip := by
          rw [List.length_append, List.length_take_of_le hskip]
        have hplace : u.length + (d.length + w.length) = (u ++ d ++ w).length := by
          simp
        have hjoin (t : List α) : q.take skip ++ (q.drop skip ++ t) = q ++ t := by
          rw [← List.append_assoc, List.take_append_drop]
        simp only [List.length_append, List.length_cons] at hs
        dsimp only [Option.map_some]
        rw [hplace, hsplit, ← hlen, ih _ _ v ha (by omega), hsub]
        simp only [List.append_assoc, hjoin]
  exact hloop (s.length + 1) [] [] s List.not_mem_nil (Nat.lt_succ_self _)

end Substitute

end Dcpp.Edit
