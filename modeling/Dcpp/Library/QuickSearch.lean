import Dcpp.Library.Edit

-- The search for a pattern that moves by the character behind its window.
namespace Dcpp.QuickSearch

variable {α : Type*}

/-- A shift does not pass by the places at which the character behind the window stands in the pattern. -/
structure Safe (p : List α) (shift : Option α → Nat) : Prop where
  pos : ∀ c, 0 < shift c
  le : ∀ c, shift c ≤ p.length + 1
  place : ∀ j c, p[j]? = some c → j + shift (some c) ≤ p.length

/-- The places of the windows of `n` characters; the search for `q` ends at a window that is not inside of `s`, and at
one that starts with `q`. -/
inductive Window (q s : List α) (n : Nat) (shift : Option α → Nat) : Nat → Prop
  | first : Window q s n shift 0
  | next {t : Nat} : Window q s n shift t → t + n ≤ s.length → ¬q <+: s.drop t →
      Window q s n shift (t + shift s[t + n]?)

variable {p q s : List α} {n : Nat} {shift : Option α → Nat}

theorem getElem?_of_prefix_drop {t j : Nat} (h : p <+: s.drop t) (hj : j < p.length) : s[t + j]? = p[j]? := by
  obtain ⟨v, hv⟩ := h
  rw [← List.getElem?_drop, ← hv, List.getElem?_append_left hj]

/-- The window does not move past a place of the pattern. -/
theorem Safe.le_of_starts (h : Safe p shift) {t t₀ : Nat} (hp : p <+: s.drop t₀) (ht : t < t₀) :
    t + shift s[t + p.length]? ≤ t₀ := by
  by_cases hbefore : t + p.length < t₀
  · have hle := h.le s[t + p.length]?
    omega
  · have hj : t + p.length - t₀ < p.length := by omega
    have hget := getElem?_of_prefix_drop hp hj
    rw [Nat.add_sub_cancel' (Nat.le_of_not_lt hbefore), List.getElem?_eq_getElem hj] at hget
    have hplace := h.place _ _ (List.getElem?_eq_getElem hj)
    rw [hget]
    omega

/-- The first place of the pattern is one of the windows. -/
theorem Safe.window (h : Safe p shift) {t₀ : Nat} (hp : p <+: s.drop t₀) (hlen : t₀ + p.length ≤ s.length)
    (hfirst : ∀ t < t₀, ¬p <+: s.drop t) : Window p s p.length shift t₀ := by
  suffices hreach : ∀ d t, Window p s p.length shift t → t + d = t₀ → Window p s p.length shift t₀ from
    hreach t₀ 0 Window.first (Nat.zero_add t₀)
  intro d
  induction d using Nat.strong_induction_on with
  | _ d ih =>
    intro t hwindow hd
    obtain rfl | hpos := Nat.eq_zero_or_pos d
    · rwa [← hd]
    · have hle := h.le_of_starts hp (t := t) (by omega)
      have hmove := h.pos s[t + p.length]?
      have hnext := hwindow.next (by omega) (hfirst t (by omega))
      exact ih (t₀ - (t + shift s[t + p.length]?)) (by omega) _ hnext (by omega)

/-- Where the pattern is not found, the windows run over the end. -/
theorem Window.exists_behind (hpos : ∀ c, 0 < shift c) (hno : ∀ t, t + n ≤ s.length → ¬q <+: s.drop t) :
    ∃ t, Window q s n shift t ∧ s.length < t + n := by
  suffices hreach : ∀ d t, Window q s n shift t → s.length - t = d → ∃ t, Window q s n shift t ∧ s.length < t + n from
    hreach _ 0 Window.first rfl
  intro d
  induction d using Nat.strong_induction_on with
  | _ d ih =>
    intro t hwindow hd
    by_cases hin : t + n ≤ s.length
    · have hmove := hpos s[t + n]?
      have hnext := hwindow.next hin (hno t hin)
      by_cases hend : t = s.length
      · exact ⟨_, hnext, by omega⟩
      · exact ih (s.length - (t + shift s[t + n]?)) (by omega) _ hnext rfl
    · exact ⟨t, hwindow, Nat.lt_of_not_le hin⟩

end Dcpp.QuickSearch
