import Dcpp.Library.Chunks

namespace Dcpp.HashTree

open Chunks

/-- The largest power of two below `n`, for `n` at least two. -/
def half (n : Nat) : Nat := 2 ^ Nat.log2 (n - 1)

theorem half_pos (n : Nat) : 0 < half n := Nat.two_pow_pos _

theorem half_lt {n : Nat} (h : 2 ≤ n) : half n < n := by
  have := Nat.log2_self_le (n := n - 1) (by omega)
  rw [half]
  omega

theorem half_eq {n j : Nat} (h : 2 ^ j < n) (h' : n ≤ 2 ^ (j + 1)) : half n = 2 ^ j := by
  have hj := Nat.two_pow_pos j
  have hlog : Nat.log2 (n - 1) = j := by
    rw [Nat.log2_eq_iff (by omega)]
    omega
  rw [half, hlog]

theorem half_spec {n : Nat} (h : 2 ≤ n) : ∃ j, half n = 2 ^ j ∧ 2 ^ j < n ∧ n ≤ 2 ^ (j + 1) := by
  refine ⟨Nat.log2 (n - 1), rfl, half_lt h, ?_⟩
  have := Nat.lt_log2_self (n := n - 1)
  omega

variable {V : Type*} [Inhabited V] (combine : V → V → V)

/-- The root over a row of values: the left child takes the largest power of two
below their number. -/
def rootOf (l : List V) : V :=
  if 2 ≤ l.length then combine (rootOf (l.take (half l.length))) (rootOf (l.drop (half l.length)))
  else l.headD default
termination_by l.length
decreasing_by
  · have := half_lt ‹2 ≤ l.length›
    simp only [List.length_take]
    omega
  · have := half_pos l.length
    simp only [List.length_drop]
    omega

theorem rootOf_of_two_le {l : List V} (h : 2 ≤ l.length) : rootOf combine l =
    combine (rootOf combine (l.take (half l.length))) (rootOf combine (l.drop (half l.length))) := by
  rw [rootOf, if_pos h]

@[simp] theorem rootOf_singleton (v : V) : rootOf combine [v] = v := by
  rw [rootOf, if_neg (by simp)]
  rfl

theorem rootOf_append {j : Nat} {l m : List V} (hl : l.length = 2 ^ j) (hm : 0 < m.length)
    (hm' : m.length ≤ 2 ^ j) : rootOf combine (l ++ m) = combine (rootOf combine l) (rootOf combine m) := by
  have hj := Nat.two_pow_pos j
  have hlen : (l ++ m).length = l.length + m.length := List.length_append
  have hhalf : half (l ++ m).length = l.length := by
    rw [hl]
    exact half_eq (by omega) (by omega)
  rw [rootOf_of_two_le combine (by omega), hhalf, List.take_left, List.drop_left]

/-- Taking the roots of groups of `2 ^ k` first does not change the root. -/
theorem rootOf_chunks (k : Nat) (l : List V) (hl : l ≠ []) :
    rootOf combine ((chunks (2 ^ k) l).map (rootOf combine)) = rootOf combine l := by
  have hk := Nat.two_pow_pos k
  induction hn : l.length using Nat.strong_induction_on generalizing l with
  | _ n ih =>
    obtain hle | hlt := le_or_gt l.length (2 ^ k)
    · rw [chunks_of_le hl hle, List.map_singleton, rootOf_singleton]
    · obtain ⟨j, hj, hjl, hjl'⟩ := half_spec (n := l.length) (by omega)
      have hkj : k ≤ j := by
        by_contra hc
        have := Nat.pow_le_pow_right (n := 2) (by omega) (show j + 1 ≤ k by omega)
        omega
      have htake : (l.take (2 ^ j)).length = 2 ^ j := by simp; omega
      have hdrop : (l.drop (2 ^ j)).length = l.length - 2 ^ j := by simp
      have hj0 := Nat.two_pow_pos j
      have hl1 : l.take (2 ^ j) ≠ [] := by
        rw [← List.length_pos_iff]
        omega
      have hl2 : l.drop (2 ^ j) ≠ [] := by
        rw [← List.length_pos_iff]
        omega
      have hdvd : 2 ^ k ∣ (l.take (2 ^ j)).length := by
        rw [htake]
        exact pow_dvd_pow 2 hkj
      have hpow : 2 ^ k * 2 ^ (j - k) = 2 ^ j := by
        rw [← pow_add]
        congr 1
        omega
      have hg1 : (chunks (2 ^ k) (l.take (2 ^ j))).length = 2 ^ (j - k) := by
        rw [chunks_length hk, htake, ← hpow, show 2 ^ k * 2 ^ (j - k) + 2 ^ k - 1 =
          2 ^ k - 1 + 2 ^ k * 2 ^ (j - k) by omega, Nat.add_mul_div_left _ _ hk,
          Nat.div_eq_of_lt (by omega), Nat.zero_add]
      have hg2 : (chunks (2 ^ k) (l.drop (2 ^ j))).length ≤ 2 ^ (j - k) := by
        rw [chunks_length hk, hdrop]
        refine Nat.le_of_lt_succ ((Nat.div_lt_iff_lt_mul hk).mpr ?_)
        rw [Nat.succ_mul, Nat.mul_comm _ (2 ^ k), hpow]
        omega
      have hg2' : 0 < (chunks (2 ^ k) (l.drop (2 ^ j))).length :=
        List.length_pos_iff.mpr (chunks_ne_nil hk hl2)
      conv_lhs => rw [← List.take_append_drop (2 ^ j) l]
      rw [chunks_append hdvd, List.map_append,
        rootOf_append combine (by simpa using hg1) (by simpa using hg2') (by simpa using hg2),
        ih _ (by omega) _ hl1 rfl, ih _ (by omega) _ hl2 rfl]
      conv_rhs => rw [← List.take_append_drop (2 ^ j) l]
      rw [rootOf_append combine htake (by omega) (by omega)]

/-- Where no two pairs of values are combined to the same one, the root of a row
determines the row of its length. -/
theorem rootOf_injective (hinj : ∀ a b c d, combine a b = combine c d → a = c ∧ b = d)
    {l m : List V} (hlen : l.length = m.length) (h : rootOf combine l = rootOf combine m) : l = m := by
  induction hn : l.length using Nat.strong_induction_on generalizing l m with
  | _ n ih =>
    obtain hle | hlt := le_or_gt 2 l.length
    · have h1 := half_lt hle
      have h2 := half_pos l.length
      rw [rootOf_of_two_le combine hle, rootOf_of_two_le combine (l := m) (by omega), ← hlen] at h
      obtain ⟨htake, hdrop⟩ := hinj _ _ _ _ h
      have h3 := ih (half l.length) (by omega) (by simp; omega) htake (by simp; omega)
      have h4 := ih (l.length - half l.length) (by omega) (by simp; omega) hdrop (by simp)
      rw [← List.take_append_drop (half l.length) l, h3, h4, List.take_append_drop]
    · cases l with
      | nil => exact (List.length_eq_zero_iff.mp hlen.symm).symm
      | cons a l =>
        rw [List.length_cons] at hlt
        obtain rfl : l = [] := List.length_eq_zero_iff.mp (by omega)
        obtain ⟨b, rfl⟩ := List.length_eq_one_iff.mp hlen.symm
        rw [rootOf_singleton, rootOf_singleton] at h
        rw [h]

/-- The root over lists that are appended has them all in order. -/
theorem rootOf_lists {α : Type*} (l : List (List α)) : rootOf (· ++ ·) l = l.flatten := by
  induction hn : l.length using Nat.strong_induction_on generalizing l with
  | _ n ih =>
    obtain hle | hlt := le_or_gt 2 l.length
    · have h1 := half_lt hle
      have h2 := half_pos l.length
      rw [rootOf_of_two_le _ hle, ih (half l.length) (by omega) _ (by simp; omega),
        ih (l.length - half l.length) (by omega) _ (by simp), ← List.flatten_append, List.take_append_drop]
    · cases l with
      | nil => rw [rootOf, if_neg (Nat.not_le.mpr hlt)]; rfl
      | cons a l =>
        rw [List.length_cons] at hlt
        obtain rfl : l = [] := List.length_eq_zero_iff.mp (by omega)
        rw [rootOf_singleton, List.flatten_singleton]

/-- A stack of perfect subtrees, the smallest on top, over a row of values. The
second component of an entry is the size of its subtree, `u` for each value. -/
inductive Stack (u : Nat) : List (V × Nat) → List V → Prop
  | nil : Stack u [] []
  | cons {rest : List (V × Nat)} {xs ys : List V} {j : Nat} (h : Stack u rest xs)
      (hlen : ys.length = 2 ^ j) (htop : ∀ e ∈ rest.head?, u * 2 ^ j < e.2) :
      Stack u ((rootOf combine ys, u * 2 ^ j) :: rest) (xs ++ ys)

variable {combine} {u : Nat}

theorem Stack.pow {e : V × Nat} {rest : List (V × Nat)} {xs : List V}
    (h : Stack combine u (e :: rest) xs) : ∃ j, e.2 = u * 2 ^ j ∧ 2 ^ j ∣ xs.length := by
  generalize hs : e :: rest = s at h
  induction h generalizing e rest with
  | nil => simp at hs
  | @cons rest' xs ys j h hlen htop ih =>
    obtain ⟨rfl, rfl⟩ := List.cons.inj hs
    refine ⟨j, rfl, ?_⟩
    rw [List.length_append, hlen]
    refine Nat.dvd_add ?_ (dvd_refl _)
    cases h with
    | nil => simp
    | @cons rest'' xs' ys' i h' hlen' htop' =>
      obtain ⟨i', hi', hd⟩ := ih rfl
      have hlt : u * 2 ^ j < u * 2 ^ i' := (htop _ rfl).trans_eq hi'
      have hlt' := Nat.lt_of_mul_lt_mul_left hlt
      exact Nat.dvd_trans (pow_dvd_pow 2 ((Nat.pow_lt_pow_iff_right (by omega)).mp hlt').le) hd

theorem Stack.nil_iff {s : List (V × Nat)} {xs : List V} (h : Stack combine u s xs) :
    s = [] ↔ xs = [] := by
  cases h with
  | nil => simp
  | @cons _ _ ys j h hlen htop =>
    have := Nat.two_pow_pos j
    have : ys ≠ [] := by
      rw [← List.length_pos_iff]
      omega
    simp [this]

end Dcpp.HashTree
