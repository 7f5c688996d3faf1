import Mathlib.Data.List.Basic
import Mathlib.Tactic.Common
import Mathlib.Algebra.Order.Group.Nat
import Mathlib.Tactic.Ring

namespace Dcpp.Chunks

variable {α β : Type*}

/-- Cut a list into pieces of length `n`; the last one may be shorter. -/
def chunks (n : Nat) (l : List α) : List (List α) :=
  if _h : l = [] ∨ n = 0 then [] else l.take n :: chunks n (l.drop n)
termination_by l.length
decreasing_by
  rw [not_or] at _h
  have := List.length_pos_iff.mpr _h.1
  simp only [List.length_drop]
  omega

@[simp] theorem chunks_nil (n : Nat) : chunks n ([] : List α) = [] := by
  rw [chunks, dif_pos (Or.inl rfl)]

theorem chunks_of_ne_nil {n : Nat} (hn : 0 < n) {l : List α} (hl : l ≠ []) :
    chunks n l = l.take n :: chunks n (l.drop n) := by
  rw [chunks, dif_neg (by rw [not_or]; exact ⟨hl, by omega⟩)]

theorem chunks_of_le {n : Nat} {l : List α} (hl : l ≠ []) (h : l.length ≤ n) : chunks n l = [l] := by
  have := List.length_pos_iff.mpr hl
  rw [chunks_of_ne_nil (by omega) hl, List.take_of_length_le h, List.drop_eq_nil_of_le h, chunks_nil]

theorem chunks_append_of_length {n : Nat} (hn : 0 < n) {l : List α} (h : l.length = n) (m : List α) :
    chunks n (l ++ m) = l :: chunks n m := by
  have hl : l ++ m ≠ [] := by
    rw [← List.length_pos_iff, List.length_append]
    omega
  rw [chunks_of_ne_nil hn hl, ← h, List.take_left, List.drop_left]

theorem chunks_append {n : Nat} {l : List α} (h : n ∣ l.length) (m : List α) :
    chunks n (l ++ m) = chunks n l ++ chunks n m := by
  obtain ⟨q, hq⟩ := h
  induction q generalizing l with
  | zero =>
    have hl : l = [] := List.length_eq_zero_iff.mp (by omega)
    simp [hl]
  | succ q ih =>
    obtain rfl | hn := Nat.eq_zero_or_pos n
    · have hl : l = [] := List.length_eq_zero_iff.mp (by omega)
      simp [hl]
    · rw [Nat.mul_succ] at hq
      have htake : (l.take n).length = n := by simp; omega
      have hdrop : (l.drop n).length = n * q := by simp; omega
      have hl : l ≠ [] := by
        rw [← List.length_pos_iff]
        omega
      calc chunks n (l ++ m)
          = chunks n (l.take n ++ (l.drop n ++ m)) := by
            rw [← List.append_assoc, List.take_append_drop]
        _ = l.take n :: (chunks n (l.drop n) ++ chunks n m) := by
            rw [chunks_append_of_length hn htake, ih hdrop]
        _ = chunks n l ++ chunks n m := by rw [chunks_of_ne_nil hn hl, List.cons_append]

theorem chunks_length {n : Nat} (hn : 0 < n) (l : List α) :
    (chunks n l).length = (l.length + n - 1) / n := by
  induction l using chunks.induct n with
  | case1 l h =>
    obtain rfl : l = [] := h.resolve_right (by omega)
    simp only [chunks_nil, List.length_nil, Nat.zero_add]
    exact (Nat.div_eq_of_lt (by omega)).symm
  | case2 l h ih =>
    rw [not_or] at h
    have := List.length_pos_iff.mpr h.1
    rw [chunks_of_ne_nil hn h.1, List.length_cons, ih, List.length_drop]
    obtain hle | hlt := le_or_gt l.length n
    · rw [show l.length - n + n - 1 = n - 1 by omega, Nat.div_eq_of_lt (by omega)]
      exact (Nat.div_eq_of_lt_le (by omega) (by omega)).symm
    · rw [show l.length + n - 1 = (l.length - n + n - 1) + n by omega, Nat.add_div_right _ hn]

theorem chunks_getElem? {n : Nat} (hn : 0 < n) (l : List α) (i : Nat) (hi : i < (chunks n l).length) :
    (chunks n l)[i]? = some ((l.drop (i * n)).take n) := by
  induction i generalizing l with
  | zero =>
    have hl : l ≠ [] := by
      rintro rfl
      simp at hi
    simp [chunks_of_ne_nil hn hl]
  | succ i ih =>
    have hl : l ≠ [] := by
      rintro rfl
      simp at hi
    rw [chunks_of_ne_nil hn hl] at hi ⊢
    rw [List.getElem?_cons_succ, ih _ (by simpa using hi), List.drop_drop]
    congr 3
    ring

theorem chunks_map (f : α → β) (n : Nat) (l : List α) :
    chunks n (l.map f) = (chunks n l).map (List.map f) := by
  induction l using chunks.induct n with
  | case1 l h =>
    rw [chunks, dif_pos (by simpa using h), chunks, dif_pos h, List.map_nil]
  | case2 l h ih =>
    rw [not_or] at h
    have hn : 0 < n := by omega
    rw [chunks_of_ne_nil hn (by simpa using h.1), chunks_of_ne_nil hn h.1, List.map_cons,
      ← List.map_drop, ih, List.map_take]

theorem chunks_flatten {n : Nat} (hn : 0 < n) (l : List α) : (chunks n l).flatten = l := by
  induction l using chunks.induct n with
  | case1 l h =>
    obtain rfl : l = [] := h.resolve_right (by omega)
    simp
  | case2 l h ih =>
    rw [not_or] at h
    rw [chunks_of_ne_nil hn h.1, List.flatten_cons, ih, List.take_append_drop]

theorem chunks_ne_nil {n : Nat} (hn : 0 < n) {l : List α} (hl : l ≠ []) : chunks n l ≠ [] := by
  rw [chunks_of_ne_nil hn hl]
  simp

theorem ne_nil_of_mem_chunks {n : Nat} {l c : List α} (h : c ∈ chunks n l) : c ≠ [] := by
  induction l using chunks.induct n with
  | case1 l hl =>
    rw [chunks, dif_pos hl] at h
    simp at h
  | case2 l hl ih =>
    rw [not_or] at hl
    rw [chunks_of_ne_nil (by omega) hl.1] at h
    obtain rfl | h := List.mem_cons.mp h
    · simpa using ⟨hl.2, hl.1⟩
    · exact ih h

/-- Pieces of pieces: `m` neighbouring pieces of length `n` make one of length `n * m`. -/
theorem chunks_chunks {m n : Nat} (hm : 0 < m) (hn : 0 < n) (l : List α) :
    chunks m (chunks n l) = (chunks (n * m) l).map (chunks n) := by
  have hnm : 0 < n * m := Nat.mul_pos hn hm
  induction l using chunks.induct (n * m) with
  | case1 l h =>
    obtain rfl : l = [] := h.resolve_right (by omega)
    simp
  | case2 l h ih =>
    rw [not_or] at h
    rw [chunks_of_ne_nil hnm h.1, List.map_cons, ← ih]
    obtain hle | hlt := le_or_gt l.length (n * m)
    · rw [List.take_of_length_le hle, List.drop_eq_nil_of_le hle, chunks_nil, chunks_nil]
      refine chunks_of_le (chunks_ne_nil hn h.1) ?_
      rw [chunks_length hn]
      exact Nat.le_of_lt_succ ((Nat.div_lt_iff_lt_mul hn).mpr (by rw [Nat.succ_mul, Nat.mul_comm m]; omega))
    · have htake : (l.take (n * m)).length = n * m := by simp; omega
      have hlen : (chunks n (l.take (n * m))).length = m := by
        rw [chunks_length hn, htake, show n * m + n - 1 = n - 1 + n * m by omega,
          Nat.add_mul_div_left _ _ hn, Nat.div_eq_of_lt (by omega), Nat.zero_add]
      conv_lhs => rw [← List.take_append_drop (n * m) l]
      rw [chunks_append (by rw [htake]; exact Nat.dvd_mul_right n m), chunks_append_of_length hm hlen]

theorem chunks_flatten_of_length {n : Nat} (hn : 0 < n) {L : List (List α)}
    (h : ∀ l ∈ L, l.length = n) : chunks n L.flatten = L := by
  induction L with
  | nil => simp
  | cons l L ih =>
    rw [List.flatten_cons, chunks_append_of_length hn (h l (by simp)), ih fun m hm => h m (by simp [hm])]

end Dcpp.Chunks
