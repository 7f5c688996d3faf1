import Mathlib.Data.List.Count
import Mathlib.Data.List.Lex
import Mathlib.Order.RelClasses

-- The set operations of the standard library, of ranges that should be sorted.
namespace Dcpp.Ranges

instance isStrictTotalOrderUInt8 : IsStrictTotalOrder UInt8 (· < ·) where
  trichotomous _ _ h h' := UInt8.le_antisymm (UInt8.not_lt.mp h') (UInt8.not_lt.mp h)
  irrefl := UInt8.lt_irrefl
  trans _ _ _ := UInt8.lt_trans

instance isStrictTotalOrderList {α : Type*} [LT α] [IsStrictTotalOrder α (· < ·)] : IsStrictTotalOrder (List α) (· < ·) where
  trichotomous := (List.Lex.trichotomous (α := α) (· < ·)).trichotomous
  irrefl := List.lt_irrefl
  trans _ _ _ := List.lt_trans

variable {α : Type*} [LT α]

theorem eq_of_not_lt [IsStrictTotalOrder α (· < ·)] {a b : α} (h : ¬a < b) (h' : ¬b < a) : a = b :=
  Std.Trichotomous.trichotomous a b h h'

theorem not_lt_trans [IsStrictTotalOrder α (· < ·)] {a b c : α} (hab : ¬b < a) (hbc : ¬c < b) : ¬c < a := by
  intro hca
  obtain hlt | rfl | hlt := trichotomous_of (· < ·) a b
  · exact hbc (trans_of (· < ·) hca hlt)
  · exact hbc hca
  · exact hab hlt

/-- No element is smaller than one before it. -/
def Sorted (l : List α) : Prop := l.Pairwise fun a b => ¬b < a

theorem count_eq_zero_of_lt [BEq α] [LawfulBEq α] [IsStrictTotalOrder α (· < ·)] {a b : α} {bs : List α}
    (hab : a < b) (hs : Sorted (b :: bs)) : (b :: bs).count a = 0 := by
  apply List.count_eq_zero_of_not_mem
  intro h
  obtain rfl | h := List.mem_cons.mp h
  · exact irrefl_of (· < ·) a hab
  · exact (List.pairwise_cons.mp hs).1 a h hab

variable [DecidableLT α]

/-- `set_difference`. -/
def difference : List α → List α → List α
  | [], _ => []
  | as, [] => as
  | a :: as, b :: bs =>
    if a < b then a :: difference as (b :: bs)
    else if b < a then difference (a :: as) bs
    else difference as bs
termination_by as bs => as.length + bs.length

/-- `set_symmetric_difference`. -/
def symmetricDifference : List α → List α → List α
  | [], bs => bs
  | as, [] => as
  | a :: as, b :: bs =>
    if a < b then a :: symmetricDifference as (b :: bs)
    else if b < a then b :: symmetricDifference (a :: as) bs
    else symmetricDifference as bs
termination_by as bs => as.length + bs.length

theorem difference_nil (as : List α) : difference as [] = as := by
  cases as <;> simp [difference]

theorem difference_cons_cons (a b : α) (as bs : List α) :
    difference (a :: as) (b :: bs) = if a < b then a :: difference as (b :: bs)
      else if b < a then difference (a :: as) bs else difference as bs := by
  rw [difference]

/-- Sorted or not, the symmetric difference has what is left over of either list. -/
theorem perm_symmetricDifference [IsStrictTotalOrder α (· < ·)] (as bs : List α) :
    (symmetricDifference as bs).Perm (difference as bs ++ difference bs as) := by
  fun_induction symmetricDifference as bs with
  | case1 bs => simp [difference, difference_nil]
  | case2 as => simp [difference, difference_nil]
  | case3 a as b bs hlt ih =>
    have hgt : ¬b < a := asymm_of (· < ·) hlt
    rw [difference_cons_cons a, if_pos hlt, difference_cons_cons b, if_neg hgt, if_pos hlt]
    exact ih.cons a
  | case4 a as b bs hlt hgt ih =>
    rw [difference_cons_cons a, if_neg hlt, if_pos hgt, difference_cons_cons b, if_pos hgt]
    exact (ih.cons b).trans List.perm_middle.symm
  | case5 a as b bs hlt hgt ih =>
    rw [difference_cons_cons a, if_neg hlt, if_neg hgt, difference_cons_cons b, if_neg hgt, if_neg hlt]
    exact ih

theorem mem_of_mem_difference {as bs : List α} {x : α} (h : x ∈ difference as bs) : x ∈ as := by
  fun_induction difference as bs with
  | case1 => exact h
  | case2 => exact h
  | case3 a as b bs hlt ih =>
    obtain rfl | h := List.mem_cons.mp h
    · exact List.mem_cons_self
    · exact List.mem_cons_of_mem a (ih h)
  | case4 a as b bs hlt hgt ih => exact ih h
  | case5 a as b bs hlt hgt ih => exact List.mem_cons_of_mem a (ih h)

section Any

variable [IsStrictTotalOrder α (· < ·)]

/-- What is not in the second list stays, whether they are sorted or not. -/
theorem mem_difference_of_notMem {as bs : List α} {x : α} (hx : x ∈ as) (hb : x ∉ bs) : x ∈ difference as bs := by
  fun_induction difference as bs with
  | case1 => exact hx
  | case2 => exact hx
  | case3 a as b bs hlt ih =>
    obtain rfl | hx := List.mem_cons.mp hx
    · exact List.mem_cons_self
    · exact List.mem_cons_of_mem a (ih hx hb)
  | case4 a as b bs hlt hgt ih => exact ih hx fun h => hb (List.mem_cons_of_mem b h)
  | case5 a as b bs hlt hgt ih =>
    have hne : x ≠ a := by
      rintro rfl
      exact hb (eq_of_not_lt hlt hgt ▸ List.mem_cons_self)
    apply ih
    · exact (List.mem_cons.mp hx).resolve_left hne
    · exact fun h => hb (List.mem_cons_of_mem b h)

/-- Every element of the first list for which `q` holds finds itself first among those of the second list that are
left and not smaller. -/
def Meets [DecidableEq α] (q : α → Prop) : List α → List α → Prop
  | [], _ => True
  | a :: as, bs =>
    let left := bs.dropWhile (· < a)
    (q a → left.head? = some a) ∧ Meets q as (if left.head? = some a then left.tail else left)

theorem difference_cons [DecidableEq α] (a : α) (as bs : List α) :
    difference (a :: as) bs = if (bs.dropWhile (· < a)).head? = some a then difference as (bs.dropWhile (· < a)).tail
      else a :: difference as (bs.dropWhile (· < a)) := by
  induction bs with
  | nil => simp [difference_nil]
  | cons b bs ih =>
    rw [difference]
    by_cases hba : b < a
    · have hab : ¬a < b := asymm_of (· < ·) hba
      simp only [hab, hba, if_true, if_false, ih, List.dropWhile_cons, decide_true]
    · simp only [hba, if_false, List.dropWhile_cons, decide_false, Bool.false_eq_true, List.head?_cons, List.tail_cons,
        Option.some.injEq]
      by_cases hab : a < b
      · have hne : b ≠ a := by
          rintro rfl
          exact hba hab
        simp [hab, hne]
      · obtain rfl := eq_of_not_lt hab hba
        simp [hab]

/-- Exactly then nothing with `q` is left over. -/
theorem forall_difference_iff [DecidableEq α] (q : α → Prop) (as bs : List α) :
    (∀ x ∈ difference as bs, ¬q x) ↔ Meets q as bs := by
  induction as generalizing bs with
  | nil => simp [difference, Meets]
  | cons a as ih =>
    rw [difference_cons, Meets]
    split
    next hhead => simp [hhead, ih]
    next hhead => simp [hhead, ih]

end Any

section Sorted

variable [BEq α] [LawfulBEq α] [IsStrictTotalOrder α (· < ·)]

/-- In the difference of sorted ranges every element is as often as it is more often in the first one. -/
theorem count_difference {as bs : List α} (ha : Sorted as) (hb : Sorted bs) (x : α) :
    (difference as bs).count x = as.count x - bs.count x := by
  fun_induction difference as bs with
  | case1 => simp
  | case2 => simp
  | case3 a as b bs hlt ih =>
    have ih := ih (List.Pairwise.of_cons ha) hb
    by_cases hx : x = a
    · subst hx
      have hzero := count_eq_zero_of_lt hlt hb
      simp only [hzero, List.count_cons_self, ih]
      omega
    · simp only [List.count_cons_of_ne (Ne.symm hx), ih]
  | case4 a as b bs hlt hgt ih =>
    have ih := ih ha (List.Pairwise.of_cons hb)
    by_cases hx : x = b
    · subst hx
      have hzero := count_eq_zero_of_lt hgt ha
      simp only [hzero, ih]
      omega
    · simp only [List.count_cons_of_ne (Ne.symm hx), ih]
  | case5 a as b bs hlt hgt ih =>
    have ih := ih (List.Pairwise.of_cons ha) (List.Pairwise.of_cons hb)
    obtain rfl := eq_of_not_lt hlt hgt
    by_cases hx : x = a
    · subst hx
      simp only [List.count_cons_self, ih]
      omega
    · simp only [List.count_cons_of_ne (Ne.symm hx), ih]

/-- Of sorted lists the first of which repeats nothing that is in the second one, all that is there is met. -/
theorem meets_of_sorted [DecidableEq α] {as bs : List α} (ha : Sorted as) (hb : Sorted bs) (h : ∀ x ∈ bs, as.count x ≤ bs.count x) :
    Meets (· ∈ bs) as bs := by
  rw [← forall_difference_iff]
  intro x hx hmem
  have hcount := count_difference ha hb x
  have hpos := List.count_pos_iff.mpr hx
  have hle := h x hmem
  omega

/-- In the symmetric difference of sorted ranges every element is as often as it is more often in one of them. -/
theorem count_symmetricDifference {as bs : List α} (ha : Sorted as) (hb : Sorted bs) (x : α) :
    (symmetricDifference as bs).count x = (as.count x - bs.count x) + (bs.count x - as.count x) := by
  have hperm := (perm_symmetricDifference as bs).count_eq x
  rw [List.count_append, count_difference ha hb, count_difference hb ha] at hperm
  exact hperm

theorem mem_of_mem_symmetricDifference {as bs : List α} (ha : Sorted as) (hb : Sorted bs) {x : α}
    (h : x ∈ symmetricDifference as bs) : x ∈ as ∨ x ∈ bs := by
  have hcount := count_symmetricDifference ha hb x
  have hpos := List.count_pos_iff.mpr h
  rw [← List.count_pos_iff, ← List.count_pos_iff]
  omega

theorem sorted_symmetricDifference {as bs : List α} (ha : Sorted as) (hb : Sorted bs) :
    Sorted (symmetricDifference as bs) := by
  fun_induction symmetricDifference as bs with
  | case1 => exact hb
  | case2 => exact ha
  | case3 a as b bs hlt ih =>
    refine List.pairwise_cons.mpr ⟨fun x hx => ?_, ih (List.Pairwise.of_cons ha) hb⟩
    obtain hx | hx := mem_of_mem_symmetricDifference (List.Pairwise.of_cons ha) hb hx
    · exact (List.pairwise_cons.mp ha).1 x hx
    · obtain rfl | hx := List.mem_cons.mp hx
      · exact asymm_of (· < ·) hlt
      · exact not_lt_trans (asymm_of (· < ·) hlt) ((List.pairwise_cons.mp hb).1 x hx)
  | case4 a as b bs hlt hgt ih =>
    refine List.pairwise_cons.mpr ⟨fun x hx => ?_, ih ha (List.Pairwise.of_cons hb)⟩
    obtain hx | hx := mem_of_mem_symmetricDifference ha (List.Pairwise.of_cons hb) hx
    · obtain rfl | hx := List.mem_cons.mp hx
      · exact hlt
      · exact not_lt_trans hlt ((List.pairwise_cons.mp ha).1 x hx)
    · exact (List.pairwise_cons.mp hb).1 x hx
  | case5 a as b bs hlt hgt ih => exact ih (List.Pairwise.of_cons ha) (List.Pairwise.of_cons hb)

end Sorted

end Dcpp.Ranges
