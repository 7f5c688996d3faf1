import Mathlib.Order.Interval.Set.Basic
import Mathlib.Data.Set.Lattice
import Mathlib.Tactic.Common

namespace Dcpp.HalfOpen

variable {ι α : Type*} [LinearOrder α] (lo hi : ι → α)

/-- The points covered by a list of half-open intervals. -/
def cover (l : List ι) : Set α := {x | ∃ s ∈ l, x ∈ Set.Ico (lo s) (hi s)}

/-- Non-empty intervals in increasing order, any two of them with a gap between. -/
structure Normal (l : List ι) : Prop where
  nonempty : ∀ s ∈ l, lo s < hi s
  separated : l.Pairwise (fun s t => hi s < lo t)

variable {lo hi}

@[simp] theorem cover_nil : cover lo hi ([] : List ι) = ∅ := by
  ext x
  simp [cover]

@[simp] theorem cover_cons (s : ι) (l : List ι) :
    cover lo hi (s :: l) = Set.Ico (lo s) (hi s) ∪ cover lo hi l := by
  ext x
  simp [cover]

@[simp] theorem cover_append (l m : List ι) :
    cover lo hi (l ++ m) = cover lo hi l ∪ cover lo hi m := by
  ext x
  simp only [cover, List.mem_append, Set.mem_ofPred_eq, Set.mem_union]
  constructor
  · rintro ⟨s, hs | hs, hx⟩
    · exact Or.inl ⟨s, hs, hx⟩
    · exact Or.inr ⟨s, hs, hx⟩
  · rintro (⟨s, hs, hx⟩ | ⟨s, hs, hx⟩)
    · exact ⟨s, Or.inl hs, hx⟩
    · exact ⟨s, Or.inr hs, hx⟩

theorem normal_nil : Normal lo hi ([] : List ι) := ⟨by simp, List.Pairwise.nil⟩

theorem normal_cons_iff (s : ι) (l : List ι) :
    Normal lo hi (s :: l) ↔ lo s < hi s ∧ (∀ t ∈ l, hi s < lo t) ∧ Normal lo hi l := by
  constructor
  · rintro ⟨hn, hs⟩
    rw [List.pairwise_cons] at hs
    exact ⟨hn s (by simp), hs.1, ⟨fun t ht => hn t (by simp [ht]), hs.2⟩⟩
  · rintro ⟨h, hs, hl⟩
    refine ⟨?_, List.pairwise_cons.mpr ⟨hs, hl.separated⟩⟩
    intro t ht
    obtain rfl | ht := List.mem_cons.mp ht
    · exact h
    · exact hl.nonempty t ht

theorem normal_append_iff (l m : List ι) :
    Normal lo hi (l ++ m) ↔
      Normal lo hi l ∧ Normal lo hi m ∧ ∀ s ∈ l, ∀ t ∈ m, hi s < lo t := by
  constructor
  · rintro ⟨hn, hs⟩
    rw [List.pairwise_append] at hs
    exact ⟨⟨fun s h => hn s (by simp [h]), hs.1⟩, ⟨fun s h => hn s (by simp [h]), hs.2.1⟩, hs.2.2⟩
  · rintro ⟨hl, hm, hs⟩
    refine ⟨?_, List.pairwise_append.mpr ⟨hl.separated, hm.separated, hs⟩⟩
    intro s h
    obtain h | h := List.mem_append.mp h
    · exact hl.nonempty s h
    · exact hm.nonempty s h

/-- An interval of a normal list ends outside the list: no other one takes over there. -/
theorem Normal.hi_notMem {l : List ι} (h : Normal lo hi l) {s : ι} (hs : s ∈ l) :
    hi s ∉ cover lo hi l := by
  induction l with
  | nil => simp at hs
  | cons t l ih =>
    obtain ⟨hne, hsep, hl⟩ := (normal_cons_iff t l).mp h
    rw [cover_cons, Set.mem_union, not_or]
    obtain rfl | hs := List.mem_cons.mp hs
    · refine ⟨fun hx => lt_irrefl _ hx.2, ?_⟩
      rintro ⟨u, hu, hx⟩
      exact absurd (hsep u hu) (not_lt.mpr hx.1)
    · refine ⟨fun hx => ?_, ih hl hs⟩
      exact lt_asymm hx.2 ((hsep s hs).trans (hl.nonempty s hs))

theorem Normal.gap {l : List ι} (h : Normal lo hi l) {s t : ι} (hs : s ∈ l) (ht : t ∈ l) :
    s = t ∨ hi s < lo t ∨ hi t < lo s := by
  induction l with
  | nil => simp at hs
  | cons u l ih =>
    obtain ⟨hne, hsep, hl⟩ := (normal_cons_iff u l).mp h
    rcases List.mem_cons.mp hs with rfl | hs' <;> rcases List.mem_cons.mp ht with rfl | ht'
    · exact Or.inl rfl
    · exact Or.inr (Or.inl (hsep t ht'))
    · exact Or.inr (Or.inr (hsep s hs'))
    · exact ih hl hs' ht'

/-- Nothing is covered directly below an interval of a normal list. -/
theorem Normal.covBy_notMem {l : List ι} (h : Normal lo hi l) {s : ι} (hs : s ∈ l) {x : α}
    (hx : x ⋖ lo s) : x ∉ cover lo hi l := by
  rintro ⟨t, ht, hlo, hhi⟩
  obtain rfl | hlt | hlt := h.gap hs ht
  · exact absurd hx.1 (not_lt.mpr hlo)
  · exact lt_asymm (hx.1.trans (h.nonempty s hs)) (hlt.trans_le hlo)
  · exact hx.2 hhi hlt

/-- A connected stretch of covered points lies in a single interval. -/
theorem Normal.exists_of_Icc_subset {l : List ι} (h : Normal lo hi l) {a b : α} (hab : a ≤ b)
    (hc : Set.Icc a b ⊆ cover lo hi l) : ∃ s ∈ l, lo s ≤ a ∧ b < hi s := by
  obtain ⟨s, hs, hla, hah⟩ := hc ⟨le_rfl, hab⟩
  refine ⟨s, hs, hla, ?_⟩
  by_contra hb
  exact h.hi_notMem hs (hc ⟨hah.le, not_lt.mp hb⟩)

theorem Normal.head_le {s : ι} {l : List ι} (h : Normal lo hi (s :: l)) {x : α}
    (hx : x ∈ cover lo hi (s :: l)) : lo s ≤ x := by
  obtain ⟨hne, hsep, hl⟩ := (normal_cons_iff s l).mp h
  rw [cover_cons] at hx
  obtain hx | ⟨t, ht, hx⟩ := hx
  · exact hx.1
  · exact (hne.trans (hsep t ht)).le.trans hx.1

theorem Normal.head_mem {s : ι} {l : List ι} (h : Normal lo hi (s :: l)) :
    lo s ∈ cover lo hi (s :: l) :=
  ⟨s, by simp, le_rfl, h.nonempty s (by simp)⟩

theorem Normal.head_eq {s t : ι} {l m : List ι} (hl : Normal lo hi (s :: l))
    (hm : Normal lo hi (t :: m)) (h : cover lo hi (s :: l) = cover lo hi (t :: m)) :
    lo s = lo t ∧ hi s ≤ hi t := by
  have hlo : lo s = lo t :=
    le_antisymm (hl.head_le (h ▸ hm.head_mem)) (hm.head_le (h ▸ hl.head_mem))
  refine ⟨hlo, ?_⟩
  by_contra hlt
  have hx : hi t ∈ cover lo hi (s :: l) :=
    ⟨s, by simp, hlo.trans_le (hm.nonempty t (by simp)).le, not_le.mp hlt⟩
  exact hm.hi_notMem (by simp) (h ▸ hx)

theorem Normal.tail_cover {s : ι} {l : List ι} (h : Normal lo hi (s :: l)) :
    cover lo hi l = cover lo hi (s :: l) \ Set.Ico (lo s) (hi s) := by
  obtain ⟨hne, hsep, hl⟩ := (normal_cons_iff s l).mp h
  rw [cover_cons, Set.union_sdiff_left, eq_comm, sdiff_eq_left]
  refine Set.disjoint_left.mpr ?_
  rintro x ⟨t, ht, hx⟩ hs
  exact lt_asymm hs.2 ((hsep t ht).trans_le hx.1)

/-- A normal list is determined by the points that it covers. -/
theorem Normal.ext {l m : List ι} (hl : Normal lo hi l) (hm : Normal lo hi m)
    (hinj : ∀ s t, lo s = lo t → hi s = hi t → s = t)
    (h : cover lo hi l = cover lo hi m) : l = m := by
  induction l generalizing m with
  | nil =>
    cases m with
    | nil => rfl
    | cons t m => exact absurd (h ▸ hm.head_mem) (by simp)
  | cons s l ih =>
    cases m with
    | nil => exact absurd (h ▸ hl.head_mem) (by simp)
    | cons t m =>
      obtain ⟨hlo, hle⟩ := hl.head_eq hm h
      have hhi : hi s = hi t := le_antisymm hle (hm.head_eq hl h.symm).2
      have hst := hinj s t hlo hhi
      subst hst
      have ht : cover lo hi l = cover lo hi m := by rw [hl.tail_cover, hm.tail_cover, h]
      rw [ih ((normal_cons_iff s l).mp hl).2.2 ((normal_cons_iff s m).mp hm).2.2 ht]

end Dcpp.HalfOpen
