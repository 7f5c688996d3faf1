import Dcpp.SegmentSet

namespace Dcpp.DoneSet

open HalfOpen Segment SegmentSet

theorem insert_ne_nil (l : List Segment) (s : Segment) : insert l s ≠ [] := by
  cases l with
  | nil => exact List.cons_ne_nil s []
  | cons t l =>
    rw [SegmentSet.insert]
    split
    · exact List.cons_ne_nil _ _
    · split <;> exact List.cons_ne_nil _ _

theorem mem_insert {l : List Segment} {s t : Segment} (h : t ∈ insert l s) : t = s ∨ t ∈ l := by
  induction l with
  | nil => exact Or.inl (List.mem_singleton.mp h)
  | cons u l ih =>
    rw [SegmentSet.insert] at h
    split at h
    · exact List.mem_cons.mp h
    · split at h
      · obtain rfl | h := List.mem_cons.mp h
        · exact Or.inr (List.mem_cons_self ..)
        · exact (ih h).imp id (List.mem_cons_of_mem u)
      · exact Or.inr h

/-- A segment below all others is never reached by the loop. -/
theorem consolidate_cons {x : Segment} {b rest : List Segment} (hb : b ≠ [])
    (hbx : ∀ t ∈ b, x.getStart < t.getStart) (hrx : ∀ t ∈ rest, x.getStart < t.getStart) :
    consolidate (x :: b) rest = x :: consolidate b rest := by
  induction rest generalizing b with
  | nil => rw [consolidate, consolidate]
  | cons i rest ih =>
    have hrest : ∀ t ∈ rest, x.getStart < t.getStart := fun t ht => hrx t (List.mem_cons_of_mem i ht)
    obtain ⟨l, prev, rfl⟩ := (List.eq_nil_or_concat' b).resolve_left hb
    have hprev : x.getStart < prev.getStart := hbx prev (by simp)
    rw [← List.cons_append, consolidate_snoc, consolidate_snoc]
    by_cases hmeet : prev.getEnd ≥ i.getStart
    · rw [if_pos hmeet, if_pos hmeet]
      have hlt : x.lt ⟨prev.getStart, i.getEnd - prev.getStart⟩ = true := by
        rw [lt_iff_bounds]
        exact Or.inl hprev
      have hins : SegmentSet.insert (x :: l) ⟨prev.getStart, i.getEnd - prev.getStart⟩ =
          x :: SegmentSet.insert l ⟨prev.getStart, i.getEnd - prev.getStart⟩ := by
        have hgt : Segment.lt ⟨prev.getStart, i.getEnd - prev.getStart⟩ x = false := by
          rw [Bool.eq_false_iff, ne_eq, lt_iff_bounds, getStart_mk]
          omega
        rw [SegmentSet.insert, if_neg (by simp [hgt]), if_pos hlt]
      rw [hins]
      refine ih (insert_ne_nil _ _) (fun t ht => ?_) hrest
      obtain rfl | ht := mem_insert ht
      · exact hprev
      · exact hbx t (by simp [ht])
    · rw [if_neg hmeet, if_neg hmeet, List.cons_append, List.cons_append]
      refine ih (by simp) (fun t ht => ?_) hrest
      obtain ht | ht := List.mem_append.mp ht
      · exact hbx t ht
      · rw [List.mem_singleton.mp ht]
        exact hrx i (List.mem_cons_self ..)

/-- The segment that stands for: nothing is left to download. -/
def zeroSegment : Segment := ⟨0, 0⟩

theorem zero_lt {t : Segment} (h : 0 < t.getStart ∨ t.getStart = 0 ∧ 0 < t.getEnd) :
    zeroSegment.lt t = true ∧ t.lt zeroSegment = false := by
  rw [Bool.eq_false_iff, ne_eq, lt_iff_bounds, lt_iff_bounds]
  simp only [zeroSegment, getStart_mk, getEnd_mk]
  omega

theorem insert_zero_cons {r : List Segment} {s : Segment}
    (h : 0 < s.getStart ∨ s.getStart = 0 ∧ 0 < s.getEnd) :
    insert (zeroSegment :: r) s = zeroSegment :: insert r s := by
  obtain ⟨h1, h2⟩ := zero_lt h
  rw [SegmentSet.insert, if_neg (by simp [h2]), if_pos h1]

theorem addSegment_zero_cons {r : List Segment} {s : Segment}
    (hr : ∀ t ∈ r, 0 < t.getStart) (hs : 0 < s.getStart) :
    addSegment (zeroSegment :: r) s = zeroSegment :: addSegment r s := by
  obtain ⟨first, rest, hins⟩ := List.exists_cons_of_ne_nil (insert_ne_nil r s)
  have hpos : ∀ t ∈ first :: rest, 0 < t.getStart := by
    intro t ht
    rw [← hins] at ht
    obtain rfl | ht := mem_insert ht
    · exact hs
    · exact hr t ht
  have hfirst := hpos first (List.mem_cons_self ..)
  have hrest : ∀ t ∈ rest, 0 < t.getStart := fun t ht => hpos t (List.mem_cons_of_mem first ht)
  have hins' := insert_zero_cons (r := r) (Or.inl hs)
  rw [addSegment_of_insert hins', hins, addSegment_of_insert hins, ← List.nil_append [zeroSegment], consolidate_snoc, if_neg (by simp [zeroSegment]; omega)]
  exact consolidate_cons (List.cons_ne_nil _ _) (by simpa [zeroSegment] using hfirst)
    (by simpa [zeroSegment] using hrest)

/-- A segment at 0 takes the place of the empty one. -/
theorem addSegment_at_zero {r : List Segment} {s : Segment}
    (hr : ∀ t ∈ r, 0 < t.getStart) (hs : s.getStart = 0) (hne : 0 < s.getEnd) :
    addSegment (zeroSegment :: r) s = addSegment r s := by
  have hins : insert r s = s :: r := by
    refine insert_append (l := []) (fun t ht => absurd ht (List.not_mem_nil)) fun t ht => ?_
    rw [lt_iff_bounds, hs]
    exact Or.inl (hr t ht)
  have hbig : (⟨zeroSegment.getStart, s.getEnd - zeroSegment.getStart⟩ : Segment) = s := by
    refine eq_of_bounds _ _ hs.symm ?_
    simp [zeroSegment]
  have hins' := insert_zero_cons (r := r) (Or.inr ⟨hs, hne⟩)
  rw [addSegment_of_insert hins', hins, addSegment_of_insert hins, ← List.nil_append [zeroSegment], consolidate_snoc,
    if_pos (by simp [zeroSegment, hs]), hbig]
  rfl

theorem addSegment_zero {r : List Segment} (h : Normal r) (hr : ∀ t ∈ r, 0 ≤ t.getStart) :
    addSegment r zeroSegment = r ∨
      (∀ t ∈ r, 0 < t.getStart) ∧ addSegment r zeroSegment = zeroSegment :: r := by
  cases r with
  | nil => exact Or.inr ⟨fun t ht => absurd ht List.not_mem_nil, rfl⟩
  | cons t r =>
    obtain ⟨hne, hsep, hn⟩ := (normal_cons_iff t r).mp h
    have hpos : 0 < t.getStart ∨ t.getStart = 0 ∧ 0 < t.getEnd := by
      have := hr t (List.mem_cons_self ..)
      omega
    have hins : SegmentSet.insert (t :: r) zeroSegment = zeroSegment :: t :: r := by
      rw [SegmentSet.insert, if_pos (zero_lt hpos).1]
    rw [addSegment_of_insert hins, ← List.nil_append [zeroSegment], consolidate_snoc]
    obtain h0 | ⟨h0, hend⟩ := hpos
    · refine Or.inr ⟨fun u hu => ?_, ?_⟩
      · obtain rfl | hu := List.mem_cons.mp hu
        · exact h0
        · have := hsep u hu
          omega
      · rw [if_neg (by simp [zeroSegment]; omega), List.nil_append, List.singleton_append,
          consolidate_cons (List.cons_ne_nil _ _) (by simpa [zeroSegment] using h0)]
        · have ha := consolidate_advance [] t r [] (by simpa using h)
          simpa [consolidate] using ha
        · intro u hu
          have := hsep u hu
          simp only [zeroSegment, getStart_mk]
          omega
    · left
      have hbig : (⟨zeroSegment.getStart, t.getEnd - zeroSegment.getStart⟩ : Segment) = t := by
        refine eq_of_bounds _ _ h0.symm ?_
        simp [zeroSegment]
      rw [if_pos (by simp [zeroSegment, h0]), hbig]
      have ha := consolidate_advance [] t r [] (by simpa using h)
      simpa [consolidate, SegmentSet.insert] using ha

/-- The done sets that occur: normal, but for an empty segment that may stand first. -/
inductive Tidy : List Segment → Prop where
  | normal {r : List Segment} (h : Normal r) (nonneg : ∀ t ∈ r, 0 ≤ t.getStart) : Tidy r
  | zero {r : List Segment} (h : Normal r) (pos : ∀ t ∈ r, 0 < t.getStart) :
      Tidy (zeroSegment :: r)

theorem covered_zero_cons (r : List Segment) : covered (zeroSegment :: r) = covered r := by
  rw [covered_cons, zeroSegment, bytes, getStart_mk, getEnd_mk, Int.add_zero, Set.Ico_self,
    Set.empty_union]

theorem addSegment_nonneg {r : List Segment} (h : Normal r) {s : Segment} {a : Int}
    (hs : s.getStart < s.getEnd) (hsa : a ≤ s.getStart) (hr : ∀ t ∈ r, a ≤ t.getStart) :
    ∀ t ∈ addSegment r s, a ≤ t.getStart := by
  intro t ht
  have hmem : t.getStart ∈ covered (addSegment r s) :=
    ⟨t, ht, le_rfl, (addSegment_normal h hs).nonempty t ht⟩
  obtain ⟨u, hu, hx⟩ | hx := addSegment_covered_subset h hs hmem
  · exact (hr u hu).trans hx.1
  · exact hsa.trans hx.1

theorem tidy_addSegment {done : List Segment} (h : Tidy done) {s : Segment}
    (hs : s.getStart < s.getEnd) (h0 : 0 ≤ s.getStart) :
    Tidy (addSegment done s) ∧ covered (addSegment done s) ⊆ covered done ∪ s.bytes ∧
      (¬Nested done s → covered (addSegment done s) = covered done ∪ s.bytes) := by
  cases h with
  | normal h nonneg =>
    exact ⟨.normal (addSegment_normal h hs) (addSegment_nonneg h hs h0 nonneg),
      addSegment_covered_subset h hs, (addSegment_covered_iff h hs).mpr⟩
  | @zero r h pos =>
    have hnested : ¬Nested (zeroSegment :: r) s → ¬Nested r s :=
      fun hn ⟨t, ht, hx⟩ => hn ⟨t, List.mem_cons_of_mem _ ht, hx⟩
    rw [covered_zero_cons]
    obtain hpos | hzero := h0.lt_or_eq
    · rw [addSegment_zero_cons pos hpos, covered_zero_cons]
      exact ⟨.zero (addSegment_normal h hs) (addSegment_nonneg h hs hpos pos),
        addSegment_covered_subset h hs, fun hn => (addSegment_covered_iff h hs).mpr (hnested hn)⟩
    · rw [addSegment_at_zero pos hzero.symm (by omega)]
      exact ⟨.normal (addSegment_normal h hs)
          (addSegment_nonneg h hs h0 fun t ht => (pos t ht).le),
        addSegment_covered_subset h hs, fun hn => (addSegment_covered_iff h hs).mpr (hnested hn)⟩

theorem tidy_addSegment_zero {done : List Segment} (h : Tidy done) :
    Tidy (addSegment done zeroSegment) ∧ covered (addSegment done zeroSegment) = covered done := by
  cases h with
  | normal h nonneg =>
    obtain heq | ⟨hpos, heq⟩ := addSegment_zero h nonneg
    · rw [heq]
      exact ⟨.normal h nonneg, rfl⟩
    · rw [heq, covered_zero_cons]
      exact ⟨.zero h hpos, rfl⟩
  | @zero r h pos =>
    have hins : SegmentSet.insert (zeroSegment :: r) zeroSegment = zeroSegment :: r := by
      rw [SegmentSet.insert, if_neg (by decide), if_neg (by decide)]
    have heq : addSegment (zeroSegment :: r) zeroSegment = zeroSegment :: r := by
      rw [addSegment_of_insert hins]
      cases r with
      | nil => rfl
      | cons t r =>
        have ht := pos t (List.mem_cons_self ..)
        have hrest : ∀ u ∈ r, 0 < u.getStart := fun u hu => pos u (List.mem_cons_of_mem t hu)
        rw [← List.nil_append [zeroSegment], consolidate_snoc,
          if_neg (by simp [zeroSegment]; omega), List.nil_append, List.singleton_append,
          consolidate_cons (List.cons_ne_nil _ _) (by simpa [zeroSegment] using ht)
            (by simpa [zeroSegment] using hrest)]
        have ha := consolidate_advance [] t r [] (by simpa using h)
        simpa [consolidate] using ha
    rw [heq]
    exact ⟨.zero h pos, rfl⟩

/-- A set that holds exactly the bytes of a file is the one segment. -/
theorem eq_of_covered {done : List Segment} (h : Tidy done) {size : Int} (hsize : 0 < size)
    (hc : covered done = Set.Ico 0 size) : done = [⟨0, size⟩] := by
  have hone : Normal [(⟨0, size⟩ : Segment)] := by
    refine (normal_cons_iff _ _).mpr ⟨by simpa using hsize, fun t ht => absurd ht List.not_mem_nil, normal_nil⟩
  have hcover : covered [(⟨0, size⟩ : Segment)] = Set.Ico 0 size := by
    rw [covered_cons, covered_nil, Set.union_empty, bytes, getStart_mk, getEnd_mk, Int.zero_add]
  cases h with
  | normal h nonneg => exact normal_ext h hone (hc.trans hcover.symm)
  | @zero r h pos =>
    rw [covered_zero_cons] at hc
    have hr := normal_ext h hone (hc.trans hcover.symm)
    have := pos ⟨0, size⟩ (by rw [hr]; exact List.mem_singleton_self _)
    exact absurd this (by simp)

/-- Adding the segments of a normal list in order gives it back. -/
theorem foldl_addSegment {l : List Segment} (h : Normal l) : l.foldl addSegment [] = l := by
  induction l using List.reverseRecOn with
  | nil => rfl
  | append_singleton l s ih =>
    obtain ⟨hl, -, hsep⟩ := (normal_append_iff _ _).mp h
    have hlt : ∀ t ∈ l, t.lt s = true := by
      intro t ht
      have h1 := hl.nonempty t ht
      have h2 := hsep t ht s (List.mem_singleton_self s)
      rw [lt_iff_bounds]
      omega
    rw [List.foldl_append, ih hl, List.foldl_cons, List.foldl_nil]
    have hadd := addSegment_append hl (r := []) hlt (fun t ht => absurd ht List.not_mem_nil)
    rw [List.append_nil] at hadd
    rw [hadd]
    obtain rfl | ⟨l', prev, rfl⟩ := List.eq_nil_or_concat' l
    · rfl
    · have ha := consolidate_advance l' prev [s] [] h
      simpa [consolidate] using ha

end Dcpp.DoneSet
