import Dcpp.Segment
import Mathlib.Data.List.Basic
import Mathlib.Data.List.Induction

namespace Dcpp.SegmentSet

open HalfOpen Segment

/-- `std::set::insert`: the list is the set in its order, and a segment that
is already there is not stored again. -/
def insert : List Segment → Segment → List Segment
  | [], s => [s]
  | t :: l, s => if s.lt t then s :: t :: l else if t.lt s then t :: insert l s else t :: l

/-- The loop that merges neighbours. The iterator stands between the two
lists, so `prev` is the last element of the first one. -/
def consolidate : List Segment → List Segment → List Segment
  | before, [] => before
  | before, i :: rest =>
    match before.getLast? with
    | none => consolidate [i] rest
    | some prev =>
      if prev.getEnd ≥ i.getStart then
        consolidate (insert before.dropLast ⟨prev.getStart, i.getEnd - prev.getStart⟩) rest
      else consolidate (before ++ [i]) rest

/-- Add a segment to the done set and consolidate. -/
def addSegment (done : List Segment) (segment : Segment) : List Segment :=
  match insert done segment with
  | [] => []
  | [first] => [first]
  | first :: rest => consolidate [first] rest

abbrev Normal : List Segment → Prop := HalfOpen.Normal getStart getEnd

/-- The bytes of all the segments of a set. -/
def covered (l : List Segment) : Set Int := HalfOpen.cover getStart getEnd l

@[simp] theorem covered_nil : covered [] = ∅ := cover_nil

@[simp] theorem covered_cons (s : Segment) (l : List Segment) :
    covered (s :: l) = s.bytes ∪ covered l := cover_cons s l

@[simp] theorem covered_append (l m : List Segment) :
    covered (l ++ m) = covered l ∪ covered m := cover_append l m

theorem normal_ext {l m : List Segment} (hl : Normal l) (hm : Normal m)
    (h : covered l = covered m) : l = m :=
  HalfOpen.Normal.ext hl hm eq_of_bounds h

theorem insert_append {l r : List Segment} {s : Segment} (hl : ∀ t ∈ l, t.lt s = true)
    (hr : ∀ t ∈ r, s.lt t = true) : insert (l ++ r) s = l ++ s :: r := by
  induction l with
  | nil =>
    cases r with
    | nil => rfl
    | cons t r => simp [insert, hr t (by simp)]
  | cons t l ih =>
    have ht := hl t (by simp)
    have hst : s.lt t = false := by
      rw [Bool.eq_false_iff, ne_eq, lt_iff_bounds]
      rw [lt_iff_bounds] at ht
      omega
    rw [List.cons_append, insert, hst, if_neg (by simp), if_pos ht,
      ih (fun u hu => hl u (by simp [hu])), List.cons_append]

/-- A new segment goes between those that are less and those that are greater. -/
theorem exists_split {done : List Segment} (h : Normal done) (s : Segment) (hs : s ∉ done) :
    ∃ l r, done = l ++ r ∧ (∀ t ∈ l, t.lt s = true) ∧ ∀ t ∈ r, s.lt t = true := by
  induction done with
  | nil => exact ⟨[], [], rfl, by simp, by simp⟩
  | cons t done ih =>
    obtain ⟨hne, hsep, hn⟩ := (normal_cons_iff t done).mp h
    rw [List.mem_cons, not_or] at hs
    by_cases hlt : t.lt s = true
    · obtain ⟨l, r, rfl, hl, hr⟩ := ih hn hs.2
      refine ⟨t :: l, r, rfl, ?_, hr⟩
      intro u hu
      obtain rfl | hu := List.mem_cons.mp hu
      · exact hlt
      · exact hl u hu
    · refine ⟨[], t :: done, rfl, by simp, ?_⟩
      have hne' : ¬(s.getStart = t.getStart ∧ s.getEnd = t.getEnd) :=
        fun he => hs.1 (eq_of_bounds s t he.1 he.2)
      rw [lt_iff_bounds] at hlt
      intro u hu
      rw [lt_iff_bounds]
      obtain rfl | hu := List.mem_cons.mp hu
      · omega
      · have := hsep u hu
        omega

theorem insert_mem {done : List Segment} (h : Normal done) {s : Segment} (hs : s ∈ done) :
    insert done s = done := by
  induction done with
  | nil => simp at hs
  | cons t done ih =>
    obtain ⟨hne, hsep, hn⟩ := (normal_cons_iff t done).mp h
    obtain rfl | hs := List.mem_cons.mp hs
    · have hss : s.lt s = false := by
        rw [Bool.eq_false_iff, ne_eq, lt_iff_bounds]
        omega
      simp [insert, hss]
    · have hlt := hsep s hs
      have hts : t.lt s = true := by rw [lt_iff_bounds]; omega
      have hst : s.lt t = false := by
        rw [Bool.eq_false_iff, ne_eq, lt_iff_bounds]
        omega
      simp [insert, hts, hst, ih hn hs]

theorem consolidate_snoc (l : List Segment) (prev i : Segment) (rest : List Segment) :
    consolidate (l ++ [prev]) (i :: rest) =
      if prev.getEnd ≥ i.getStart then
        consolidate (insert l ⟨prev.getStart, i.getEnd - prev.getStart⟩) rest
      else consolidate (l ++ [prev] ++ [i]) rest := by
  rw [consolidate]
  simp

/-- Over segments with gaps between them the loop only advances. -/
theorem consolidate_advance (l : List Segment) (prev : Segment) (m rest : List Segment)
    (h : Normal (l ++ [prev] ++ m)) :
    consolidate (l ++ [prev]) (m ++ rest) = consolidate (l ++ [prev] ++ m) rest := by
  induction m generalizing l prev with
  | nil => simp
  | cons i m ih =>
    have hlt : prev.getEnd < i.getStart :=
      ((normal_append_iff _ _).mp h).2.2 prev (by simp) i (by simp)
    rw [List.cons_append, consolidate_snoc, if_neg (by omega), ih (l ++ [prev]) i (by simpa using h)]
    simp

/-- What is left of the segments above once `m` has met the first of them. -/
def joinRight (m : Segment) : List Segment → List Segment
  | [] => [m]
  | b :: r =>
    if m.getEnd ≥ b.getStart then ⟨m.getStart, b.getEnd - m.getStart⟩ :: r else m :: b :: r

theorem joinRight_meet {m b : Segment} (r : List Segment) (h : b.getStart ≤ m.getEnd) :
    joinRight m (b :: r) = ⟨m.getStart, b.getEnd - m.getStart⟩ :: r := if_pos h

theorem joinRight_apart {m b : Segment} (r : List Segment) (h : m.getEnd < b.getStart) :
    joinRight m (b :: r) = m :: b :: r := if_neg (by omega)

theorem joinRight_normal {m : Segment} {r : List Segment} (hm : m.getStart < m.getEnd)
    (hr : Normal r) (hle : ∀ b ∈ r, m.getStart ≤ b.getStart) : Normal (joinRight m r) := by
  cases r with
  | nil => exact (normal_cons_iff m []).mpr ⟨hm, by simp, normal_nil⟩
  | cons b r =>
    obtain ⟨hne, hsep, hn⟩ := (normal_cons_iff b r).mp hr
    have hb := hle b (by simp)
    obtain hlt | hge := lt_or_ge m.getEnd b.getStart
    · rw [joinRight_apart r hlt]
      refine (normal_cons_iff _ _).mpr ⟨hm, ?_, hr⟩
      intro t ht
      obtain rfl | ht := List.mem_cons.mp ht
      · exact hlt
      · have := hsep t ht
        omega
    · rw [joinRight_meet r hge]
      refine (normal_cons_iff _ r).mpr ⟨?_, ?_, hn⟩
      · simp only [getStart_mk, getEnd_mk]
        omega
      · intro t ht
        have := hsep t ht
        simp only [getEnd_mk]
        omega

theorem joinRight_start {m : Segment} {r : List Segment} (hle : ∀ b ∈ r, m.getStart ≤ b.getStart)
    {t : Segment} (ht : t ∈ joinRight m r) : m.getStart ≤ t.getStart := by
  cases r with
  | nil =>
    rw [List.mem_singleton.mp ht]
  | cons b r =>
    obtain hlt | hge := lt_or_ge m.getEnd b.getStart
    · rw [joinRight_apart r hlt] at ht
      obtain rfl | ht := List.mem_cons.mp ht
      · exact le_rfl
      · exact hle t ht
    · rw [joinRight_meet r hge] at ht
      obtain rfl | ht := List.mem_cons.mp ht
      · exact le_rfl
      · exact hle t (by simp [ht])

theorem append_joinRight_normal {l : List Segment} {m : Segment} {r : List Segment}
    (hl : Normal l) (hm : m.getStart < m.getEnd) (hr : Normal r)
    (hlm : ∀ t ∈ l, t.getEnd < m.getStart) (hle : ∀ b ∈ r, m.getStart ≤ b.getStart) :
    Normal (l ++ joinRight m r) :=
  (normal_append_iff _ _).mpr ⟨hl, joinRight_normal hm hr hle,
    fun t ht _ hu => (hlm t ht).trans_le (joinRight_start hle hu)⟩

theorem consolidate_joinRight {l : List Segment} {m : Segment} {r : List Segment}
    (hl : Normal l) (hm : m.getStart < m.getEnd) (hr : Normal r)
    (hlm : ∀ t ∈ l, t.getEnd < m.getStart) (hle : ∀ b ∈ r, m.getStart ≤ b.getStart) :
    consolidate (l ++ [m]) r = l ++ joinRight m r := by
  have hj := append_joinRight_normal hl hm hr hlm hle
  cases r with
  | nil => rfl
  | cons b r =>
    rw [consolidate_snoc]
    obtain hlt | hge := lt_or_ge m.getEnd b.getStart
    · rw [joinRight_apart r hlt] at hj ⊢
      rw [if_neg (by omega)]
      have ha := consolidate_advance (l ++ [m]) b r [] (by simpa using hj)
      simpa [consolidate] using ha
    · rw [joinRight_meet r hge] at hj ⊢
      rw [if_pos hge]
      have hi := insert_append (l := l) (r := []) (s := ⟨m.getStart, b.getEnd - m.getStart⟩)
        (fun t ht => by
          have h1 := hlm t ht
          have h2 := hl.nonempty t ht
          rw [lt_iff_bounds]
          simp only [getStart_mk]
          omega) (by simp)
      rw [List.append_nil] at hi
      rw [hi]
      have ha := consolidate_advance l ⟨m.getStart, b.getEnd - m.getStart⟩ r [] (by simpa using hj)
      simpa [consolidate] using ha

theorem addSegment_of_insert {done : List Segment} {s first : Segment} {rest : List Segment}
    (h : insert done s = first :: rest) : addSegment done s = consolidate [first] rest := by
  rw [addSegment, h]
  cases rest <;> rfl

theorem addSegment_mem {done : List Segment} (h : Normal done) {s : Segment} (hs : s ∈ done) :
    addSegment done s = done := by
  cases done with
  | nil => simp at hs
  | cons first rest =>
    rw [addSegment_of_insert (insert_mem h hs)]
    simpa [consolidate] using consolidate_advance [] first rest [] (by simpa using h)

/-- The loop reaches the new segment without changing anything below it. -/
theorem addSegment_append {l r : List Segment} (h : Normal l) {s : Segment}
    (hl : ∀ t ∈ l, t.lt s = true) (hr : ∀ t ∈ r, s.lt t = true) :
    addSegment (l ++ r) s = consolidate l (s :: r) := by
  have hi := insert_append hl hr
  cases l with
  | nil => exact addSegment_of_insert hi
  | cons first l =>
    rw [addSegment_of_insert hi]
    exact consolidate_advance [] first l (s :: r) (by simpa using h)

/-- What one call does: the new segment is joined to the last one below it
when the two meet, and the result to the first one above. -/
theorem addSegment_spec {done : List Segment} (h : Normal done) {s : Segment}
    (hs : s.getStart < s.getEnd) (hmem : s ∉ done) :
    ∃ l below r m, done = l ++ below ++ r ∧ addSegment done s = l ++ joinRight m r ∧
      (∀ t ∈ l, t.getEnd < m.getStart) ∧ (∀ t ∈ r, s.lt t = true) ∧ m.getEnd = s.getEnd ∧
      (below = [] ∧ m.getStart = s.getStart ∨
        ∃ p, below = [p] ∧ m.getStart = p.getStart ∧ p.lt s = true ∧ s.getStart ≤ p.getEnd) := by
  obtain ⟨l, r, rfl, hl, hr⟩ := exists_split h s hmem
  obtain ⟨hnl, hnr, hsep⟩ := (normal_append_iff l r).mp h
  have hle : ∀ t ∈ r, s.getStart ≤ t.getStart := by
    intro t ht
    have := (lt_iff_bounds s t).mp (hr t ht)
    omega
  have happ := addSegment_append hnl hl hr
  obtain rfl | ⟨l, p, rfl⟩ := List.eq_nil_or_concat' l
  · refine ⟨[], [], r, s, rfl, ?_, by simp, hr, rfl, Or.inl ⟨rfl, rfl⟩⟩
    rw [happ]
    exact consolidate_joinRight normal_nil hs hnr (by simp) hle
  · obtain ⟨hnl', -, hlp⟩ := (normal_append_iff l [p]).mp hnl
    have hp := hl p (by simp)
    have hp' := (lt_iff_bounds p s).mp hp
    have hpne := hnl.nonempty p (by simp)
    obtain hlt | hge := lt_or_ge p.getEnd s.getStart
    · have hlm : ∀ t ∈ l ++ [p], t.getEnd < s.getStart := by
        intro t ht
        obtain ht | ht := List.mem_append.mp ht
        · exact (hlp t ht p (by simp)).trans (hpne.trans hlt)
        · rwa [List.mem_singleton.mp ht]
      refine ⟨l ++ [p], [], r, s, by simp, ?_, hlm, hr, rfl, Or.inl ⟨rfl, rfl⟩⟩
      rw [happ, consolidate_snoc, if_neg (by omega)]
      exact consolidate_joinRight hnl hs hnr hlm hle
    · let m : Segment := ⟨p.getStart, s.getEnd - p.getStart⟩
      have hms : m.getStart = p.getStart := rfl
      have hme : m.getEnd = s.getEnd := by
        simp only [m, getEnd_mk]
        omega
      have hlm : ∀ t ∈ l, t.getEnd < m.getStart := fun t ht => hlp t ht p (by simp)
      have hi : insert l m = l ++ [m] := by
        have := insert_append (l := l) (r := []) (s := m)
          (fun t ht => by
            have h1 := hlm t ht
            have h2 := hnl'.nonempty t ht
            rw [lt_iff_bounds]
            omega) (by simp)
        simpa using this
      refine ⟨l, [p], r, m, rfl, ?_, hlm, hr, hme, Or.inr ⟨p, rfl, rfl, hp, hge⟩⟩
      rw [happ, consolidate_snoc, if_pos hge, hi]
      refine consolidate_joinRight hnl' (by omega) hnr hlm ?_
      intro t ht
      have := hle t ht
      omega

theorem addSegment_normal {done : List Segment} (h : Normal done) {s : Segment}
    (hs : s.getStart < s.getEnd) : Normal (addSegment done s) := by
  by_cases hmem : s ∈ done
  · rwa [addSegment_mem h hmem]
  · obtain ⟨l, below, r, m, rfl, heq, hlm, hr, hme, hms⟩ := addSegment_spec h hs hmem
    obtain ⟨hlb, hnr, -⟩ := (normal_append_iff _ _).mp h
    obtain ⟨hnl, -, -⟩ := (normal_append_iff _ _).mp hlb
    have hle : m.getStart ≤ s.getStart := by
      obtain ⟨-, hms⟩ | ⟨p, -, hms, hp, -⟩ := hms
      · exact hms.le
      · have := (lt_iff_bounds p s).mp hp
        omega
    rw [heq]
    refine append_joinRight_normal hnl (by omega) hnr hlm ?_
    intro t ht
    have := (lt_iff_bounds s t).mp (hr t ht)
    omega

theorem joinRight_covered_subset {m : Segment} {r : List Segment}
    (hle : ∀ b ∈ r, m.getStart ≤ b.getStart) :
    covered (joinRight m r) ⊆ m.bytes ∪ covered r := by
  cases r with
  | nil => simp [joinRight]
  | cons b r =>
    obtain hlt | hge := lt_or_ge m.getEnd b.getStart
    · simp [joinRight_apart r hlt]
    · intro x hx
      rw [joinRight_meet r hge] at hx
      simp only [covered_cons, Set.mem_union, mem_bytes, getStart_mk, getEnd_mk] at hx ⊢
      have := hle b (by simp)
      obtain hx | hx := hx
      · omega
      · exact Or.inr (Or.inr hx)

theorem joinRight_covered {m : Segment} {r : List Segment}
    (hle : ∀ b ∈ r, m.getStart ≤ b.getStart) (hend : ∀ b ∈ r, m.getEnd ≤ b.getEnd) :
    m.bytes ∪ covered r ⊆ covered (joinRight m r) := by
  cases r with
  | nil => simp [joinRight]
  | cons b r =>
    obtain hlt | hge := lt_or_ge m.getEnd b.getStart
    · simp [joinRight_apart r hlt]
    · intro x hx
      rw [joinRight_meet r hge]
      simp only [covered_cons, Set.mem_union, mem_bytes, getStart_mk, getEnd_mk] at hx ⊢
      have h1 := hle b (by simp)
      have h2 := hend b (by simp)
      obtain hx | hx | hx := hx
      · omega
      · omega
      · exact Or.inr hx

theorem addSegment_covered_subset {done : List Segment} (h : Normal done) {s : Segment}
    (hs : s.getStart < s.getEnd) : covered (addSegment done s) ⊆ covered done ∪ s.bytes := by
  by_cases hmem : s ∈ done
  · rw [addSegment_mem h hmem]
    exact Set.subset_union_left
  · obtain ⟨l, below, r, m, rfl, heq, -, hr, hme, hms⟩ := addSegment_spec h hs hmem
    have hle : ∀ b ∈ r, s.getStart ≤ b.getStart := by
      intro b hb
      have := (lt_iff_bounds s b).mp (hr b hb)
      omega
    intro x hx
    rw [heq, covered_append] at hx
    simp only [covered_append, Set.mem_union]
    obtain hx | hx := hx
    · exact Or.inl (Or.inl (Or.inl hx))
    obtain ⟨rfl, hms⟩ | ⟨p, rfl, hms, hp, hge⟩ := hms
    · obtain hx | hx := joinRight_covered_subset (fun b hb => by have := hle b hb; omega) hx
      · exact Or.inr (by rw [mem_bytes] at hx ⊢; omega)
      · exact Or.inl (Or.inr hx)
    · have hp' := (lt_iff_bounds p s).mp hp
      obtain hx | hx := joinRight_covered_subset (fun b hb => by have := hle b hb; omega) hx
      · rw [mem_bytes] at hx
        by_cases hxs : x < s.getStart
        · refine Or.inl (Or.inl (Or.inr ?_))
          simp only [covered_cons, covered_nil, Set.union_empty, mem_bytes]
          omega
        · exact Or.inr (by rw [mem_bytes]; omega)
      · exact Or.inl (Or.inr hx)

/-- One of the segment and a stored one lies strictly inside the other. -/
def Nested (done : List Segment) (s : Segment) : Prop :=
  ∃ t ∈ done, t.getStart < s.getStart ∧ s.getEnd < t.getEnd ∨
    s.getStart < t.getStart ∧ t.getEnd < s.getEnd

theorem not_nested_of_mem {done : List Segment} (h : Normal done) {s : Segment} (hs : s ∈ done) :
    ¬Nested done s := by
  rintro ⟨t, ht, hn⟩
  have h1 := h.nonempty s hs
  have h2 := h.nonempty t ht
  rcases h.gap hs ht with rfl | hlt | hlt <;> omega

/-- With a strict nesting the end of the inner segment is lost. -/
theorem addSegment_loses {done : List Segment} (h : Normal done) {s : Segment}
    (hs : s.getStart < s.getEnd) (hn : Nested done s) :
    ∃ x ∈ covered done ∪ s.bytes, x ∉ covered (addSegment done s) := by
  have hmem : s ∉ done := fun hm => not_nested_of_mem h hm hn
  have hnorm := addSegment_normal h hs
  obtain ⟨l, below, r, m, rfl, heq, hlm, hr, hme, hms⟩ := addSegment_spec h hs hmem
  obtain ⟨t, ht, hn⟩ := hn
  have htne := h.nonempty t ht
  obtain ⟨hlb, hnr, hsep⟩ := (normal_append_iff _ _).mp h
  have hms' : m.getStart ≤ s.getStart := by
    obtain ⟨-, hms⟩ | ⟨p, -, hms, hp, -⟩ := hms
    · exact hms.le
    · have := (lt_iff_bounds p s).mp hp
      omega
  have htl : t ∉ l := by
    intro htl
    have := hlm t htl
    omega
  obtain ⟨h1, h2⟩ | ⟨h1, h2⟩ := hn
  · refine ⟨s.getEnd, Or.inl ⟨t, ht, by omega, h2⟩, ?_⟩
    have htr : t ∉ r := by
      intro htr
      have := (lt_iff_bounds s t).mp (hr t htr)
      omega
    have hjoin : joinRight m r = m :: r := by
      cases r with
      | nil => rfl
      | cons b r =>
        have := hsep t (by simpa [htl, htr] using ht) b (by simp)
        exact joinRight_apart r (by omega)
    rw [heq, hjoin] at hnorm ⊢
    rw [← hme]
    exact hnorm.hi_notMem (by simp)
  · have htr : t ∈ r := by
      obtain ⟨rfl, -⟩ | ⟨p, rfl, -, hp, -⟩ := hms
      · simpa [htl] using ht
      · have hpt : t ≠ p := by
          rintro rfl
          have := (lt_iff_bounds t s).mp hp
          omega
        simpa [htl, hpt] using ht
    cases r with
    | nil => simp at htr
    | cons b r =>
      have hb := (lt_iff_bounds s b).mp (hr b (by simp))
      have hbne := hnr.nonempty b (by simp)
      have hbt : b.getEnd ≤ t.getEnd ∧ b.getStart ≤ t.getStart := by
        obtain rfl | htr := List.mem_cons.mp htr
        · exact ⟨le_rfl, le_rfl⟩
        · have := ((normal_cons_iff b r).mp hnr).2.1 t htr
          omega
      refine ⟨b.getEnd, Or.inr (by rw [mem_bytes]; omega), ?_⟩
      rw [heq, joinRight_meet r (by omega)] at hnorm ⊢
      have hlost := hnorm.hi_notMem
        (s := ⟨m.getStart, b.getEnd - m.getStart⟩) (by simp)
      rwa [show getEnd ⟨m.getStart, b.getEnd - m.getStart⟩ = b.getEnd by
        simp only [getEnd_mk]; omega] at hlost

/-- Exactly when a call keeps every byte. -/
theorem addSegment_covered_iff {done : List Segment} (h : Normal done) {s : Segment}
    (hs : s.getStart < s.getEnd) :
    covered (addSegment done s) = covered done ∪ s.bytes ↔ ¬Nested done s := by
  constructor
  · intro heq hn
    obtain ⟨x, hx, hlost⟩ := addSegment_loses h hs hn
    exact hlost (heq ▸ hx)
  · intro hn
    refine Set.Subset.antisymm (addSegment_covered_subset h hs) ?_
    by_cases hmem : s ∈ done
    · rw [addSegment_mem h hmem]
      exact Set.union_subset le_rfl fun x hx => ⟨s, hmem, hx⟩
    · obtain ⟨l, below, r, m, rfl, heq, -, hr, hme, hms⟩ := addSegment_spec h hs hmem
      have hbounds : m.getStart ≤ s.getStart ∧ covered below ⊆ m.bytes := by
        obtain ⟨rfl, hms⟩ | ⟨p, rfl, hms, hp, hge⟩ := hms
        · exact ⟨hms.le, by simp⟩
        · have hp' := (lt_iff_bounds p s).mp hp
          have hps : ¬(p.getStart < s.getStart ∧ s.getEnd < p.getEnd) :=
            fun hc => hn ⟨p, by simp, Or.inl hc⟩
          refine ⟨by omega, fun x hx => ?_⟩
          simp only [covered_cons, covered_nil, Set.union_empty, mem_bytes] at hx ⊢
          omega
      have hjoin : m.bytes ∪ covered r ⊆ covered (joinRight m r) := by
        refine joinRight_covered ?_ ?_ <;> intro b hb
        · have := (lt_iff_bounds s b).mp (hr b hb)
          omega
        · have hb' := (lt_iff_bounds s b).mp (hr b hb)
          have hsb : ¬(s.getStart < b.getStart ∧ b.getEnd < s.getEnd) :=
            fun hc => hn ⟨b, by simp [hb], Or.inr hc⟩
          omega
      intro x hx
      simp only [heq, covered_append, Set.mem_union] at hx ⊢
      obtain ((hx | hx) | hx) | hx := hx
      · exact Or.inl hx
      · exact Or.inr (hjoin (Or.inl (hbounds.2 hx)))
      · exact Or.inr (hjoin (Or.inr hx))
      · refine Or.inr (hjoin (Or.inl ?_))
        rw [mem_bytes] at hx ⊢
        omega

/-- The segment, the byte before it and the byte after it are all covered already. -/
def Swallowed (c : Set Int) (s : Segment) : Prop :=
  Set.Icc (s.getStart - 1) s.getEnd ⊆ c

/-- The segment reaches over a covered byte to uncovered ones on both sides. -/
def Engulfs (c : Set Int) (s : Segment) : Prop :=
  ∃ x y z, s.getStart ≤ x ∧ x < y ∧ y < z ∧ z < s.getEnd ∧ x ∉ c ∧ y ∈ c ∧ z ∉ c

theorem nested_iff {done : List Segment} (h : Normal done) {s : Segment}
    (hs : s.getStart < s.getEnd) :
    Nested done s ↔ Swallowed (covered done) s ∨ Engulfs (covered done) s := by
  constructor
  · rintro ⟨t, ht, ⟨h1, h2⟩ | ⟨h1, h2⟩⟩
    · refine Or.inl fun x hx => ⟨t, ht, ?_⟩
      rw [Set.mem_Icc] at hx
      rw [Set.mem_Ico]
      omega
    · have hpred : t.getStart - 1 ⋖ t.getStart := ⟨by omega, by omega⟩
      exact Or.inr ⟨t.getStart - 1, t.getStart, t.getEnd, by omega, by omega,
        h.nonempty t ht, h2, h.covBy_notMem ht hpred, ⟨t, ht, le_rfl, h.nonempty t ht⟩,
        h.hi_notMem ht⟩
  · rintro (hsw | ⟨x, y, z, hx, hxy, hyz, hz, hxc, ⟨t, ht, hy⟩, hzc⟩)
    · obtain ⟨t, ht, h1, h2⟩ := h.exists_of_Icc_subset (by omega) hsw
      exact ⟨t, ht, Or.inl ⟨by omega, h2⟩⟩
    · have hxt : x < t.getStart := by
        by_contra hle
        exact hxc ⟨t, ht, by omega, by rw [Set.mem_Ico] at hy; omega⟩
      have hzt : t.getEnd ≤ z := by
        by_contra hlt
        exact hzc ⟨t, ht, by rw [Set.mem_Ico] at hy; omega, by omega⟩
      exact ⟨t, ht, Or.inr ⟨by omega, by omega⟩⟩

/-- The done set after a sequence of calls on a new item. -/
def addSegments (calls : List Segment) : List Segment := calls.foldl addSegment []

theorem addSegments_concat (calls : List Segment) (s : Segment) :
    addSegments (calls ++ [s]) = addSegment (addSegments calls) s := by
  simp [addSegments]

theorem addSegments_normal {calls : List Segment} (h : ∀ s ∈ calls, 0 < s.getSize) :
    Normal (addSegments calls) := by
  induction calls using List.reverseRecOn with
  | nil => exact normal_nil
  | append_singleton calls s ih =>
    have hs : s.getStart < s.getEnd := by
      have := h s (by simp)
      rw [getSize_eq] at this
      omega
    rw [addSegments_concat]
    exact addSegment_normal (ih fun t ht => h t (by simp [ht])) hs

/-- The set holds the bytes of the calls, no fewer and no more, in normal form. -/
structure Exact (calls : List Segment) : Prop where
  covered_eq : covered (addSegments calls) = covered calls
  normal : Normal (addSegments calls)

/-- After every call of a sequence the done set is exact, if and only if no call
has its segment swallowed by what was added before, or engulfs a part of it. -/
theorem addSegments_exact_iff (calls : List Segment) (h : ∀ s ∈ calls, 0 < s.getSize) :
    (∀ p, p <+: calls → Exact p) ↔
      ∀ p s, p ++ [s] <+: calls → ¬Swallowed (covered p) s ∧ ¬Engulfs (covered p) s := by
  have hpos : ∀ p, p <+: calls → ∀ s ∈ p, 0 < s.getSize := fun p hp s hs => h s (hp.subset hs)
  have hstep : ∀ p s, p ++ [s] <+: calls → Exact p →
      (Exact (p ++ [s]) ↔ ¬Swallowed (covered p) s ∧ ¬Engulfs (covered p) s) := by
    intro p s hps hp
    have hs : s.getStart < s.getEnd := by
      have := hpos _ hps s (by simp)
      rw [getSize_eq] at this
      omega
    rw [← not_or, ← hp.covered_eq, ← nested_iff hp.normal hs,
      ← addSegment_covered_iff hp.normal hs, ← addSegments_concat]
    constructor
    · intro he
      rw [he.covered_eq, hp.covered_eq]
      simp
    · intro he
      refine ⟨?_, addSegments_normal (hpos _ hps)⟩
      rw [he, hp.covered_eq]
      simp
  constructor
  · intro hall p s hps
    exact (hstep p s hps (hall p ((List.prefix_append p [s]).trans hps))).mp (hall _ hps)
  · intro hsafe p hp
    induction p using List.reverseRecOn with
    | nil => exact ⟨rfl, normal_nil⟩
    | append_singleton p s ih =>
      exact (hstep p s hp (ih ((List.prefix_append p [s]).trans hp))).mpr (hsafe p s hp)

theorem addSegments_exact_iff_abut :
    (∀ s ∈ [(⟨4, 4⟩ : Segment), ⟨0, 4⟩], 0 < s.getSize) ∧
      ((∀ p, p <+: [(⟨4, 4⟩ : Segment), ⟨0, 4⟩] → Exact p) ↔
        ∀ p s, p ++ [s] <+: [(⟨4, 4⟩ : Segment), ⟨0, 4⟩] →
          ¬Swallowed (covered p) s ∧ ¬Engulfs (covered p) s) :=
  ⟨by decide, addSegments_exact_iff [⟨4, 4⟩, ⟨0, 4⟩] (by decide)⟩

/-- Ten bytes and then two from their middle: the last five are forgotten. -/
theorem addSegments_nested_not_exact :
    (∀ s ∈ [(⟨0, 10⟩ : Segment), ⟨2, 3⟩], 0 < s.getSize) ∧ ¬Exact [⟨0, 10⟩, ⟨2, 3⟩] := by
  refine ⟨by decide, fun h => ?_⟩
  have hstored : addSegments [⟨0, 10⟩, ⟨2, 3⟩] = [⟨0, 5⟩] := by decide
  have hc := h.covered_eq
  rw [hstored] at hc
  have hx : (7 : Int) ∈ covered [⟨0, 10⟩, ⟨2, 3⟩] := ⟨⟨0, 10⟩, by simp, by decide, by decide⟩
  rw [← hc] at hx
  obtain ⟨t, ht, hx⟩ := hx
  rw [List.mem_singleton.mp ht, Set.mem_Ico] at hx
  exact absurd hx (by decide)

end Dcpp.SegmentSet
