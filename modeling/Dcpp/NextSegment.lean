import Mathlib.Order.Bounds.Defs
import Dcpp.QueueItem

-- What `getNextSegment` returns, with and without segmented downloading.
namespace Dcpp.QueueItem

open HalfOpen Segment SegmentSet

variable {U V : Type} {q : QueueItem U V} {blockSize : Int}

/-- A block goes no further than what the loop finds there. -/
theorem nextSegmentLoop_getEnd {targetSize : Int} (hb : 0 < blockSize) (ht : 0 < targetSize)
    (hbt : blockSize ≤ targetSize) (start curSize : Int) (hc : 0 < curSize) (hbc : blockSize ≤ curSize)
    (hdvd : blockSize ∣ curSize) (hdvdt : blockSize ∣ targetSize) :
    (q.nextSegmentLoop hb ht start curSize hc).getSize = 0 ∨
      min q.size ((q.nextSegmentLoop hb ht start curSize hc).getStart + blockSize) ≤
        (q.nextSegmentLoop hb ht start curSize hc).getEnd := by
  induction start, curSize, hc using nextSegmentLoop.induct q hb ht with
  | case1 start curSize hc hs «end» block htaken h ih =>
    rw [nextSegmentLoop, dif_pos hs, if_pos htaken, dif_pos h]
    have hd : blockSize ∣ curSize - blockSize := Int.dvd_sub hdvd (Int.dvd_refl _)
    exact ih (Int.le_of_dvd (by omega) hd) hd
  | case2 start curSize hc hs «end» block htaken h ih =>
    rw [nextSegmentLoop, dif_pos hs, if_pos htaken, dif_neg h]
    exact ih hbt hdvdt
  | case3 start curSize hc hs «end» block hfree =>
    rw [nextSegmentLoop, dif_pos hs, if_neg hfree]
    refine Or.inr ?_
    rw [getStart_mk, getEnd_mk]
    omega
  | case4 start curSize hc hs =>
    rw [nextSegmentLoop, dif_neg hs]
    exact Or.inl rfl

theorem roundDown_dvd (size blockSize : Int) : blockSize ∣ roundDown size blockSize := Int.dvd_mul_left ..

theorem getNextSegment_getEnd {c : SegmentSettings} (hc : c.segmentedDl = true) (hsize : q.size ≠ -1)
    (hb : 0 < blockSize) (wantedSize : Int) :
    (q.getNextSegment c blockSize wantedSize).getSize = 0 ∨
      min q.size ((q.getNextSegment c blockSize wantedSize).getStart + blockSize) ≤
        (q.getNextSegment c blockSize wantedSize).getEnd := by
  rw [getNextSegment, if_neg (by omega), hc, if_neg (by simp), dif_pos hb]
  dsimp only
  split
  next h =>
    have hd := roundDown_dvd (c.targetSize wantedSize q.getDownloadedBytes q.size) blockSize
    have hle := Int.le_of_dvd (roundDown_pos hb h) hd
    exact nextSegmentLoop_getEnd hb (roundDown_pos hb h) hle 0 _ (roundDown_pos hb h) hle hd hd
  next =>
    exact nextSegmentLoop_getEnd hb hb le_rfl 0 _ hb le_rfl (Int.dvd_refl _) (Int.dvd_refl _)

/-- A segment that can be requested. -/
structure Startable (q : QueueItem U V) (blockSize : Int) (s : Segment) : Prop where
  aligned : blockSize ∣ s.getStart
  inside : 0 ≤ s.getStart ∧ s.getStart < s.getEnd ∧ s.getEnd ≤ q.size
  apart : ∀ i ∈ q.downloads, Disjoint s.bytes i.segment.bytes
  wanted : ∀ i ∈ q.done, ¬s.bytes ⊆ i.bytes

/-- A block is done when a done segment has all its bytes. -/
def Busy (q : QueueItem U V) (block : Segment) : Prop :=
  (∃ i ∈ q.done, block.bytes ⊆ i.bytes) ∨ ∃ i ∈ q.downloads, block.overlaps i.segment = true

theorem disjoint_of_not_overlaps {s t : Segment} (h : s.overlaps t = false) : Disjoint s.bytes t.bytes := by
  rw [overlaps, decide_eq_false_iff_not] at h
  refine Set.disjoint_left.mpr fun x hs ht => h ?_
  rw [mem_bytes] at hs ht
  omega

/-- The bytes of a block are there, so that one that is not free is busy. -/
theorem busy_of_not_free {block : Segment} (h : ¬q.Free block) : q.Busy block := by
  by_cases hrun : ∃ i ∈ q.downloads, block.overlaps i.segment = true
  · exact Or.inr hrun
  · refine Or.inl (by_contra fun hdone => h ⟨fun i hi hle => hdone ⟨i, hi, ?_⟩, fun i hi => ?_⟩)
    · exact Set.Ico_subset_Ico hle.1 hle.2
    · rw [← Bool.not_eq_true]
      exact fun ho => hrun ⟨i, hi, ho⟩

/-- Half of a file with a stretch done and one that runs. -/
def halfDone : QueueItem Nat Nat where
  flags := 0
  target := str "/d/file"
  size := 8192
  priority := .NORMAL
  added := 0
  tthRoot := 0
  tempTarget := str "/t/file"
  sources := []
  badSources := []
  done := [⟨0, 3072⟩]
  downloads := [⟨0, 1, str "/d/file", .TYPE_FILE, ⟨3072, 1024⟩, 1024⟩]

/-- The bytes of the file that are not done. -/
def missing (q : QueueItem U V) : Set Int := {x | x ∈ Set.Ico 0 q.size ∧ x ∉ covered q.done}

/-- A range that closes the first gap of the file. -/
structure ClosesGap (q : QueueItem U V) (blockSize : Int) (s : Segment) : Prop where
  nonempty : 0 < s.getSize
  inside : s.bytes ⊆ Set.Ico 0 q.size
  aligned : blockSize ∣ s.getStart
  first : ∀ x, IsLeast q.missing x → x ∈ s.bytes
  reaches : ∀ x, IsLeast q.missing x → s.getEnd = q.size ∨
    ∃ i ∈ q.done, x < i.getStart ∧ i.getStart ≤ s.getEnd ∧ ∀ j ∈ q.done, x < j.getStart → i.getStart ≤ j.getStart
  whole : ∀ x, 0 ≤ x → x < s.getEnd → x ∈ covered q.done ∪ s.bytes

/-- A range closes the gap when the first missing byte is in it. -/
theorem closesGap_of_mem {s : Segment} {m : Int} (hm : m ∈ q.missing) (hbelow : Set.Ico 0 m ⊆ covered q.done)
    (hms : m ∈ s.bytes) (hstart : 0 ≤ s.getStart) (hend : s.getEnd ≤ q.size) (haligned : blockSize ∣ s.getStart)
    (hreach : s.getEnd = q.size ∨
      ∃ i ∈ q.done, m < i.getStart ∧ i.getStart ≤ s.getEnd ∧ ∀ j ∈ q.done, m < j.getStart → i.getStart ≤ j.getStart) :
    q.ClosesGap blockSize s := by
  have hleast : IsLeast q.missing m := by
    refine ⟨hm, fun x hx => ?_⟩
    by_contra hlt
    exact hx.2 (hbelow ⟨hx.1.1, not_le.mp hlt⟩)
  rw [mem_bytes] at hms
  constructor
  · rw [getSize_eq]
    omega
  · exact Set.Ico_subset_Ico hstart hend
  · exact haligned
  · intro x hx
    rw [hx.unique hleast]
    exact hms
  · intro x hx
    rw [hx.unique hleast]
    exact hreach
  · intro x hx hlt
    by_cases hxm : x < m
    · exact Or.inl (hbelow ⟨hx, hxm⟩)
    · exact Or.inr ⟨by omega, hlt⟩

/-- Rounding goes down only from the first half of a block. -/
theorem roundDown_le_iff {n : Int} (hn : 0 ≤ n) (hb : 0 < blockSize) :
    roundDown n blockSize ≤ n ↔ n % blockSize + blockSize / 2 < blockSize := by
  have hhalf : blockSize.tdiv 2 = blockSize / 2 := Int.tdiv_eq_ediv_of_nonneg hb.le
  have hdiv := Int.mul_ediv_add_emod n blockSize
  rw [roundDown, hhalf, Int.tdiv_eq_ediv_of_nonneg (by omega), ← Int.le_ediv_iff_mul_le hb, ← Int.lt_add_one_iff,
    Int.ediv_lt_iff_lt_mul hb, Int.add_mul, Int.one_mul, Int.mul_comm (n / blockSize)]
  omega

theorem le_roundUp {n : Int} (hn : 0 ≤ n) (hb : 0 < blockSize) : n ≤ roundUp n blockSize := by
  rw [roundUp, Int.tdiv_eq_ediv_of_nonneg (by omega)]
  have h := Int.mul_ediv_add_emod (n + blockSize - 1) blockSize
  have hlt := Int.emod_lt_of_pos (n + blockSize - 1) hb
  rw [Int.mul_comm] at h
  omega

/-- A first done segment from the start of the file ends in the first half of a block. -/
def RoundsDown (q : QueueItem U V) (blockSize : Int) : Prop :=
  0 < blockSize ∧ ∀ first ∈ q.done.head?, first.getStart = 0 → first.getEnd % blockSize + blockSize / 2 < blockSize

theorem closesGap_start (hn : Normal q.done) (hsize : 0 < q.size) (hb : 0 < blockSize) (hfirst : ∀ first ∈ q.done.head?, 0 < first.getStart) :
    q.ClosesGap blockSize (q.nextGap blockSize) := by
  have hbelow : Set.Ico (0 : Int) 0 ⊆ covered q.done := by
    rw [Set.Ico_self]
    exact Set.empty_subset _
  cases hdone : q.done with
  | nil =>
    have hzero : (0 : Int) ∈ q.missing := ⟨⟨le_rfl, hsize⟩, by rw [hdone, covered_nil]; exact Set.notMem_empty _⟩
    rw [nextGap, hdone]
    refine closesGap_of_mem hzero hbelow ⟨le_rfl, ?_⟩ le_rfl ?_ (Int.dvd_zero _) (Or.inl ?_)
    · rw [getEnd_mk]
      omega
    · rw [getEnd_mk]
      omega
    · rw [getEnd_mk]
      omega
  | cons first rest =>
    have hpos : 0 < first.getStart := hfirst first (by rw [hdone]; rfl)
    have hzero : (0 : Int) ∈ q.missing := by
      refine ⟨⟨le_rfl, hsize⟩, fun h => ?_⟩
      rw [hdone] at h hn
      exact absurd (hn.head_le h) (not_le.mpr hpos)
    have hup := le_roundUp hpos.le hb
    rw [nextGap, hdone]
    dsimp only
    rw [if_pos hpos]
    refine closesGap_of_mem hzero hbelow ⟨le_rfl, ?_⟩ le_rfl ?_ (Int.dvd_zero _) ?_
    · rw [getEnd_mk]
      omega
    · rw [getEnd_mk]
      omega
    · rw [getEnd_mk]
      by_cases hle : q.size ≤ roundUp first.getStart blockSize
      · exact Or.inl (by omega)
      · refine Or.inr ⟨first, by rw [hdone]; exact List.mem_cons_self, hpos, by omega, fun j hj _ => ?_⟩
        rw [hdone] at hj hn
        obtain rfl | hj := List.mem_cons.mp hj
        · exact le_rfl
        · obtain ⟨hne, hsep, _⟩ := (normal_cons_iff first rest).mp hn
          exact (hne.trans (hsep j hj)).le

section FirstDone

variable {first : Segment} {rest : List Segment}

theorem mem_missing_getEnd (hn : Normal q.done) (hin : covered q.done ⊆ Set.Ico 0 q.size)
    (hmiss : q.missing.Nonempty) (hdone : q.done = first :: rest) (hstart : first.getStart = 0) :
    first.getEnd ∈ q.missing := by
  have hmem : first ∈ q.done := by rw [hdone]; exact List.mem_cons_self
  have hlt := hn.nonempty first hmem
  have hle := (hin ⟨first, hmem, (by omega : first.getStart ≤ first.getEnd - 1), by omega⟩).2
  refine ⟨⟨by omega, ?_⟩, hn.hi_notMem hmem⟩
  by_contra hge
  obtain ⟨x, hx, hx'⟩ := hmiss
  exact hx' ⟨first, hmem, by rw [hstart]; exact hx.1, hx.2.trans_le (not_lt.mp hge)⟩

theorem closesGap_first_iff (hn : Normal q.done) (hin : covered q.done ⊆ Set.Ico 0 q.size)
    (hmiss : q.missing.Nonempty) (hb : 0 < blockSize) (hdone : q.done = first :: rest) (hstart : first.getStart = 0) :
    q.ClosesGap blockSize (q.nextGap blockSize) ↔ first.getEnd % blockSize + blockSize / 2 < blockSize := by
  have hmem := mem_missing_getEnd hn hin hmiss hdone hstart
  have hend : 0 ≤ first.getEnd := hmem.1.1
  have hsize : first.getEnd < q.size := hmem.1.2
  have hbelow : Set.Ico 0 first.getEnd ⊆ covered q.done := by
    rw [hdone, covered_cons, ← hstart]
    exact Set.subset_union_left
  rw [← roundDown_le_iff hend hb]
  have hdown : 0 ≤ roundDown first.getEnd blockSize := by
    rw [roundDown, Int.tdiv_eq_ediv_of_nonneg hb.le, Int.tdiv_eq_ediv_of_nonneg (by omega)]
    exact Int.mul_nonneg (Int.ediv_nonneg (by omega) hb.le) hb.le
  have hgap : (q.nextGap blockSize).getStart = roundDown first.getEnd blockSize := by
    rw [nextGap, hdone]
    dsimp only
    rw [if_neg (by omega)]
    cases rest <;> rfl
  have hreach : first.getEnd < (q.nextGap blockSize).getEnd ∧ (q.nextGap blockSize).getEnd ≤ q.size ∧
      ((q.nextGap blockSize).getEnd = q.size ∨ ∃ i ∈ q.done, first.getEnd < i.getStart ∧
        i.getStart ≤ (q.nextGap blockSize).getEnd ∧ ∀ j ∈ q.done, first.getEnd < j.getStart → i.getStart ≤ j.getStart) := by
    rw [nextGap, hdone]
    dsimp only
    rw [if_neg (by omega)]
    cases rest with
    | nil =>
      dsimp only
      rw [getEnd_mk (roundDown first.getEnd blockSize)]
      exact ⟨by omega, by omega, Or.inl (by omega)⟩
    | cons second rest =>
      rw [hdone] at hn
      obtain ⟨hne, hsep, hn⟩ := (normal_cons_iff first _).mp hn
      obtain ⟨hne', hsep', _⟩ := (normal_cons_iff second rest).mp hn
      have hlt := hsep second List.mem_cons_self
      have hup := le_roundUp (n := second.getStart) (by omega) hb
      dsimp only
      rw [getEnd_mk (roundDown first.getEnd blockSize)]
      refine ⟨by omega, by omega, ?_⟩
      by_cases hle : q.size ≤ roundUp second.getStart blockSize
      · exact Or.inl (by omega)
      · refine Or.inr ⟨second, List.mem_cons_of_mem _ List.mem_cons_self, hlt, by omega, fun j hj hj' => ?_⟩
        obtain rfl | hj := List.mem_cons.mp hj
        · omega
        · obtain rfl | hj := List.mem_cons.mp hj
          · exact le_rfl
          · exact (hne'.trans (hsep' j hj)).le
  constructor
  · intro h
    have hleast : IsLeast q.missing first.getEnd := by
      refine ⟨hmem, fun x hx => ?_⟩
      by_contra hlt
      exact hx.2 (hbelow ⟨hx.1.1, not_le.mp hlt⟩)
    rw [← hgap]
    exact (h.first _ hleast).1
  · intro h
    refine closesGap_of_mem hmem hbelow ⟨by rw [hgap]; exact h, hreach.1⟩ ?_ hreach.2.1 ?_ hreach.2.2
    · rw [hgap]
      exact hdown
    · rw [hgap]
      exact roundDown_dvd _ _

end FirstDone

/-- A file of which only a first stretch is done. -/
def begun (size doneSize : Int) : QueueItem Nat Nat := { halfDone with size := size, done := [⟨0, doneSize⟩], downloads := [] }

theorem begun_normal {size doneSize : Int} (h : 0 < doneSize) : Normal (begun size doneSize).done := by
  refine (normal_cons_iff _ _).mpr ⟨?_, fun t ht => absurd ht List.not_mem_nil, normal_nil⟩
  rw [getStart_mk, getEnd_mk]
  omega

theorem begun_covered (size doneSize : Int) : covered (begun size doneSize).done = Set.Ico 0 doneSize := by
  rw [begun, covered_cons, covered_nil, Set.union_empty, bytes, getStart_mk, getEnd_mk, Int.zero_add]

theorem begun_missing {size doneSize : Int} (h : 0 < doneSize) (hlt : doneSize < size) :
    doneSize ∈ (begun size doneSize).missing := by
  refine ⟨⟨h.le, hlt⟩, ?_⟩
  rw [begun_covered]
  exact fun hx => lt_irrefl _ hx.2

theorem begun_inside {size doneSize : Int} (hlt : doneSize < size) :
    covered (begun size doneSize).done ⊆ Set.Ico 0 (begun size doneSize).size := by
  rw [begun_covered]
  exact Set.Ico_subset_Ico_right hlt.le

end Dcpp.QueueItem
