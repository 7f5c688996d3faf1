import Dcpp.DoneSet
import Dcpp.MerkleTree
import Dcpp.QueueItem

namespace Dcpp

namespace QueueItem

open Segment

variable {U V : Type}

/-- What an unfinished download of a file counts: `pos` down to a whole block. -/
def downloaded (d : Download U) (pos : Int) : Int := pos - pos.tmod d.blockSize

/-- The part of `putDownload` for an unfinished file. -/
def putUnfinished (q : QueueItem U V) (d : Download U) (pos : Int) : QueueItem U V :=
  if 0 < downloaded d pos then q.addSegment ⟨d.segment.getStart, downloaded d pos⟩ else q

/-- The loop of the `Rechecker` over the leaves of the two trees. -/
def addMatching [DecidableEq V] (blockSize : Int) :
    Int → List V → List V → QueueItem U V → QueueItem U V
  | pos, our :: ours, file :: files, q =>
    addMatching blockSize (pos + blockSize) ours files
      (if our = file then q.addSegment ⟨pos, blockSize⟩ else q)
  | _, _, _, q => q

/-- A segment as `saveQueue` writes it and `QueueLoader` reads it again. -/
def loadSegment (q : QueueItem U V) (s : Segment) : QueueItem U V :=
  if 0 < s.getSize ∧ 0 ≤ s.getStart ∧ s.getStart + s.getSize ≤ q.size then q.addSegment s else q

/-- The item after the queue was saved and loaded. -/
def reload (q : QueueItem U V) : QueueItem U V := q.done.foldl loadSegment q.resetDownloaded

end QueueItem

namespace ItemProgress

open HalfOpen Segment SegmentSet DoneSet
open QueueItem (downloaded loadSegment putUnfinished addMatching reload)

/-- What changes the done set of an item: a download of the file is put back, the set is given up
(the temporary file is gone, or a recheck begins), a recheck ends with the tree of what it has
read, and the queue is saved and loaded. -/
inductive Event (U V : Type) where
  | putDownload (d : Download U) (pos : Int) (finished : Bool)
  | resetDownloaded
  | rechecked (tt ttFile : MerkleTree V)
  | reload

/-- An item, and the bytes that were found good since the done set was last given up. -/
structure State (U V : Type) where
  item : QueueItem U V
  good : Set Int

variable {U V : Type} [DecidableEq V]

def stepItem (q : QueueItem U V) : Event U V → QueueItem U V
  | .putDownload d pos finished => if finished then q.addSegment d.segment else q.putUnfinished d pos
  | .resetDownloaded => q.resetDownloaded
  | .rechecked tt ttFile =>
    -- no bad block: the file is moved, and the item kept
    if ttFile.root = q.tthRoot then q.addSegment ⟨0, q.size⟩
    else q.addMatching tt.blockSize 0 tt.leaves ttFile.leaves
  | .reload => q.reload

/-- The leaves that match, as stretches of the file. -/
def matching (blockSize : Int) : Int → List V → List V → List Segment
  | pos, our :: ours, file :: files =>
    if our = file then ⟨pos, blockSize⟩ :: matching blockSize (pos + blockSize) ours files
    else matching blockSize (pos + blockSize) ours files
  | _, _, _ => []

/-- What an event finds good. -/
def found (q : QueueItem U V) : Event U V → List Segment
  | .putDownload d pos finished =>
    if finished then [d.segment]
    else if 0 < downloaded d pos then [⟨d.segment.getStart, downloaded d pos⟩] else []
  | .rechecked tt ttFile =>
    if ttFile.root = q.tthRoot then [⟨0, q.size⟩]
    else matching tt.blockSize 0 tt.leaves ttFile.leaves
  | _ => []

def step (st : State U V) (e : Event U V) : State U V :=
  ⟨stepItem st.item e,
    match e with
    | .resetDownloaded => ∅
    | e => st.good ∪ covered (found st.item e)⟩

def run (st : State U V) (events : List (Event U V)) : State U V := events.foldl step st

/-- The events that can happen to an item of this size: a download has a segment inside the file,
or none, and a position inside the segment. -/
def Valid (size : Int) : Event U V → Prop
  | .putDownload d pos _ => 0 < d.blockSize ∧ 0 ≤ pos ∧ pos ≤ d.segment.getSize ∧
      (d.segment = zeroSegment ∨
        0 ≤ d.segment.getStart ∧ 0 < d.segment.getSize ∧ d.segment.getEnd ≤ size)
  | .rechecked tt _ => 0 < tt.blockSize
  | _ => True

/-- The done set stays inside the file, and an item of which all bytes were found good
is finished, before and after it is saved and loaded. -/
structure Marked (st : State U V) : Prop where
  within : ∀ t ∈ st.item.done, 0 ≤ t.getStart ∧ t.getEnd ≤ st.item.size
  finished : Set.Ico 0 st.item.size ⊆ st.good → st.item.isFinished = true
  reloaded : Set.Ico 0 st.item.size ⊆ st.good → st.item.reload.isFinished = true

/-- One segment after another ends inside the file, is not swallowed by what was found good before
and does not engulf a part of it. -/
def Clean (size : Int) : Set Int → List Segment → Prop
  | _, [] => True
  | good, s :: l =>
    s.getEnd ≤ size ∧ ¬Swallowed good s ∧ ¬Engulfs good s ∧ Clean size (good ∪ s.bytes) l

def Meets (st : State U V) (e : Event U V) : Prop := Clean st.item.size st.good (found st.item e)

structure Inv (st : State U V) : Prop where
  tidy : Tidy st.item.done
  covered_eq : covered st.item.done = st.good
  inside : ∀ x ∈ st.good, x < st.item.size

theorem not_nested {done : List Segment} (h : Tidy done) {s : Segment}
    (hs : s.getStart < s.getEnd) (h0 : 0 ≤ s.getStart) (hsw : ¬Swallowed (covered done) s)
    (hen : ¬Engulfs (covered done) s) : ¬Nested done s := by
  cases h with
  | normal h nonneg =>
    rw [nested_iff h hs]
    exact fun hn => hn.elim hsw hen
  | @zero r h pos =>
    rw [covered_zero_cons] at hsw hen
    rintro ⟨t, ht, hn⟩
    obtain rfl | ht := List.mem_cons.mp ht
    · simp only [zeroSegment, getStart_mk, getEnd_mk] at hn
      omega
    · exact ((nested_iff h hs).mp ⟨t, ht, hn⟩).elim hsw hen

/-- What a step of `addSegment` preserves, along a list of segments. -/
theorem foldl_addSegment_clean {size : Int} {l done : List Segment} (h : Tidy done)
    (hin : ∀ x ∈ covered done, x < size)
    (hl : ∀ s ∈ l, s = zeroSegment ∨ 0 ≤ s.getStart ∧ 0 < s.getSize)
    (hc : Clean size (covered done) l) :
    Tidy (l.foldl addSegment done) ∧
      covered (l.foldl addSegment done) = covered done ∪ covered l ∧
      ∀ x ∈ covered (l.foldl addSegment done), x < size := by
  induction l generalizing done with
  | nil => exact ⟨h, by simp, hin⟩
  | cons s l ih =>
    obtain ⟨hend, hsw, hen, hc⟩ := hc
    have hstep : Tidy (addSegment done s) ∧ covered (addSegment done s) = covered done ∪ s.bytes := by
      obtain rfl | ⟨h0, hpos⟩ := hl s (List.mem_cons_self ..)
      · obtain ⟨ht, he⟩ := tidy_addSegment_zero h
        refine ⟨ht, he.trans ?_⟩
        rw [zeroSegment, bytes, getStart_mk, getEnd_mk, Int.add_zero, Set.Ico_self, Set.union_empty]
      · have hlt : s.getStart < s.getEnd := by
          rw [getSize_eq] at hpos
          omega
        obtain ⟨ht, -, he⟩ := tidy_addSegment h hlt h0
        exact ⟨ht, he (not_nested h hlt h0 hsw hen)⟩
    obtain ⟨ht, he⟩ := hstep
    have hin' : ∀ x ∈ covered (addSegment done s), x < size := by
      intro x hx
      rw [he] at hx
      obtain hx | hx := hx
      · exact hin x hx
      · exact hx.2.trans_le hend
    rw [List.foldl_cons]
    obtain ⟨ht', he', hin''⟩ :=
      ih ht hin' (fun s hs => hl s (List.mem_cons_of_mem _ hs)) (by rwa [he])
    exact ⟨ht', by rw [he', he, covered_cons, Set.union_assoc], hin''⟩

theorem addMatching_done (blockSize : Int) (pos : Int) (ours files : List V) (q : QueueItem U V) :
    (q.addMatching blockSize pos ours files).done =
        (matching blockSize pos ours files).foldl addSegment q.done ∧
      (q.addMatching blockSize pos ours files).size = q.size := by
  induction ours generalizing pos files q with
  | nil => exact ⟨rfl, rfl⟩
  | cons our ours ih =>
    cases files with
    | nil => exact ⟨rfl, rfl⟩
    | cons file files =>
      rw [addMatching, matching]
      by_cases h : our = file
      · rw [if_pos h, if_pos h]
        exact ih (pos + blockSize) files (q.addSegment ⟨pos, blockSize⟩)
      · rw [if_neg h, if_neg h]
        exact ih (pos + blockSize) files q

theorem matching_pos {blockSize : Int} (hb : 0 < blockSize) {pos : Int} (hp : 0 ≤ pos)
    (ours files : List V) :
    ∀ s ∈ matching blockSize pos ours files, 0 ≤ s.getStart ∧ 0 < s.getSize := by
  induction ours generalizing pos files with
  | nil => exact fun s hs => absurd hs List.not_mem_nil
  | cons our ours ih =>
    cases files with
    | nil => exact fun s hs => absurd hs List.not_mem_nil
    | cons file files =>
      have hrest := ih (by omega : 0 ≤ pos + blockSize) files
      rw [matching]
      split
      · intro s hs
        obtain rfl | hs := List.mem_cons.mp hs
        · exact ⟨hp, hb⟩
        · exact hrest s hs
      · exact hrest

/-- What an event finds good, it finds in non-empty stretches. -/
theorem found_pos {q : QueueItem U V} (hsize : 0 < q.size) {e : Event U V} (hv : Valid q.size e) :
    ∀ s ∈ found q e, s = zeroSegment ∨ 0 ≤ s.getStart ∧ 0 < s.getSize := by
  intro s hs
  cases e with
  | putDownload d pos finished =>
    obtain ⟨hb, hpos, hle, hseg⟩ := hv
    rw [found] at hs
    split at hs
    · obtain rfl := List.mem_singleton.mp hs
      exact hseg.imp id fun h => ⟨h.1, h.2.1⟩
    · split at hs
      · rename_i hd
        obtain rfl := List.mem_singleton.mp hs
        refine Or.inr ⟨?_, hd⟩
        obtain h | h := hseg
        · rw [h]
          exact le_rfl
        · exact h.1
      · exact absurd hs List.not_mem_nil
  | rechecked tt ttFile =>
    rw [found] at hs
    split at hs
    · obtain rfl := List.mem_singleton.mp hs
      exact Or.inr ⟨le_rfl, hsize⟩
    · exact Or.inr (matching_pos (Int.natCast_pos.mpr hv) le_rfl _ _ s hs)
  | resetDownloaded => exact absurd hs List.not_mem_nil
  | reload => exact absurd hs List.not_mem_nil

/-- Save for the two events that build it anew, the done set is extended by what is found. -/
theorem stepItem_done (q : QueueItem U V) (e : Event U V) (h1 : e ≠ .resetDownloaded)
    (h2 : e ≠ .reload) : (stepItem q e).done = (found q e).foldl addSegment q.done := by
  cases e with
  | putDownload d pos finished =>
    rw [stepItem, found]
    cases finished with
    | true => rfl
    | false =>
      rw [if_neg Bool.false_ne_true, if_neg Bool.false_ne_true, putUnfinished]
      by_cases h : 0 < downloaded d pos
      · rw [if_pos h, if_pos h]
        rfl
      · rw [if_neg h, if_neg h]
        rfl
  | rechecked tt ttFile =>
    rw [stepItem, found]
    by_cases h : ttFile.root = q.tthRoot
    · rw [if_pos h, if_pos h]
      rfl
    · rw [if_neg h, if_neg h]
      exact (addMatching_done _ _ _ _ q).1
  | resetDownloaded => exact absurd rfl h1
  | reload => exact absurd rfl h2

omit [DecidableEq V] in
theorem foldl_loadSegment (l : List Segment) (q : QueueItem U V) :
    (l.foldl loadSegment q).size = q.size ∧
      ((∀ s ∈ l, 0 < s.getSize ∧ 0 ≤ s.getStart ∧ s.getEnd ≤ q.size) →
        (l.foldl loadSegment q).done = l.foldl addSegment q.done) := by
  induction l generalizing q with
  | nil => exact ⟨rfl, fun _ => rfl⟩
  | cons s l ih =>
    obtain ⟨hsize, hdone⟩ := ih (q.loadSegment s)
    have hs : (q.loadSegment s).size = q.size := by
      rw [loadSegment]
      split <;> rfl
    refine ⟨hsize.trans hs, fun h => ?_⟩
    have hload : q.loadSegment s = q.addSegment s := if_pos (h s (List.mem_cons_self ..))
    rw [List.foldl_cons, hdone (fun t ht => hs.symm ▸ h t (List.mem_cons_of_mem _ ht)), hload]
    rfl

theorem within_of_tidy {done : List Segment} (h : Tidy done) {size : Int} (hsize : 0 ≤ size)
    (hin : ∀ x ∈ covered done, x < size) : ∀ t ∈ done, 0 ≤ t.getStart ∧ t.getEnd ≤ size := by
  have hend : ∀ (r : List Segment), Normal r → (∀ x ∈ covered r, x < size) →
      ∀ t ∈ r, t.getEnd ≤ size := by
    intro r hr hin t ht
    have hlt := hr.nonempty t ht
    have := hin (t.getEnd - 1) ⟨t, ht, by omega, by omega⟩
    omega
  cases h with
  | normal h nonneg => exact fun t ht => ⟨nonneg t ht, hend _ h hin t ht⟩
  | @zero r h pos =>
    rw [covered_zero_cons] at hin
    intro t ht
    obtain rfl | ht := List.mem_cons.mp ht
    · exact ⟨le_rfl, by simpa [zeroSegment] using hsize⟩
    · exact ⟨(pos t ht).le, hend r h hin t ht⟩

omit [DecidableEq V] in
/-- Loading keeps the segments, but for the empty one. -/
theorem reload_spec {q : QueueItem U V} (h : Tidy q.done) (hsize : 0 ≤ q.size)
    (hin : ∀ x ∈ covered q.done, x < q.size) :
    Tidy q.reload.done ∧ covered q.reload.done = covered q.done ∧ q.reload.size = q.size := by
  have hw := within_of_tidy h hsize hin
  have hvalid : ∀ r : List Segment, Normal r → (∀ t ∈ r, t ∈ q.done) →
      ∀ s ∈ r, 0 < s.getSize ∧ 0 ≤ s.getStart ∧ s.getEnd ≤ q.size := by
    intro r hr hsub s hs
    have hlt := hr.nonempty s hs
    refine ⟨?_, hw s (hsub s hs)⟩
    rw [getSize_eq]
    omega
  have hload : ∀ r : List Segment, Normal r → (∀ t ∈ r, t ∈ q.done) →
      (r.foldl loadSegment q.resetDownloaded).done = r := by
    intro r hr hsub
    rw [(foldl_loadSegment r q.resetDownloaded).2 (hvalid r hr hsub)]
    exact foldl_addSegment hr
  refine ⟨?_, ?_, (foldl_loadSegment _ _).1⟩
  · rw [reload]
    generalize hdone : q.done = done at h hload
    cases h with
    | normal h nonneg =>
      rw [hload _ h fun t ht => ht]
      exact .normal h nonneg
    | @zero r h pos =>
      rw [List.foldl_cons, loadSegment, if_neg (by simp [zeroSegment]),
        hload r h fun t ht => List.mem_cons_of_mem _ ht]
      exact .normal h fun t ht => (pos t ht).le
  · rw [reload]
    generalize hdone : q.done = done at h hload
    cases h with
    | normal h nonneg => rw [hload _ h fun t ht => ht]
    | @zero r h pos =>
      rw [List.foldl_cons, loadSegment, if_neg (by simp [zeroSegment]),
        hload r h fun t ht => List.mem_cons_of_mem _ ht, covered_zero_cons]

theorem stepItem_size (q : QueueItem U V) (e : Event U V) : (stepItem q e).size = q.size := by
  cases e with
  | putDownload d pos finished =>
    rw [stepItem, putUnfinished]
    split
    · rfl
    · split <;> rfl
  | resetDownloaded => rfl
  | rechecked tt ttFile =>
    rw [stepItem]
    split
    · rfl
    · exact (addMatching_done _ _ _ _ q).2
  | reload => exact (foldl_loadSegment _ _).1

theorem step_inv {st : State U V} (h : Inv st) (hsize : 0 < st.item.size) {e : Event U V}
    (hv : Valid st.item.size e) (hm : Meets st e) : Inv (step st e) := by
  have hin : ∀ x ∈ covered st.item.done, x < st.item.size := h.covered_eq ▸ h.inside
  have hextend : ∀ e, e ≠ .resetDownloaded → e ≠ .reload → Valid st.item.size e → Meets st e →
      Inv ⟨stepItem st.item e, st.good ∪ covered (found st.item e)⟩ := by
    intro e h1 h2 hv hm
    rw [Meets, ← h.covered_eq] at hm
    obtain ⟨ht, hc, hin'⟩ := foldl_addSegment_clean h.tidy hin (found_pos hsize hv) hm
    rw [← stepItem_done st.item e h1 h2] at ht hc hin'
    refine ⟨ht, hc.trans (by rw [h.covered_eq]), fun x hx => ?_⟩
    dsimp only at hx ⊢
    rw [← h.covered_eq, ← hc] at hx
    rw [stepItem_size]
    exact hin' x hx
  cases e with
  | putDownload d pos finished =>
    exact hextend _ (by simp) (by simp) hv hm
  | rechecked tt ttFile =>
    exact hextend _ (by simp) (by simp) hv hm
  | resetDownloaded =>
    exact ⟨.normal normal_nil fun t ht => absurd ht List.not_mem_nil, covered_nil,
      fun x hx => absurd hx (Set.notMem_empty x)⟩
  | reload =>
    obtain ⟨ht, hc, hs⟩ := reload_spec h.tidy hsize.le hin
    have hgood : (step st .reload).good = st.good := by simp [step, found]
    refine ⟨ht, (hc.trans h.covered_eq).trans hgood.symm, fun x hx => ?_⟩
    rw [hgood] at hx
    exact (h.inside x hx).trans_eq hs.symm

omit [DecidableEq V] in
theorem Inv.marked {st : State U V} (h : Inv st) (hsize : 0 < st.item.size) : Marked st := by
  have hin : ∀ x ∈ covered st.item.done, x < st.item.size := h.covered_eq ▸ h.inside
  have hw := within_of_tidy h.tidy hsize.le hin
  have hall : Set.Ico 0 st.item.size ⊆ st.good → covered st.item.done = Set.Ico 0 st.item.size := by
    intro hgood
    rw [← h.covered_eq] at hgood
    refine Set.Subset.antisymm (fun x hx => ?_) hgood
    obtain ⟨t, ht, hx⟩ := hx
    exact ⟨(hw t ht).1.trans hx.1, hx.2.trans_le (hw t ht).2⟩
  refine ⟨hw, fun hgood => ?_, fun hgood => ?_⟩
  · rw [QueueItem.isFinished, decide_eq_true_eq]
    exact eq_of_covered h.tidy hsize (hall hgood)
  · obtain ⟨ht, hc, hs⟩ := reload_spec h.tidy hsize.le hin
    rw [QueueItem.isFinished, decide_eq_true_eq, hs]
    exact eq_of_covered ht hsize (hc.trans (hall hgood))

theorem run_inv {q : QueueItem U V} (hsize : 0 < q.size) (hdone : q.done = [])
    (events : List (Event U V)) (hv : ∀ e ∈ events, Valid q.size e)
    (hm : ∀ (i : Nat) (h : i < events.length), Meets (run ⟨q, ∅⟩ (events.take i)) events[i]) :
    Inv (run ⟨q, ∅⟩ events) ∧ (run ⟨q, ∅⟩ events).item.size = q.size := by
  induction events using List.reverseRecOn with
  | nil =>
    refine ⟨⟨?_, ?_, fun x hx => absurd hx (Set.notMem_empty x)⟩, rfl⟩
    · rw [run, List.foldl_nil, hdone]
      exact .normal normal_nil fun t ht => absurd ht List.not_mem_nil
    · rw [run, List.foldl_nil, hdone, covered_nil]
  | append_singleton events e ih =>
    have hm' : ∀ (i : Nat) (h : i < events.length), Meets (run ⟨q, ∅⟩ (events.take i)) events[i] := by
      intro i hi
      have hi' := hm i (by rw [List.length_append]; exact Nat.lt_add_right _ hi)
      rwa [List.take_append_of_le_length hi.le, List.getElem_append_left hi] at hi'
    have hlast := hm events.length (by rw [List.length_append]; exact Nat.lt_succ_self _)
    rw [List.take_left, List.getElem_concat_length rfl] at hlast
    obtain ⟨hinv, hsz⟩ := ih (fun e he => hv e (List.mem_append_left _ he)) hm'
    have hve := hv e (List.mem_append_right _ (List.mem_singleton_self e))
    rw [run, List.foldl_append, List.foldl_cons, List.foldl_nil]
    exact ⟨step_inv hinv (hsz ▸ hsize) (hsz ▸ hve) hlast, (stepItem_size _ _).trans hsz⟩

/-- A file of one and a half blocks. -/
def halfItem : QueueItem Unit Nat where
  flags := 0
  target := []
  size := 1536
  priority := .NORMAL
  added := 0
  tthRoot := 0
  tempTarget := []
  sources := []
  badSources := []
  done := []
  downloads := []

/-- A recheck finds the first block bad, and it is downloaded again. -/
def halfRun (last : Nat) : List (Event Unit Nat) :=
  [.resetDownloaded, .rechecked ⟨[], [0, 7], 0, 1536, 1024⟩ ⟨[], [1, last], 1, 1536, 1024⟩,
    .putDownload ⟨0, (), [], .TYPE_FILE, ⟨0, 1024⟩, 1024⟩ 1024 true]

theorem halfRun_valid (last : Nat) : ∀ e ∈ halfRun last, Valid halfItem.size e := by
  simp [halfRun, Valid, halfItem]

/-- Nothing goes wrong as long as the last leaf does not match either. -/
theorem halfRun_meets (i : Nat) (hi : i < (halfRun 8).length) :
    Meets (run ⟨halfItem, ∅⟩ ((halfRun 8).take i)) (halfRun 8)[i] := by
  match i, hi with
  | 0, _ => trivial
  | 1, _ => trivial
  | 2, _ =>
    have hgood : (run ⟨halfItem, ∅⟩ ((halfRun 8).take 2)).good = ∅ := by
      have hfound : found halfItem ((halfRun 8).get ⟨1, by decide⟩) = [] := by decide
      refine (congrArg (fun l => ∅ ∪ covered l) hfound).trans ?_
      rw [covered_nil, Set.union_empty]
    refine ⟨by decide, ?_, ?_, trivial⟩
    · rw [hgood]
      exact fun hs => hs (Set.left_mem_Icc.mpr (by decide))
    · rw [hgood]
      rintro ⟨x, y, z, -, -, -, -, -, hy, -⟩
      exact hy

end ItemProgress

end Dcpp
