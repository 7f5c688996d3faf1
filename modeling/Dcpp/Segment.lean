import Mathlib.Data.Int.ConditionallyCompleteOrder
import Mathlib.Order.CompletePartialOrder
import Mathlib.Order.ConditionallyCompleteLattice.Basic
import Dcpp.Library.HalfOpen

namespace Dcpp

/-- A stretch of a file: `size` bytes from `start`. -/
structure Segment where
  start : Int
  size : Int
deriving DecidableEq, Repr

namespace Segment

open HalfOpen

def getStart (s : Segment) : Int := s.start

def getSize (s : Segment) : Int := s.size

def getEnd (s : Segment) : Int := s.getStart + s.getSize

def overlaps (s rhs : Segment) : Bool :=
  decide (s.getStart < rhs.getEnd ∧ rhs.getStart < s.getEnd)

/-- The source's `operator<`, which orders the done set. -/
def lt (s rhs : Segment) : Bool :=
  decide (s.getStart < rhs.getStart ∨ s.getStart = rhs.getStart ∧ s.getSize < rhs.getSize)

/-- The bytes of a segment. -/
def bytes (s : Segment) : Set Int := Set.Ico s.getStart s.getEnd

@[simp] theorem getStart_mk (a n : Int) : getStart ⟨a, n⟩ = a := rfl

@[simp] theorem getSize_mk (a n : Int) : getSize ⟨a, n⟩ = n := rfl

@[simp] theorem getEnd_mk (a n : Int) : getEnd ⟨a, n⟩ = a + n := rfl

theorem getSize_eq (s : Segment) : s.getSize = s.getEnd - s.getStart := by
  rw [getEnd]
  omega

theorem eq_of_bounds (s t : Segment) (h : s.getStart = t.getStart) (he : s.getEnd = t.getEnd) :
    s = t := by
  cases s
  cases t
  simp only [getStart_mk, getEnd_mk] at h he
  subst h
  simpa using he

theorem mem_bytes (s : Segment) (x : Int) : x ∈ s.bytes ↔ s.getStart ≤ x ∧ x < s.getEnd :=
  Iff.rfl

theorem overlaps_iff (s t : Segment) (hs : 0 < s.getSize) (ht : 0 < t.getSize) :
    s.overlaps t = true ↔ ¬Disjoint s.bytes t.bytes := by
  rw [getSize_eq] at hs ht
  rw [overlaps, decide_eq_true_eq, Set.not_disjoint_iff]
  constructor
  · rintro ⟨h, h'⟩
    exact ⟨max s.getStart t.getStart, by rw [mem_bytes]; omega, by rw [mem_bytes]; omega⟩
  · rintro ⟨x, hx, hx'⟩
    rw [mem_bytes] at hx hx'
    omega

theorem lt_iff_bounds (s t : Segment) :
    s.lt t = true ↔ s.getStart < t.getStart ∨ s.getStart = t.getStart ∧ s.getEnd < t.getEnd := by
  simp only [lt, getEnd, decide_eq_true_eq]
  omega

end Segment

end Dcpp
