import Mathlib.Algebra.Order.Group.Unbundled.Int
import Mathlib.Algebra.Ring.Int.Defs
import Mathlib.Tactic.Common
import Dcpp.Bytes
import Dcpp.SegmentSet

namespace Dcpp

/-- `Flags`, a set of bits. -/
abbrev Flags := Nat

namespace Flags

def isSet (flags aFlag : Flags) : Bool := flags &&& aFlag == aFlag

def isAnySet (flags aFlag : Flags) : Bool := flags &&& aFlag != 0

def setFlag (flags aFlag : Flags) : Flags := flags ||| aFlag

end Flags

structure HintedUser (U : Type) where
  user : U
  hint : Bytes
deriving DecidableEq

structure Source (U : Type) where
  user : HintedUser U
  flags : Flags
deriving DecidableEq

namespace Source

def FLAG_FILE_NOT_AVAILABLE : Flags := 0x01
def FLAG_PASSIVE : Flags := 0x02
def FLAG_CRC_FAILED : Flags := 0x08
def FLAG_NO_TREE : Flags := 0x80

/-- All the reasons together, but `FLAG_NO_TTHF`. -/
def FLAG_MASK : Flags := 0x7df

end Source

inductive Priority where
  | DEFAULT | PAUSED | LOWEST | LOW | NORMAL | HIGH | HIGHEST | LAST
deriving DecidableEq, Repr

namespace Priority

def toInt : Priority → Int
  | DEFAULT => -1
  | PAUSED => 0
  | LOWEST => 1
  | LOW => 2
  | NORMAL => 3
  | HIGH => 4
  | HIGHEST => 5
  | LAST => 6

/-- The priorities that an array of `LAST` elements has a place for. -/
def isIndex (p : Priority) : Bool := decide (0 ≤ p.toInt ∧ p.toInt < LAST.toInt)

/-- The order in which a user's items are considered. -/
def descending : List Priority := [HIGHEST, HIGH, NORMAL, LOW, LOWEST, PAUSED]

theorem mem_descending (p : Priority) : p ∈ descending ↔ p.isIndex = true := by
  cases p <;> decide

end Priority

/-- What a `Transfer` fetches, when it is a download. -/
inductive TransferType where
  | TYPE_FILE | TYPE_FULL_LIST | TYPE_PARTIAL_LIST | TYPE_TREE
deriving DecidableEq, Repr

/-- The members of a `Download` that the queue reads; `id` stands for its address and
`blockSize` is that of its tree. -/
structure Download (U : Type) where
  id : Nat
  user : U
  path : Bytes
  type : TransferType
  segment : Segment
  blockSize : Int
deriving DecidableEq

/-- A `QueueItem`. `U` holds the users and `V` the hashes. -/
structure QueueItem (U V : Type) where
  flags : Flags
  target : Bytes
  size : Int
  priority : Priority
  added : Int
  tthRoot : V
  tempTarget : Bytes
  sources : List (Source U)
  badSources : List (Source U)
  done : List Segment
  downloads : List (Download U)

/-- What the search for a segment reads besides the item: `SETTING(SEGMENTED_DL)`, and the
product `wantedSize * max(0.25, 1 - donePart ^ 2)` as the machine's floating point numbers give
it for the wanted size, the downloaded bytes and the size. -/
structure SegmentSettings where
  segmentedDl : Bool
  targetSize : Int → Int → Int → Int

/-- Rounds to the nearest multiple, whatever its name says. -/
def roundDown (size blockSize : Int) : Int :=
  (size + blockSize.tdiv 2).tdiv blockSize * blockSize

def roundUp (size blockSize : Int) : Int :=
  (size + blockSize - 1).tdiv blockSize * blockSize

namespace QueueItem

open Segment SegmentSet

def FLAG_USER_LIST : Flags := 0x02
def FLAG_DIRECTORY_DOWNLOAD : Flags := 0x04
def FLAG_CLIENT_VIEW : Flags := 0x08
def FLAG_PARTIAL_LIST : Flags := 0x200

variable {U V : Type}

def isSet (q : QueueItem U V) (aFlag : Flags) : Bool := q.flags.isSet aFlag

def getDownloadedBytes (q : QueueItem U V) : Int := (q.done.map getSize).sum

def addSegment (q : QueueItem U V) (segment : Segment) : QueueItem U V :=
  { q with done := SegmentSet.addSegment q.done segment }

def resetDownloaded (q : QueueItem U V) : QueueItem U V := { q with done := [] }

def isFinished (q : QueueItem U V) : Bool := decide (q.done = [⟨0, q.size⟩])

def isWaiting (q : QueueItem U V) : Bool := q.downloads.isEmpty

def isRunning (q : QueueItem U V) : Bool := !q.isWaiting

/-- The users of the good sources. -/
def users (q : QueueItem U V) : List U := q.sources.map fun i => i.user.user

section Sources

variable [DecidableEq U]

def getSource (q : QueueItem U V) (aUser : U) : Option (Source U) :=
  q.sources.find? fun i => decide (i.user.user = aUser)

def getBadSource (q : QueueItem U V) (aUser : U) : Option (Source U) :=
  q.badSources.find? fun i => decide (i.user.user = aUser)

def isSource (q : QueueItem U V) (aUser : U) : Bool := (q.getSource aUser).isSome

def isBadSource (q : QueueItem U V) (aUser : U) : Bool := (q.getBadSource aUser).isSome

/-- `exceptions` are removed from the mask by an exclusive or. -/
def isBadSourceExcept (q : QueueItem U V) (aUser : U) (exceptions : Flags) : Bool :=
  match q.getBadSource aUser with
  | some i => i.flags.isAnySet (exceptions ^^^ Source.FLAG_MASK)
  | none => false

def addSource (q : QueueItem U V) (aUser : HintedUser U) : QueueItem U V :=
  match q.getBadSource aUser.user with
  | some i => { q with
      sources := q.sources ++ [i]
      badSources := q.badSources.eraseP fun i => decide (i.user.user = aUser.user) }
  | none => { q with sources := q.sources ++ [⟨aUser, 0⟩] }

/-- The source stays behind as a bad one; undefined if there is none. -/
def removeSource (q : QueueItem U V) (aUser : U) (reason : Flags) : Option (QueueItem U V) :=
  match q.getSource aUser with
  | some i => some { q with
      sources := q.sources.eraseP fun i => decide (i.user.user = aUser)
      badSources := q.badSources ++ [{ i with flags := i.flags.setFlag reason }] }
  | none => none

end Sources

/-- A block is taken by the done set: in one piece if it is no longer than `blockSize`, else by
an overlap. -/
def taken (blockSize curSize : Int) (block : Segment) (i : Segment) : Bool :=
  if curSize ≤ blockSize then decide (i.getStart ≤ block.getStart ∧ block.getEnd ≤ i.getEnd)
  else block.overlaps i

/-- The loop of `getNextSegment`. -/
def nextSegmentLoop (q : QueueItem U V) {blockSize targetSize : Int} (hb : 0 < blockSize)
    (ht : 0 < targetSize) (start curSize : Int) (_hc : 0 < curSize) : Segment :=
  if hs : start < q.size then
    let «end» := min q.size (start + curSize)
    let block : Segment := ⟨start, «end» - start⟩
    if q.done.any (taken blockSize curSize block) ||
        q.downloads.any fun i => block.overlaps i.segment then
      if h : blockSize < curSize then nextSegmentLoop q hb ht start (curSize - blockSize) (by omega)
      else nextSegmentLoop q hb ht «end» targetSize ht
    else block
  else ⟨0, 0⟩
termination_by ((q.size - start).toNat, curSize.toNat)
decreasing_by
  · exact Prod.Lex.right _ (by omega)
  · exact Prod.Lex.left _ _ (by omega)

/-- Without segmented downloading, the first gap, widened to whole blocks. -/
def nextGap (q : QueueItem U V) (blockSize : Int) : Segment :=
  match q.done with
  | [] => ⟨0, q.size⟩
  | first :: rest =>
    if 0 < first.getStart then ⟨0, min q.size (roundUp first.getStart blockSize)⟩
    else
      let start := roundDown first.getEnd blockSize
      match rest with
      | [] => ⟨start, q.size - start⟩
      | second :: _ => ⟨start, min q.size (roundUp second.getStart blockSize) - start⟩

theorem roundDown_pos {size blockSize : Int} (hb : 0 < blockSize) (h : blockSize < size) :
    0 < roundDown size blockSize := by
  have h2 : 0 ≤ blockSize.tdiv 2 := Int.tdiv_nonneg hb.le (by decide)
  have hle : blockSize ≤ size + blockSize.tdiv 2 := by omega
  have hdiv : 0 < (size + blockSize.tdiv 2).tdiv blockSize := by
    rw [Int.tdiv_eq_ediv_of_nonneg (by omega)]
    exact (Int.le_ediv_iff_mul_le hb).mpr (by omega)
  exact Int.mul_pos hdiv hb

/-- Undefined for a negative block size. -/
def getNextSegment (c : SegmentSettings) (q : QueueItem U V) (blockSize wantedSize : Int) : Segment :=
  if q.size = -1 ∨ blockSize = 0 then ⟨0, -1⟩
  else if !c.segmentedDl then
    if q.isRunning then ⟨0, 0⟩ else q.nextGap blockSize
  else if hb : 0 < blockSize then
    let targetSize := c.targetSize wantedSize q.getDownloadedBytes q.size
    if h : blockSize < targetSize then
      q.nextSegmentLoop hb (roundDown_pos hb h) 0 (roundDown targetSize blockSize) (roundDown_pos hb h)
    else q.nextSegmentLoop hb hb 0 blockSize hb
  else ⟨0, 0⟩

/-- A block is left for the loop: no done segment contains it and it meets no running
download. -/
def Free (q : QueueItem U V) (block : Segment) : Prop :=
  (∀ i ∈ q.done, ¬(i.getStart ≤ block.getStart ∧ block.getEnd ≤ i.getEnd)) ∧
    ∀ i ∈ q.downloads, block.overlaps i.segment = false

/-- The block of size `blockSize` that starts at `start`, cut at the end of the file. -/
def blockAt (q : QueueItem U V) (blockSize start : Int) : Segment :=
  ⟨start, min q.size (start + blockSize) - start⟩

@[simp] theorem blockAt_getStart (q : QueueItem U V) (blockSize start : Int) :
    (q.blockAt blockSize start).getStart = start := rfl

theorem blockAt_getEnd (q : QueueItem U V) (blockSize start : Int) :
    (q.blockAt blockSize start).getEnd = min q.size (start + blockSize) := by
  rw [blockAt, getEnd_mk]
  omega

theorem overlaps_mono {a b c : Segment} (h : a.getStart = b.getStart) (he : a.getEnd ≤ b.getEnd)
    (ho : a.overlaps c = true) : b.overlaps c = true := by
  rw [overlaps, decide_eq_true_eq] at ho ⊢
  omega

/-- A longer block is free only if its first `blockSize` bytes are. -/
theorem free_of_not_taken {q : QueueItem U V} {blockSize curSize : Int} {block : Segment}
    (hle : blockSize ≤ curSize) (hend : block.getEnd = min q.size (block.getStart + curSize))
    (hb : 0 < blockSize) (hs : block.getStart < q.size)
    (hdone : q.done.any (taken blockSize curSize block) = false)
    (hrun : (q.downloads.any fun i => block.overlaps i.segment) = false) :
    q.Free (q.blockAt blockSize block.getStart) := by
  have hend' : (q.blockAt blockSize block.getStart).getEnd ≤ block.getEnd := by
    rw [blockAt_getEnd, hend]
    omega
  rw [List.any_eq_false] at hdone hrun
  constructor
  · intro i hi h
    apply hdone i hi
    rw [blockAt_getStart, blockAt_getEnd] at h
    rw [taken]
    by_cases hc : curSize ≤ blockSize
    · rw [if_pos hc, decide_eq_true_eq, hend]
      omega
    · rw [if_neg hc, overlaps, decide_eq_true_eq]
      omega
  · intro i hi
    rw [← Bool.not_eq_true]
    exact fun h => hrun i hi (overlaps_mono (blockAt_getStart q blockSize _) hend' h)

theorem not_free_of_taken {q : QueueItem U V} {blockSize start : Int}
    (h : (q.done.any (taken blockSize blockSize (q.blockAt blockSize start)) ||
      q.downloads.any fun i => (q.blockAt blockSize start).overlaps i.segment) = true) :
    ¬q.Free (q.blockAt blockSize start) := by
  rintro ⟨hdone, hrun⟩
  rw [Bool.or_eq_true, List.any_eq_true, List.any_eq_true] at h
  obtain ⟨i, hi, h⟩ | ⟨i, hi, h⟩ := h
  · rw [taken, if_pos le_rfl, decide_eq_true_eq] at h
    exact hdone i hi h
  · rw [hrun i hi] at h
    cases h

/-- What the loop returns: nothing, when no block from `start` on is free; or a stretch of the
file that meets no running download and that does not consist of done bytes only. -/
inductive Found (q : QueueItem U V) (blockSize start : Int) (s : Segment) : Prop where
  | none (h : s = ⟨0, 0⟩)
      (all : ∀ k : Nat, start + k * blockSize < q.size →
        ¬q.Free (q.blockAt blockSize (start + k * blockSize)))
  | some (k : Nat) (hs : s.getStart = start + k * blockSize) (nonempty : 0 < s.getSize)
      (le : s.getEnd ≤ q.size) (apart : ∀ i ∈ q.downloads, s.overlaps i.segment = false)
      (free : q.Free (q.blockAt blockSize s.getStart))

/-- One step of the search: the block at `start` is not free, and so it goes on behind it. -/
theorem Found.skip {q : QueueItem U V} {blockSize start : Int} {s : Segment} (hb : 0 < blockSize)
    (hfree : ¬q.Free (q.blockAt blockSize start))
    (h : q.Found blockSize (min q.size (start + blockSize)) s) : q.Found blockSize start s := by
  cases h with
  | none h all =>
    refine .none h fun k hk => ?_
    cases k with
    | zero => simpa using hfree
    | succ k =>
      have hk' : start + (k + 1 : Nat) * blockSize = start + blockSize + k * blockSize := by
        rw [Int.natCast_succ, Int.add_mul, Int.one_mul]
        omega
      have hnn : 0 ≤ (k : Int) * blockSize := Int.mul_nonneg (Int.natCast_nonneg k) hb.le
      rw [hk'] at hk ⊢
      have hmin : min q.size (start + blockSize) = start + blockSize := by omega
      rw [hmin] at all
      exact all k hk
  | some k hs nonempty le apart free =>
    have hnn : 0 ≤ (k : Int) * blockSize := Int.mul_nonneg (Int.natCast_nonneg k) hb.le
    have hmin : min q.size (start + blockSize) = start + blockSize := by
      rw [getSize_eq] at nonempty
      omega
    refine .some (k + 1) ?_ nonempty le apart free
    rw [hs, hmin, Int.natCast_succ, Int.add_mul, Int.one_mul]
    omega

theorem nextSegmentLoop_found (q : QueueItem U V) {blockSize targetSize : Int} (hb : 0 < blockSize)
    (ht : 0 < targetSize) (hdvd : blockSize ∣ targetSize) (start curSize : Int) (hc : 0 < curSize)
    (hcd : blockSize ∣ curSize) :
    q.Found blockSize start (q.nextSegmentLoop hb ht start curSize hc) := by
  induction start, curSize, hc using nextSegmentLoop.induct q hb ht with
  | case1 start curSize hc hs «end» block htaken h ih =>
    rw [nextSegmentLoop, dif_pos hs, if_pos htaken, dif_pos h]
    exact ih (Int.dvd_sub hcd (Int.dvd_refl _))
  | case2 start curSize hc hs «end» block htaken h ih =>
    have hcur : curSize = blockSize := le_antisymm (not_lt.mp h) (Int.le_of_dvd hc hcd)
    subst hcur
    rw [nextSegmentLoop, dif_pos hs, if_pos htaken, dif_neg h]
    exact (ih hdvd).skip hb (not_free_of_taken htaken)
  | case3 start curSize hc hs «end» block hfree =>
    rw [nextSegmentLoop, dif_pos hs, if_neg hfree]
    rw [Bool.not_eq_true, Bool.or_eq_false_iff] at hfree
    have hend : block.getEnd = min q.size (start + curSize) := by
      simp only [block, «end», getEnd_mk]
      omega
    have hstart : block.getStart = start := rfl
    have hlt : block.getStart < block.getEnd := by omega
    refine .some 0 ?_ ?_ ?_ ?_ ?_
    · rw [Int.natCast_zero, Int.zero_mul, Int.add_zero]
      rfl
    · exact (getSize_eq block).symm ▸ Int.sub_pos_of_lt hlt
    · exact hend.trans_le (min_le_left _ _)
    · exact fun i hi => by simpa using List.any_eq_false.mp hfree.2 i hi
    · exact free_of_not_taken (Int.le_of_dvd hc hcd) hend hb hs hfree.1 hfree.2
  | case4 start curSize hc hs =>
    rw [nextSegmentLoop, dif_neg hs]
    refine .none rfl fun k hk => absurd hk ?_
    have hnn : 0 ≤ (k : Int) * blockSize := Int.mul_nonneg (Int.natCast_nonneg k) hb.le
    omega

theorem getNextSegment_found {c : SegmentSettings} (hc : c.segmentedDl = true) (q : QueueItem U V)
    (hsize : q.size ≠ -1) {blockSize : Int} (hb : 0 < blockSize) (wantedSize : Int) :
    q.Found blockSize 0 (q.getNextSegment c blockSize wantedSize) := by
  rw [getNextSegment, if_neg (by omega), hc, if_neg (by simp), dif_pos hb]
  dsimp only
  split
  · have hd : blockSize ∣ roundDown (c.targetSize wantedSize q.getDownloadedBytes q.size) blockSize :=
      Int.dvd_mul_left ..
    exact nextSegmentLoop_found q hb _ hd 0 _ _ hd
  · exact nextSegmentLoop_found q hb hb (Int.dvd_refl _) 0 _ hb (Int.dvd_refl _)

/-- Whether a segment is left does not depend on the size that is wanted. -/
theorem getNextSegment_size_eq_zero_iff {c : SegmentSettings} (hc : c.segmentedDl = true)
    (q : QueueItem U V) (hsize : q.size ≠ -1) {blockSize : Int} (hb : 0 < blockSize)
    (wantedSize : Int) : (q.getNextSegment c blockSize wantedSize).getSize = 0 ↔
      ∀ k : Nat, k * blockSize < q.size → ¬q.Free (q.blockAt blockSize (k * blockSize)) := by
  cases getNextSegment_found hc q hsize hb wantedSize with
  | none h all =>
    rw [h]
    simpa using all
  | some k hs nonempty le apart free =>
    refine iff_of_false (by omega) fun hall => hall k ?_ ?_
    · rw [getSize_eq] at nonempty
      omega
    · rwa [hs, Int.zero_add] at free

end QueueItem

end Dcpp
