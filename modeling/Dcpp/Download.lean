import Dcpp.TreeCheck
import Dcpp.SegmentSet

namespace Dcpp.Download

open Chunks MerkleTree TigerTree TreeLeaves MerkleCheck TreeCheck

variable {V F : Type} {H : TreeHasher V}

/-- What a download of `TYPE_FILE` works with: the trusted tree, its segment (which starts
at a block and lies in the file), the settings, and the parts of the world it depends on. -/
structure Setup (H : TreeHasher V) (F : Type) where
  tt : TrustedTree H
  startBlock : Nat
  size : Nat
  inside : startBlock * tt.blockSize + size ≤ tt.fileSize
  bufferSize : Nat
  succeeds : Nat → Bool
  newFilter : F
  filter : F → List UInt8 → FilterCall F
  fuel : Nat

def Setup.startPos (c : Setup H F) : Nat := c.startBlock * c.tt.blockSize

/-- The file, behind a buffer if one is set. -/
def fileOutput (c : Setup H F) : OutputStream (List UInt8 × File) :=
  if c.bufferSize = 0 then
    { write := fun st b => ((fileOutputStream c.succeeds).write st.2 b).map (st.1, ·)
      flush := fun st => ((fileOutputStream c.succeeds).flush st.2).map (st.1, ·) }
  else bufferedOutputStream c.bufferSize (fileOutputStream c.succeeds)

section Sink

variable {c : Setup H F} {st st' : List UInt8 × File}

theorem fileOutput_write_returned {b : List UInt8} (h : (fileOutput c).write st b = .returned st')
    (hu : c.bufferSize = 0 → st.1 = []) :
    pending st' = pending st ++ b ∧ (c.bufferSize = 0 → st'.1 = []) := by
  rw [fileOutput] at h
  by_cases h0 : c.bufferSize = 0
  · rw [if_pos h0] at h
    cases hw : (fileOutputStream c.succeeds).write st.2 b with
    | returned f =>
      simp only [hw, Outcome.map_returned] at h
      obtain rfl := Outcome.returned.inj h
      refine ⟨?_, hu⟩
      simp only [pending, fileOutputStream_write.1 hw, hu h0, List.append_nil]
    | threw aError f =>
      simp only [hw, Outcome.map_threw] at h
      cases h
    | undefined =>
      simp only [hw, Outcome.map_undefined] at h
      cases h
  · rw [if_neg h0] at h
    exact ⟨(fileOutputStream_carries c.succeeds).bufferedWrite_returned h, fun h' => absurd h' h0⟩

/-- No call loses a byte that came to the buffer before. -/
def Holds (c : Setup H F) (w : List UInt8) (st : List UInt8 × File) : Prop :=
  w <+: pending st ∧ (c.bufferSize = 0 → st.1 = [])

theorem fileOutput_writeKeeps (c : Setup H F) (w : List UInt8) :
    (fileOutput c).WriteKeeps (Holds c w) := by
  rintro st b st' ⟨hw, hu⟩ hst
  rw [fileOutput] at hst
  by_cases h0 : c.bufferSize = 0
  · rw [if_pos h0] at hst
    simp only [Outcome.state?_map, Option.map_eq_some_iff] at hst
    obtain ⟨f, hf, rfl⟩ := hst
    refine ⟨hw.trans ?_, hu⟩
    cases hr : (fileOutputStream c.succeeds).write st.2 b with
    | returned f' =>
      rw [hr] at hf
      obtain rfl := Option.some.inj hf
      simp only [pending, fileOutputStream_write.1 hr, hu h0, List.append_nil]
      exact List.prefix_append _ _
    | threw aError f' =>
      rw [hr] at hf
      obtain rfl := Option.some.inj hf
      simp only [pending, fileOutputStream_write.2 _ hr]
      exact List.prefix_refl _
    | undefined =>
      rw [hr] at hf
      cases hf
  · rw [if_neg h0] at hst
    exact ⟨hw.trans ((fileOutputStream_carries c.succeeds).bufferedWrite_state hst).1, fun h' => absurd h' h0⟩

theorem fileOutput_flush_state (h : ((fileOutput c).flush st).state? = some st')
    (hu : c.bufferSize = 0 → st.1 = []) :
    pending st' = pending st ∧ (c.bufferSize = 0 → st'.1 = []) ∧ (st.1 = [] → st'.1 = []) ∧
      ((fileOutput c).flush st = .returned st' → st'.1 = []) := by
  rw [fileOutput] at h ⊢
  by_cases h0 : c.bufferSize = 0
  · rw [if_pos h0] at h
    simp only [Outcome.state?_map, Option.map_eq_some_iff] at h
    obtain ⟨f, hf, rfl⟩ := h
    refine ⟨?_, hu, fun hb => hb, fun _ => hu h0⟩
    simp only [pending, fileOutputStream_flush hf]
  · rw [if_neg h0] at h ⊢
    obtain ⟨hp, hnil, hret⟩ := (fileOutputStream_carries c.succeeds).bufferedFlush_state h
    exact ⟨hp, fun h' => absurd h' h0, hnil, hret⟩

theorem fileOutput_flushKeeps (c : Setup H F) (w : List UInt8) :
    (fileOutput c).FlushKeeps (Holds c w) := by
  rintro st st' ⟨hw, hu⟩ hst
  obtain ⟨hp, hu', -⟩ := fileOutput_flush_state hst hu
  exact ⟨hp ▸ hw, hu'⟩

/-- With an empty buffer a flush changes nothing that is stored. -/
theorem fileOutput_flushKeeps_stored (c : Setup H F) (w : List UInt8) :
    (fileOutput c).FlushKeeps fun st => st.2.stored = w ∧ st.1 = [] := by
  rintro st st' ⟨hw, hb⟩ hst
  obtain ⟨hp, -, hnil, -⟩ := fileOutput_flush_state hst fun _ => hb
  have hb' := hnil hb
  rw [pending, pending, hb, hb', List.append_nil, List.append_nil] at hp
  exact ⟨hp.trans hw, hb'⟩

end Sink

variable [Inhabited V] [DecidableEq V]

/-- The streams of `output`: perhaps a filter, the limit, the checker, the buffer and
the file. -/
structure Output (V F : Type) where
  filtered : Option (Filtered F)
  maxBytes : Nat
  check : MerkleCheck V
  buf : List UInt8
  file : File

/-- The streams below the filter. -/
def limited (c : Setup H F) : OutputStream (Nat × MerkleCheck V × List UInt8 × File) :=
  limitedOutputStream (merkleCheckOutputStream H (fileOutput c))

namespace Output

def below (o : Output V F) : Nat × MerkleCheck V × List UInt8 × File :=
  (o.maxBytes, o.check, o.buf, o.file)

def ofBelow (filtered : Option (Filtered F)) (st : Nat × MerkleCheck V × List UInt8 × File) :
    Output V F := ⟨filtered, st.1, st.2.1, st.2.2.1, st.2.2.2⟩

/-- `Download::open`, with a `File` positioned at the start of the segment. -/
def «open» (c : Setup H F) (z : Bool) : Output V F where
  filtered := if z then some ⟨c.newFilter, false, true⟩ else none
  maxBytes := c.size
  check := MerkleCheck.new c.tt.toMerkleTree c.startPos
  buf := []
  file := ⟨[], 0⟩

/-- `write`, with its result. -/
def write (c : Setup H F) (o : Output V F) (buf : List UInt8) : Outcome (Nat × Output V F) :=
  match o.filtered with
  | none => ((limited c).write o.below buf).map fun st => (buf.length, ofBelow none st)
  | some f => (filteredWrite c.filter (limited c) c.fuel (f, o.below) buf).map
      fun r => (r.1, ofBelow (some r.2.1) r.2.2)

def flush (c : Setup H F) (o : Output V F) : Outcome (Output V F) :=
  match o.filtered with
  | none => ((limited c).flush o.below).map (ofBelow none)
  | some f => (filteredFlush c.filter (limited c) c.fuel (f, o.below)).map
      fun r => ofBelow (some r.1) r.2

def eof (o : Output V F) : Bool :=
  match o.filtered with
  | none => o.maxBytes == 0
  | some f => !f.more

/-- `Download::close`: the streams are destroyed. -/
def close (c : Setup H F) (o : Output V F) : Outcome (Output V F) :=
  if c.bufferSize = 0 then .returned o
  else (bufferedClose (fileOutputStream c.succeeds) (o.buf, o.file)).map
    fun st => { o with buf := st.1, file := st.2 }

end Output

/-- The members of a `Download` that change during a transfer. -/
structure Transfer (V F : Type) where
  pos : Nat
  actual : Nat
  output : Option (Output V F)

/-- A download runs, has left the `DownloadManager` and waits for `putDownload`, or has been put
back: then there is a segment to add, or none, and a file. -/
inductive State (V F : Type) where
  | running (d : Transfer V F)
  | closing (d : Transfer V F) (finished : Bool)
  | ended (added : Option Segment) (stored : List UInt8)
  | stuck

/-- `removeDownload`, followed by `next`. -/
def removeDownload (c : Setup H F) (d : Transfer V F) (next : Transfer V F → State V F) : State V F :=
  match d.output with
  | none => next d
  | some o =>
    if 0 < d.actual then
      match o.flush c with
      | .returned o => next { d with output := some o }
      | .threw _ o => next { d with output := some o }
      | .undefined => .stuck
    else next d

def failDownload (c : Setup H F) (d : Transfer V F) : State V F :=
  removeDownload c d fun d => .closing d false

def endData (c : Setup H F) (d : Transfer V F) (o : Output V F) : State V F :=
  match o.flush c with
  | .returned o => removeDownload c { d with output := some o } fun d => .closing d true
  | .threw _ o => failDownload c { d with pos := 0, output := some o }
  | .undefined => .stuck

def startData (c : Setup H F) (d : Transfer V F) (z : Bool) : State V F :=
  match d.output with
  | some _ => .running d
  | none =>
    let o := Output.open c z
    let d := { d with output := some o }
    if d.pos = c.size then endData c d o else .running d

def onData (c : Setup H F) (d : Transfer V F) (aData : List UInt8) : State V F :=
  match d.output with
  | none => .running d
  | some o =>
    match o.write c aData with
    | .returned (n, o) =>
      let d := { pos := d.pos + n, actual := d.actual + aData.length, output := some o }
      if o.eof then endData c d o else .running d
    | .threw _ (_, o) => failDownload c { d with output := some o }
    | .undefined => .stuck

/-- What an unfinished download counts: `pos` down to a whole block. -/
def downloaded (c : Setup H F) (d : Transfer V F) : Nat := d.pos - d.pos % c.tt.blockSize

/-- The segment that `putDownload` adds to the queue item. -/
def added (c : Setup H F) (d : Transfer V F) (finished : Bool) : Option Segment :=
  if finished then some ⟨c.startPos, c.size⟩
  else if 0 < downloaded c d then some ⟨c.startPos, downloaded c d⟩
  else none

def putDownload (c : Setup H F) (d : Transfer V F) (finished : Bool) : State V F :=
  match d.output with
  | none => .ended (added c d finished) []
  | some o =>
    match o.close c with
    | .returned o => .ended (added c d finished) o.file.stored
    | .threw _ o => .ended (added c d finished) o.file.stored
    | .undefined => .stuck

/-- What happens to a download: the peer's answer, with or without compression, its
data, and any failure. -/
inductive Event where
  | start (z : Bool)
  | data (aData : List UInt8)
  | fail

def step (c : Setup H F) : State V F → Event → State V F
  | .running d, .start z => startData c d z
  | .running d, .data aData => onData c d aData
  | .running d, .fail => failDownload c d
  | .closing d finished, _ => putDownload c d finished
  | s, _ => s

def run (c : Setup H F) (events : List Event) : State V F :=
  events.foldl (step c) (.running ⟨0, 0, none⟩)

end Dcpp.Download
