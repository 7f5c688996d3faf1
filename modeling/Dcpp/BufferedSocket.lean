import Mathlib.Data.List.Basic
import Mathlib.Tactic.Common
import Dcpp.Bytes

namespace Dcpp.BufferedSocket

-- The compressed mode and the rollback, which only compressed transfers use, are left out.
inductive Modes where
  | MODE_LINE | MODE_DATA
deriving DecidableEq, Repr

/-- The calls of the listeners. -/
inductive Event where
  | line (l : Bytes)
  | data (d : Bytes)
  | modeChange
deriving DecidableEq

/-- What the listeners do when they get a line: nothing, or `setDataMode` for some bytes, or for
all that follow. -/
inductive Choice where
  | stay
  | bytes (n : Nat)
  | all
deriving DecidableEq

/-- The members that `threadRead` uses, and the calls of the listeners so far. No `dataBytes` stands
for -1, all bytes that follow. -/
structure State where
  separator : UInt8
  mode : Modes
  dataBytes : Option Nat
  line : Bytes
  fired : List Event
deriving DecidableEq

/-- The calls of `data` that follow each other are joined. -/
def addData (log : List Event) (d : Bytes) : List Event :=
  if d = [] then log
  else
    match log.getLast? with
    | some (.data d') => log.dropLast ++ [.data (d' ++ d)]
    | _ => log ++ [.data d]

def joined (fired : List Event) : List Event :=
  fired.foldl (fun log e => match e with
    | .data d => addData log d
    | e => log ++ [e]) []

/-- The listeners decide by what they have been told. -/
abbrev Listener := List Event → Choice

def setDataMode (s : State) (aBytes : Option Nat) : State :=
  { s with mode := .MODE_DATA, dataBytes := aBytes }

def fire (s : State) (e : Event) : State := { s with fired := s.fired ++ [e] }

def fireLine (listener : Listener) (s : State) (l : Bytes) : State :=
  let s := fire s (.line l)
  match listener (joined s.fired) with
  | .stay => s
  | .bytes n => setDataMode s (some n)
  | .all => setDataMode s none

/-- The loop over the lines in `l`, where `total` is the size of the buffer. The results are
also `bufpos` and `left`. -/
def lineLoop (listener : Listener) (total : Nat) (l : Bytes) (bufpos left : Nat) (s : State) :
    State × Nat × Nat :=
  match h : l.findIdx? (· == s.separator) with
  | none => ({ s with line := l }, bufpos, 0)
  | some pos =>
    let s := if 0 < pos then fireLine listener s (l.take pos) else s
    let l' := l.drop (pos + 1)
    let left := if l'.length < left then l'.length else left
    if s.mode ≠ .MODE_LINE then ({ s with line := [] }, total - left, left)
    else lineLoop listener total l' bufpos left s
termination_by l.length
decreasing_by
  rw [List.length_drop]
  have := (List.findIdx?_eq_some_iff_getElem.mp h).1
  omega

/-- The loop of the data mode over the bytes that are left; the result is also how many are left. -/
def dataLoop (inbuf : Bytes) (s : State) : State × Nat :=
  if h : inbuf = [] then (s, 0)
  else
    match s.dataBytes with
    | none => (fire s (.data inbuf), 0)
    | some n =>
      let high := min n inbuf.length
      let s := { fire s (.data (inbuf.take high)) with dataBytes := some (n - high) }
      if hn : n - high = 0 then
        (fire { s with mode := .MODE_LINE } .modeChange, (inbuf.drop high).length)
      else dataLoop (inbuf.drop high) s
termination_by inbuf.length
decreasing_by
  rw [List.length_drop]
  have := List.length_pos_iff.mpr h
  simp only [high] at hn ⊢
  omega

/-- A separator that is not known yet depends on the first byte. -/
def chooseSeparator (inbuf : Bytes) (s : State) : State :=
  if s.separator = 0 then
    { s with separator := if inbuf.head? = some (byte '$') then byte '|' else byte '\n' }
  else s

/-- The loop over the buffer. -/
def readLoop (listener : Listener) (inbuf : Bytes) : Nat → Nat → Nat → State → Option State
  | 0, _, _, _ => none
  | fuel + 1, bufpos, left, s =>
    if left = 0 then some s
    else
      let bytes := (inbuf.drop bufpos).take left
      match s.mode with
      | .MODE_LINE =>
        let s := chooseSeparator inbuf s
        let r := lineLoop listener inbuf.length (s.line ++ bytes) bufpos left s
        readLoop listener inbuf fuel r.2.1 r.2.2 r.1
      | .MODE_DATA =>
        let r := dataLoop bytes s
        readLoop listener inbuf fuel (bufpos + (left - r.2)) r.2 r.1

inductive ReadError where
  /-- `Maximum command length exceeded`. -/
  | tooLong
  /-- The loop has not ended. -/
  | hang
deriving DecidableEq

/-- `threadRead`, when the socket has given it these bytes; `maxLength` is `MAX_COMMAND_LENGTH`. -/
def threadRead (listener : Listener) (maxLength : Nat) (s : State) (inbuf : Bytes) :
    Except ReadError State :=
  match readLoop listener inbuf (2 * inbuf.length + 2) 0 inbuf.length s with
  | none => .error .hang
  | some s => if s.mode = .MODE_LINE ∧ maxLength < s.line.length then .error .tooLong else .ok s

/-- One read after the other. -/
def run (listener : Listener) (maxLength : Nat) (s : State) (reads : List Bytes) : Except ReadError State :=
  reads.foldlM (threadRead listener maxLength) s

/-- The constructor. -/
def start (aSeparator : UInt8) : State := ⟨aSeparator, .MODE_LINE, some 0, [], []⟩

end Dcpp.BufferedSocket
