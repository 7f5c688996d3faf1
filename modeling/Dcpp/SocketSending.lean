import Dcpp.Bytes
import Dcpp.Library.Runs

-- What goes out through a buffered socket: other threads leave data and files with it, and its own thread sends them.
namespace Dcpp.SocketSending

/-- A task; of a stream there is what it gives. -/
inductive Tasks where
  | CONNECT
  | DISCONNECT
  | SEND_DATA
  | SEND_FILE (stream : Bytes)
  | SHUTDOWN
  | ACCEPTED
  | ASYNC_CALL
deriving DecidableEq

inductive State where
  | STARTING
  | RUNNING
  | FAILED
deriving DecidableEq

/-- Where `threadSendFile` is: at the outer loop, at the loop that writes, or behind a write that would have blocked. -/
inductive Place where
  | fill
  | write
  | ahead
deriving DecidableEq

/-- The variables of `threadSendFile`: what the stream has still to give, the part of `readBuf` up to `readPos`, the part
of `writeBuf` from `writePos` on, and the size of a write that would have blocked. `sent` has gone out. -/
structure SendFile where
  sent : Bytes
  writeBuf : Bytes
  readBuf : Bytes
  rest : Bytes
  readDone : Bool
  blocked : Option Nat
  place : Place
deriving DecidableEq

/-- What the stream and the socket do. A write may be of fewer bytes than were there, when the bandwidth is limited. -/
inductive Outcome where
  | read (n : Nat)
  | wrote (writeSize n : Nat)
  | wouldBlock (writeSize : Nat)
  | go
deriving DecidableEq

namespace SendFile

variable (bufSize sockSize : Nat)

def begin (stream : Bytes) : SendFile := ⟨[], [], [], stream, false, none, .fill⟩

/-- Whether there is something to read, and room for it. -/
def readable (f : SendFile) : Bool := !f.readDone && decide (f.readBuf.length < bufSize)

/-- The stream gives up to `room` bytes, and none only at its end. -/
def read (room n : Nat) (f : SendFile) : Option SendFile :=
  if n ≤ min room f.rest.length ∧ (n = 0 → f.rest = []) then
    some { f with readBuf := f.readBuf ++ f.rest.take n, rest := f.rest.drop n, readDone := n = 0 }
  else none

/-- The outer loop behind its read; there is no file any more when all is sent. -/
def swap (f : SendFile) : Option SendFile :=
  if f.readDone = true ∧ f.readBuf = [] then none
  else some { f with writeBuf := f.readBuf, readBuf := [], blocked := none, place := .write }

/-- The size of the next write: that of the one that would have blocked, or up to half of the buffer of the socket. -/
def admits (f : SendFile) (writeSize : Nat) : Bool :=
  match f.blocked with
  | some n => writeSize = n
  | none => writeSize ≤ min (sockSize / 2) f.writeBuf.length

/-- One step of `threadSendFile`, if the outcome is possible; behind the last one there is no file. -/
def step (f : SendFile) (o : Outcome) : Option (Option SendFile) :=
  match f.place, o with
  | .fill, .read n => if f.readable bufSize then (f.read (bufSize - f.readBuf.length) n).map swap else none
  | .fill, .go => if f.readable bufSize then none else some f.swap
  | .write, .go => if f.writeBuf = [] then some (some { f with place := .fill }) else none
  | .write, .wrote writeSize n =>
    if f.writeBuf ≠ [] ∧ f.admits sockSize writeSize ∧ n ≤ writeSize then
      some (some { f with sent := f.sent ++ f.writeBuf.take n, writeBuf := f.writeBuf.drop n, blocked := none })
    else none
  | .write, .wouldBlock writeSize =>
    if f.writeBuf ≠ [] ∧ f.admits sockSize writeSize then some (some { f with blocked := some writeSize, place := .ahead })
    else none
  | .ahead, .read n =>
    if f.readable bufSize then
      (f.read (min (bufSize - f.readBuf.length) (bufSize / 2)) n).map fun f => some { f with place := .write }
    else none
  | .ahead, .go => if f.readable bufSize then none else some (some { f with place := .write })
  | _, _ => none

/-- All that the stream had. -/
def stream (f : SendFile) : Bytes := f.sent ++ f.writeBuf ++ f.readBuf ++ f.rest

end SendFile

/-- What the thread is at. -/
inductive Worker where
  | idle
  | data (done : Nat)
  | file (f : SendFile)
  | ended
deriving DecidableEq

/-- A part of what is handed over, or of what goes out: some data, or a file. -/
inductive Piece where
  | data (d : Bytes)
  | file (d : Bytes)
deriving DecidableEq

/-- The socket; `wire` has gone out before what the thread is at. -/
structure Sender where
  sock : Bool
  state : State
  disconnecting : Bool
  tasks : List Tasks
  writeBuf : Bytes
  sendBuf : Bytes
  worker : Worker
  wire : List Piece
deriving DecidableEq

/-- The calls of other threads, and what happens in the thread of the socket. -/
inductive Event where
  | connect
  | accept
  | write (aBuf : Bytes)
  | transmitFile (stream : Bytes)
  | disconnect (graceless : Bool)
  | shutdown
  | callAsync
  | task (connects : Bool)
  | sent (n : Nat)
  | file (o : Outcome)
  | fails
deriving DecidableEq

def start : Sender := ⟨false, .STARTING, false, [], [], [], .idle, []⟩

def addTask (s : Sender) (t : Tasks) : Sender := { s with tasks := s.tasks ++ [t] }

def write (s : Sender) (aBuf : Bytes) : Sender :=
  if s.sock then
    let s := if s.writeBuf = [] then addTask s .SEND_DATA else s
    { s with writeBuf := s.writeBuf ++ aBuf }
  else s

/-- What has gone out of what the thread is at. -/
def going (s : Sender) : List Piece :=
  match s.worker with
  | .data done => [.data (s.sendBuf.take done)]
  | .file f => [.file f.sent]
  | _ => []

/-- The thread leaves what it is at. -/
def leave (s : Sender) : Sender := { s with wire := s.wire ++ going s, worker := .idle }

def fail (s : Sender) : Sender := { leave s with state := .FAILED }

/-- `threadSendData` up to its loop; `sendBuf` is what an earlier call has left there. -/
def threadSendData (s : Sender) : Sender :=
  if s.writeBuf = [] then s else { s with writeBuf := s.sendBuf, sendBuf := s.writeBuf, worker := .data 0 }

/-- `threadSendFile` up to its loop. -/
def threadSendFile (s : Sender) (stream : Bytes) : Sender :=
  if s.disconnecting then s else { s with worker := .file (.begin stream) }

/-- A task that was taken from the queue by `checkEvents`. -/
def checkEvents (s : Sender) (connects : Bool) : Tasks → Sender
  | .SHUTDOWN => { s with worker := .ended }
  | .ASYNC_CALL => s
  | t =>
    match s.state, t with
    | .STARTING, .CONNECT | .STARTING, .ACCEPTED => if connects then { s with state := .RUNNING } else fail s
    | .RUNNING, .SEND_DATA => threadSendData s
    | .RUNNING, .SEND_FILE stream => threadSendFile s stream
    | .RUNNING, .DISCONNECT => fail s
    | _, _ => s

/-- The loop of `threadSendData`. -/
def sendData (s : Sender) (done n : Nat) : Option Sender :=
  if s.disconnecting then some (leave s)
  else if done + n ≤ s.sendBuf.length then
    if done + n = s.sendBuf.length then
      some { s with wire := s.wire ++ [.data s.sendBuf], sendBuf := [], worker := .idle }
    else some { s with worker := .data (done + n) }
  else none

/-- The loops of `threadSendFile`, which are left when the socket is to be closed, except to read ahead. -/
def sendFile (bufSize sockSize : Nat) (s : Sender) (f : SendFile) (o : Outcome) : Option Sender :=
  if s.disconnecting ∧ ¬(f.place = .ahead ∧ f.readable bufSize) then some (leave s)
  else
    (f.step bufSize sockSize o).map fun r =>
      match r with
      | some f => { s with worker := .file f }
      | none => leave s

/-- `bufSize` and `sockSize` are the sizes of the buffers of the file and of the socket; `addTask` asserts that there is a
socket. -/
def step (bufSize sockSize : Nat) (s : Sender) : Event → Option Sender
  | .connect => if s.sock then none else some (addTask { s with sock := true } .CONNECT)
  | .accept => if s.sock then none else some (addTask { s with sock := true } .ACCEPTED)
  | .write aBuf => some (write s aBuf)
  | .transmitFile stream => if s.sock then some (addTask s (.SEND_FILE stream)) else none
  | .disconnect graceless => some (addTask { s with disconnecting := s.disconnecting || graceless } .DISCONNECT)
  | .shutdown => some (addTask { s with disconnecting := true } .SHUTDOWN)
  | .callAsync => if s.sock then some (addTask s .ASYNC_CALL) else none
  | .task connects =>
    match s.worker, s.tasks with
    | .idle, t :: tasks => some (checkEvents { s with tasks } connects t)
    | _, _ => none
  | .sent n =>
    match s.worker with
    | .data done => sendData s done n
    | _ => none
  | .file o =>
    match s.worker with
    | .file f => sendFile bufSize sockSize s f o
    | _ => none
  | .fails => if s.state = .RUNNING ∧ s.worker ≠ .ended then some (fail s) else none

end Dcpp.SocketSending
