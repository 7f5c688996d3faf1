import Dcpp.Bytes
import Dcpp.Library.Runs

namespace Dcpp.UploadManager

/-- The request has passed the checks that need no slot; `tFile` is what is shown while it waits. -/
structure Request where
  tFile : Bytes
  miniSlot : Bool
deriving DecidableEq

/-- What the thread of a connection does next. In `prepare`, `free` tells that the full slot was given
for no other reason than that one was free; the decrements of `removeConnection`, which takes no lock,
read a counter and then write it. -/
inductive Place where
  | idle
  | askReserved (r : Request)
  | askFree (r : Request) (hasReserved : Bool)
  | choose (r : Request) (admitted hasFreeSlot : Bool)
  | refused (r : Request)
  | prepare (extraSlot gotFullSlot free : Bool)
  | removing
  | decrement (running : Int)
  | removingExtra
  | decrementExtra (extra : Int)
  | removed
deriving DecidableEq

/-- The flags are fields; `free` is set with `hasSlot` when the slot was given because one was free. -/
structure UserConnection (U : Type) where
  user : U
  op : Bool
  supportsMiniSlots : Bool
  hasSlot : Bool
  hasExtraSlot : Bool
  free : Bool
  place : Place
deriving DecidableEq

structure Settings where
  SLOTS : Int
  MAX_EXTRA_SLOTS : Int

/-- A connection is known by its index, also in `uploads`. -/
structure State (U : Type) where
  connections : List (UserConnection U)
  uploads : List Nat
  running : Int
  extra : Int
  reservedSlots : List U
  connectingUsers : List (U × Nat)
  waitingUsers : List U
  waitingFiles : List (U × List Bytes)
deriving DecidableEq

/-- What the rest of the client answers: the favorites, the upload speed and the clock for an automatic
slot, and whether the file could be opened. -/
structure Answers where
  isFavorite : Bool
  autoSlot : Bool
  prepared : Bool
deriving DecidableEq

section

variable {U : Type} [DecidableEq U]

def getFreeSlots (settings : Settings) (s : State U) : Int := max (settings.SLOTS - s.running) 0

def getFreeExtraSlots (settings : Settings) (s : State U) : Int :=
  max (max settings.MAX_EXTRA_SLOTS 1 - s.extra) 0

def isConnecting (aUser : U) (s : State U) : Bool := s.connectingUsers.any fun i => i.1 = aUser

def hasReservedSlot (user : U) (s : State U) : Bool := s.reservedSlots.contains user

def hasFreeSlot (settings : Settings) (user : U) (s : State U) : Bool :=
  getFreeSlots settings s > 0 &&
    ((s.waitingFiles.isEmpty && s.connectingUsers.isEmpty) || isConnecting user s)

def setConnection (i : Nat) (c : UserConnection U) (s : State U) : State U :=
  { s with connections := s.connections.set i c }

def reserveSlot (aUser : U) (s : State U) : State U :=
  { s with reservedSlots := if s.reservedSlots.contains aUser then s.reservedSlots else aUser :: s.reservedSlots }

/-- A `set` of file names under each user. -/
def insertFile (user : U) (filename : Bytes) : List (U × List Bytes) → List (U × List Bytes)
  | [] => [(user, [filename])]
  | i :: files =>
    if i.1 = user then (user, if i.2.contains filename then i.2 else filename :: i.2) :: files
    else i :: insertFile user filename files

def addFailedUpload (user : U) (filename : Bytes) (s : State U) : State U :=
  { s with
    waitingUsers := if s.waitingUsers.contains user then s.waitingUsers else s.waitingUsers ++ [user]
    waitingFiles := insertFile user filename s.waitingFiles }

def clearUserFiles (source : U) (s : State U) : State U :=
  if s.waitingUsers.contains source then
    { s with
      waitingFiles := s.waitingFiles.filter fun i => i.1 ≠ source
      waitingUsers := s.waitingUsers.erase source }
  else s

def removeUpload (i : Nat) (s : State U) : State U := { s with uploads := s.uploads.filter fun j => j ≠ i }

/-- The choice of a slot for a connection that has none. -/
def chooseSlot (settings : Settings) (r : Request) (admitted hasFreeSlot autoSlot : Bool)
    (aSource : UserConnection U) (s : State U) : Place :=
  if !(admitted || autoSlot || hasFreeSlot) then
    let allowedMini := aSource.hasExtraSlot || aSource.op || getFreeExtraSlots settings s > 0
    if r.miniSlot && aSource.supportsMiniSlots && allowedMini then .prepare true false false else .refused r
  else .prepare false true !(admitted || autoSlot)

/-- The flags and the counters when a connection gains a slot. -/
def gainSlot (i : Nat) (aSource : UserConnection U) (extraSlot free : Bool) (s : State U) : State U :=
  if extraSlot then
    if aSource.hasExtraSlot then setConnection i { aSource with place := .idle } s
    else { setConnection i { aSource with hasExtraSlot := true, place := .idle } s with extra := s.extra + 1 }
  else
    { setConnection i { aSource with hasSlot := true, hasExtraSlot := false, free := free, place := .idle } s with
      extra := if aSource.hasExtraSlot then s.extra - 1 else s.extra
      running := s.running + 1 }

/-- A user with a slot has none reserved, and one with a full slot neither waits nor connects. -/
def dropUser (user : U) (gotFullSlot : Bool) (s : State U) : State U :=
  let s := { s with reservedSlots := s.reservedSlots.erase user }
  if gotFullSlot then
    let s := clearUserFiles user s
    { s with connectingUsers := s.connectingUsers.filter fun i => i.1 ≠ user }
  else s

/-- The section that starts the upload and updates the slots. -/
def startUpload (i : Nat) (aSource : UserConnection U) (extraSlot gotFullSlot free : Bool) (s : State U) : State U :=
  let s := { s with uploads := s.uploads ++ [i] }
  if aSource.hasSlot then setConnection i { aSource with place := .idle } s
  else dropUser aSource.user gotFullSlot (gainSlot i aSource extraSlot free s)

/-- The next step of the thread of a connection, which is a section under the lock or takes none. -/
def proceed (settings : Settings) (i : Nat) (a : Answers) (c : UserConnection U) (s : State U) : Option (State U) :=
  match c.place with
  | .idle => none
  | .askReserved r => some (setConnection i { c with place := .askFree r (hasReservedSlot c.user s) } s)
  | .askFree r hasReserved =>
    some (setConnection i
      { c with place := .choose r (hasReserved || a.isFavorite) (hasFreeSlot settings c.user s) } s)
  | .choose r admitted hasFree =>
    some (setConnection i { c with place := chooseSlot settings r admitted hasFree a.autoSlot c s } s)
  | .refused r => some (addFailedUpload c.user r.tFile (setConnection i { c with place := .idle } s))
  | .prepare extraSlot gotFullSlot free =>
    some (if a.prepared then startUpload i c extraSlot gotFullSlot free s
      else setConnection i { c with place := .idle } s)
  | .removing =>
    some (setConnection i { c with place := if c.hasSlot then .decrement s.running else .removingExtra } s)
  | .decrement running =>
    some { setConnection i { c with hasSlot := false, free := false, place := .removingExtra } s with
      running := running - 1 }
  | .removingExtra =>
    some (setConnection i { c with place := if c.hasExtraSlot then .decrementExtra s.extra else .removed } s)
  | .decrementExtra extra =>
    some { setConnection i { c with hasExtraSlot := false, place := .removed } s with extra := extra - 1 }
  | .removed => none

/-- The connecting list keeps the users that are told, until they ask for a file. -/
def notifyLoop (isOnline : U → Bool) (tick : Nat) : List U → Int → State U → State U
  | [], _, s => s
  | wu :: waiting, freeslots, s =>
    if freeslots > 0 then
      let s := clearUserFiles wu s
      if isOnline wu then
        notifyLoop isOnline tick waiting (freeslots - 1)
          { s with connectingUsers := (s.connectingUsers.filter fun i => i.1 ≠ wu) ++ [(wu, tick)] }
      else notifyLoop isOnline tick waiting freeslots s
    else s

def notifyQueuedUsers (settings : Settings) (isOnline : U → Bool) (tick : Nat) (s : State U) : State U :=
  let freeslots := getFreeSlots settings s
  if freeslots > 0 then
    notifyLoop isOnline tick s.waitingUsers (freeslots - s.connectingUsers.length) s
  else s

def expire (aTick : Nat) : List (U × Nat) → State U → State U
  | [], s => s
  | i :: connecting, s =>
    if i.2 + 90 * 1000 < aTick then
      let s := clearUserFiles i.1 s
      expire aTick connecting { s with connectingUsers := s.connectingUsers.filter fun j => j.1 ≠ i.1 }
    else expire aTick connecting s

inductive Event (U : Type) where
  | addConnection (user : U) (op supportsMiniSlots : Bool)
  | request (i : Nat) (r : Request)
  | proceed (i : Nat) (a : Answers)
  | transmitDone (i : Nat)
  | failed (i : Nat)
  | reserveSlot (aUser : U)
  | second (isOnline : U → Bool) (tick : Nat)
  | minute (aTick : Nat)
  | userDisconnected (aUser : U)

/-- A connection asks for a file when it sends none; it has its slot already or is to get one. -/
def request (i : Nat) (r : Request) (c : UserConnection U) (s : State U) : Option (State U) :=
  if c.place = .idle ∧ i ∉ s.uploads then
    some (setConnection i { c with place := if c.hasSlot then .prepare false false false else .askReserved r } s)
  else none

def transmitDone (i : Nat) (c : UserConnection U) (s : State U) : Option (State U) :=
  if c.place = .idle ∧ i ∈ s.uploads then some (removeUpload i s) else none

def failed (i : Nat) (c : UserConnection U) (s : State U) : Option (State U) :=
  if c.place = .idle then some (removeUpload i (setConnection i { c with place := .removing } s)) else none

def step (settings : Settings) (s : State U) : Event U → Option (State U)
  | .addConnection user op supportsMiniSlots =>
    some { s with connections := s.connections ++ [⟨user, op, supportsMiniSlots, false, false, false, .idle⟩] }
  | .request i r => s.connections[i]?.bind fun c => request i r c s
  | .proceed i a => s.connections[i]?.bind fun c => proceed settings i a c s
  | .transmitDone i => s.connections[i]?.bind fun c => transmitDone i c s
  | .failed i => s.connections[i]?.bind fun c => failed i c s
  | .reserveSlot aUser => some (reserveSlot aUser s)
  | .second isOnline tick => some (notifyQueuedUsers settings isOnline tick s)
  | .minute aTick => some (expire aTick s.connectingUsers s)
  | .userDisconnected aUser => some (clearUserFiles aUser s)

def start : State U := ⟨[], [], 0, 0, [], [], [], []⟩

def run (settings : Settings) (events : List (Event U)) : Option (State U) :=
  Runs.run (step settings) start events

end

end Dcpp.UploadManager
