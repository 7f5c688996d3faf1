import Dcpp.ItemProgress
import Dcpp.Library.Index

namespace Dcpp

/-- The settings of the queue, and `key`, the form of a target that decides whether two targets are
the same without regard to case. -/
structure Settings where
  segments : SegmentSettings
  key : Bytes → Bytes
  keepFinishedFiles : Bool
  dontDlAlreadyQueued : Bool
  prioHighestSize : Int
  prioHighSize : Int
  prioNormalSize : Int
  prioLowSize : Int
  prioLowest : Bool

/-- The state of the `QueueManager`. The items of `fileQueue` are those that have an address; the
map `userQueue` has an entry where a list is not empty. -/
structure QueueState (U V : Type) where
  item : Nat → Option (QueueItem U V)
  nextId : Nat
  userQueue : Priority × U → List Nat
  running : U → Option Nat
  /-- The downloads that have not been put back. -/
  live : List (Download U)
  /-- The users that the `ConnectionManager` was asked to disconnect. -/
  disconnected : List U

namespace QueueState

variable {U V : Type}

def setItem (s : QueueState U V) (a : Nat) (q : QueueItem U V) : QueueState U V :=
  { s with item := Function.update s.item a (some q) }

def deleteItem (s : QueueState U V) (a : Nat) : QueueState U V :=
  { s with item := Function.update s.item a none }

def disconnect (s : QueueState U V) (users : List U) : QueueState U V :=
  { s with disconnected := s.disconnected ++ users }

/-- `FileQueue::find`. -/
def find (c : Settings) (s : QueueState U V) (target : Bytes) : Option Nat :=
  (List.range s.nextId).find? fun a => (s.item a).any fun q => c.key q.target == c.key target

/-- `FileQueue::find`, for a root. -/
def findRoot [DecidableEq V] (s : QueueState U V) (tth : V) : List Nat :=
  (List.range s.nextId).filter fun a => (s.item a).any fun q => decide (q.tthRoot = tth)

def empty : QueueState U V := ⟨fun _ => none, 0, fun _ => [], fun _ => none, [], []⟩

end QueueState

-- The functions of the `UserQueue` are undefined where they follow a pointer to an item that is
-- gone, leave the array of priorities or erase an entry that is not there.
namespace UserQueue

open QueueState

variable {U V : Type} [DecidableEq U]

def add (s : QueueState U V) (a : Nat) (aUser : U) : Option (QueueState U V) :=
  match s.item a with
  | none => none
  | some qi =>
    if qi.priority.isIndex then
      let l := s.userQueue (qi.priority, aUser)
      some { s with
        userQueue := Function.update s.userQueue (qi.priority, aUser)
          (if 0 < qi.getDownloadedBytes then a :: l else l ++ [a]) }
    else none

def addUsers (s : QueueState U V) (a : Nat) : List U → Option (QueueState U V)
  | [] => some s
  | u :: users => (add s a u).bind fun s => addUsers s a users

/-- `add(QueueItem*)`, for all sources. -/
def addAll (s : QueueState U V) (a : Nat) : Option (QueueState U V) :=
  match s.item a with
  | none => none
  | some qi => addUsers s a qi.users

def removeDownload (s : QueueState U V) (a : Nat) (user : U) : Option (QueueState U V) :=
  match s.item a with
  | none => none
  | some qi =>
    some { s.setItem a { qi with downloads := qi.downloads.eraseP fun d => decide (d.user = user) } with
      running := Function.update s.running user none }

def remove (s : QueueState U V) (a : Nat) (aUser : U) (removeRunning : Bool) :
    Option (QueueState U V) :=
  (if removeRunning && s.running aUser == some a then removeDownload s a aUser else some s).bind
    fun s =>
      match s.item a with
      | none => none
      | some qi =>
        if qi.priority.isIndex && decide (a ∈ s.userQueue (qi.priority, aUser)) then
          some { s with
            userQueue := Function.update s.userQueue (qi.priority, aUser)
              ((s.userQueue (qi.priority, aUser)).erase a) }
        else none

def removeUsers (s : QueueState U V) (a : Nat) (removeRunning : Bool) :
    List U → Option (QueueState U V)
  | [] => some s
  | u :: users => (remove s a u removeRunning).bind fun s => removeUsers s a removeRunning users

/-- `remove(QueueItem*)`, for all sources. -/
def removeAll (s : QueueState U V) (a : Nat) (removeRunning : Bool) : Option (QueueState U V) :=
  match s.item a with
  | none => none
  | some qi => removeUsers s a removeRunning qi.users

/-- Whether `getNext` returns an item that it comes to; `blockSize` is what
`HashManager::getBlockSize` says of its root. -/
def eligible (c : SegmentSettings) (qi : QueueItem U V) (blockSize wantedSize : Int) : Bool :=
  match qi.downloads with
  | [] => true
  | first :: _ =>
    if first.type = .TYPE_TREE then false
    else qi.isSet QueueItem.FLAG_USER_LIST ||
      (qi.getNextSegment c (if blockSize = 0 then qi.size else blockSize) wantedSize).getSize != 0

def firstEligible (c : SegmentSettings) (blockSizeOf : V → Int) (wantedSize : Int)
    (s : QueueState U V) : List Nat → Option (Option Nat)
  | [] => some none
  | a :: l =>
    match s.item a with
    | none => none
    | some qi =>
      if eligible c qi (blockSizeOf qi.tthRoot) wantedSize then some (some a)
      else firstEligible c blockSizeOf wantedSize s l

/-- The user's entries in the order in which `getNext` goes through them. -/
def entries (s : QueueState U V) (aUser : U) (minPrio : Priority) : List Nat :=
  (Priority.descending.filter fun p => decide (minPrio.toInt ≤ p.toInt)).flatMap
    fun p => s.userQueue (p, aUser)

def getNext (c : SegmentSettings) (blockSizeOf : V → Int) (s : QueueState U V) (aUser : U)
    (minPrio : Priority) (wantedSize : Int) : Option (Option Nat) :=
  firstEligible c blockSizeOf wantedSize s (entries s aUser minPrio)

def addDownload (s : QueueState U V) (a : Nat) (d : Download U) : Option (QueueState U V) :=
  match s.item a with
  | none => none
  | some qi =>
    some { s.setItem a { qi with downloads := qi.downloads ++ [d] } with
      running := Function.update s.running d.user (some a) }

def setPriority (s : QueueState U V) (a : Nat) (p : Priority) : Option (QueueState U V) :=
  (removeAll s a false).bind fun s =>
    match s.item a with
    | none => none
    | some qi => addAll (s.setItem a { qi with priority := p }) a

end UserQueue

end Dcpp
