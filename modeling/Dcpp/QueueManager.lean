import Dcpp.UserQueue

namespace Dcpp

namespace QueueItem

variable {U V : Type} [DecidableEq U]

/-- `getTempTarget`; `temp` is the name that the settings give the item's temporary file, or empty. -/
def chooseTempTarget (q : QueueItem U V) (temp : Bytes) : QueueItem U V :=
  if q.isSet FLAG_USER_LIST = false ∧ q.tempTarget = [] then { q with tempTarget := temp } else q

def flagSource (q : QueueItem U V) (aUser : U) (reason : Flags) : QueueItem U V :=
  { q with sources := q.sources.map fun i =>
      if i.user.user = aUser then { i with flags := i.flags.setFlag reason } else i }

end QueueItem

namespace QueueManager

open QueueState QueueItem

variable {U V : Type} [DecidableEq U] [DecidableEq V]

/-- The priority that `FileQueue::add` chooses for `DEFAULT`. -/
def defaultPriority (c : Settings) (aSize : Int) (aFlags : Flags) : Priority :=
  if aFlags.isSet FLAG_USER_LIST then .HIGHEST
  else if aSize ≤ c.prioHighestSize * 1024 then .HIGHEST
  else if aSize ≤ c.prioHighSize * 1024 then .HIGH
  else if aSize ≤ c.prioNormalSize * 1024 then .NORMAL
  else if aSize ≤ c.prioLowSize * 1024 then .LOW
  else if c.prioLowest then .LOWEST
  else .NORMAL

/-- The second component says whether the source was accepted, or else an exception thrown; `passive`
that neither the user nor this client is active. -/
def addSource (s : QueueState U V) (qi : Nat) (aUser : HintedUser U) (addBad : Flags) (passive : Bool) :
    Option (QueueState U V × Bool) :=
  match s.item qi with
  | none => none
  | some q =>
    if q.isSource aUser.user then some (s, q.isSet FLAG_USER_LIST)
    else if q.isBadSourceExcept aUser.user addBad then some (s, false)
    else
      let q := q.addSource aUser
      if passive then
        (q.removeSource aUser.user Source.FLAG_PASSIVE).map fun q => (s.setItem qi q, true)
      else if q.isFinished then some (s.setItem qi q, true)
      else (UserQueue.add (s.setItem qi q) qi aUser.user).map fun s => (s, true)

/-- An entry of `add`, after `checkTarget`. -/
structure NewFile (U V : Type) where
  target : Bytes
  tempTarget : Bytes
  size : Int
  root : V
  user : HintedUser U
  flags : Flags
  addBad : Bool
  added : Int

def NewFile.mask (f : NewFile U V) : Flags := if f.addBad then Source.FLAG_MASK else 0

/-- The loop of `add` over the items with the same root: whether a source was added, and
whether one of them is permanent. -/
def addToSame (passive : U → Bool) (f : NewFile U V) :
    List Nat → QueueState U V → Bool → Bool → Option (QueueState U V × Bool × Bool)
  | [], s, sourceAdded, permanentExists => some (s, sourceAdded, permanentExists)
  | i :: ql, s, sourceAdded, permanentExists =>
    match s.item i with
    | none => none
    | some q =>
      let permanentExists := permanentExists || !q.isSet FLAG_CLIENT_VIEW
      if q.isSource f.user.user then addToSame passive f ql s sourceAdded permanentExists
      else (addSource s i f.user f.mask (passive f.user.user)).bind fun r =>
        addToSame passive f ql r.1 (sourceAdded || r.2) permanentExists

/-- The end of `add`: a new item, or a source for the one that has the target. -/
def addItem (c : Settings) (passive : U → Bool) (s : QueueState U V) (f : NewFile U V) :
    Option (QueueState U V) :=
  match s.find c f.target with
  | none =>
    let q : QueueItem U V :=
      { flags := f.flags, target := f.target, size := f.size,
        priority := defaultPriority c f.size f.flags, added := f.added, tthRoot := f.root,
        tempTarget := f.tempTarget, sources := [], badSources := [], done := [], downloads := [] }
    (addSource { s.setItem s.nextId q with nextId := s.nextId + 1 } s.nextId f.user f.mask
      (passive f.user.user)).map Prod.fst
  | some a =>
    match s.item a with
    | none => none
    | some q =>
      if q.size ≠ f.size ∨ q.tthRoot ≠ f.root ∨ q.isFinished then some s
      else
        (addSource (s.setItem a { q with flags := q.flags.setFlag f.flags }) a f.user f.mask
          (passive f.user.user)).map Prod.fst

/-- `add`; an empty file is created at once and not queued. -/
def add (c : Settings) (passive : U → Bool) (s : QueueState U V) (f : NewFile U V) :
    Option (QueueState U V) :=
  if f.size = 0 then some s
  else if c.dontDlAlreadyQueued && !(f.flags.isAnySet FLAG_USER_LIST || f.flags.isAnySet FLAG_CLIENT_VIEW) then
    (addToSame passive f (s.findRoot f.root) s false false).bind fun r =>
      if r.2.2 then some r.1 else addItem c passive r.1 f
  else addItem c passive s f

def remove (c : Settings) (s : QueueState U V) (aTarget : Bytes) : Option (QueueState U V) :=
  match s.find c aTarget with
  | none => some s
  | some a =>
    match s.item a with
    | none => none
    | some q =>
      -- the directories of the first source are dropped
      if q.isSet FLAG_DIRECTORY_DOWNLOAD && q.sources.isEmpty then none
      else
        (if q.isFinished then some s else UserQueue.removeAll s a true).map fun s =>
          (s.deleteItem a).disconnect (q.downloads.map Download.user)

def MAX_SIZE_WO_TREE : Int := 20 * 1024 * 1024

/-- `removeSource`, of one target. -/
def removeSource (c : Settings) (s : QueueState U V) (aTarget : Bytes) (aUser : U) (reason : Flags)
    (removeConn : Bool) : Option (QueueState U V) :=
  match s.find c aTarget with
  | none => some s
  | some a =>
    match s.item a with
    | none => none
    | some q =>
      if !q.isSource aUser then some s
      else if q.isSet FLAG_USER_LIST then remove c s aTarget
      else
        let noTree := reason == Source.FLAG_NO_TREE
        let s := if noTree then s.setItem a (q.flagSource aUser reason) else s
        if noTree && decide (q.size < MAX_SIZE_WO_TREE) then some s
        else
          let isRunning := q.isRunning && s.running aUser == some a
          (if isRunning then UserQueue.removeDownload s a aUser else some s).bind fun s =>
          (if q.isFinished then some s else UserQueue.remove s a aUser true).bind fun s =>
            match s.item a with
            | none => none
            | some q => (q.removeSource aUser reason).map fun q =>
                (s.setItem a q).disconnect (if isRunning && removeConn then [aUser] else [])

/-- The loop of `removeSource`, of a user, that goes on until `getNext` finds nothing. -/
def removeNext (c : Settings) (blockSizeOf : V → Int) (aUser : U) (reason : Flags) :
    Nat → QueueState U V → Option (QueueState U V)
  | 0, _ => none
  | fuel + 1, s =>
    (UserQueue.getNext c.segments blockSizeOf s aUser .PAUSED 0).bind fun
      | none => some s
      | some a =>
        match s.item a with
        | none => none
        | some qi =>
          if qi.isSet FLAG_USER_LIST then
            (remove c s qi.target).bind (removeNext c blockSizeOf aUser reason fuel)
          else
            (UserQueue.remove s a aUser true).bind fun s =>
              match s.item a with
              | none => none
              | some qi => (qi.removeSource aUser reason).bind fun qi =>
                  removeNext c blockSizeOf aUser reason fuel (s.setItem a qi)

/-- What follows the loop, the item that runs for the user. -/
def removeRunning (c : Settings) (aUser : U) (reason : Flags) (s : QueueState U V) :
    Option (QueueState U V) :=
  match s.running aUser with
  | none => some s
  | some a =>
    match s.item a with
    | none => none
    | some qi =>
      if qi.isSet FLAG_USER_LIST then remove c s qi.target
      else
        (UserQueue.removeDownload s a aUser).bind fun s =>
        (UserQueue.remove s a aUser true).bind fun s =>
          match s.item a with
          | none => none
          | some qi => (qi.removeSource aUser reason).map fun qi =>
              (s.setItem a qi).disconnect [aUser]

/-- `removeSource`, of a user. Every turn of the loop takes an entry of the user away, so it has
enough turns. -/
def removeUser (c : Settings) (blockSizeOf : V → Int) (s : QueueState U V) (aUser : U) (reason : Flags) :
    Option (QueueState U V) :=
  (removeNext c blockSizeOf aUser reason ((UserQueue.entries s aUser .PAUSED).length + 1) s).bind
    (removeRunning c aUser reason)

def setPriority (c : Settings) (s : QueueState U V) (aTarget : Bytes) (p : Priority) :
    Option (QueueState U V) :=
  match s.find c aTarget with
  | none => some s
  | some a =>
    match s.item a with
    | none => none
    | some q =>
      if q.priority ≠ p ∧ q.isFinished = false then
        (UserQueue.setPriority s a p).map fun s =>
          s.disconnect (if p = .PAUSED then q.downloads.map Download.user else [])
      else some s

/-- The loop of `move` that gives the sources to the other item; exceptions are dropped. -/
def moveSources (passive : U → Bool) (qt : Nat) :
    List (Source U) → QueueState U V → Option (QueueState U V)
  | [], s => some s
  | i :: sources, s =>
    (addSource s qt i.user Source.FLAG_MASK (passive i.user.user)).bind fun r =>
      moveSources passive qt sources r.1

/-- `move`; `target` is what `validateFileName` makes of the new target. -/
def move (c : Settings) (passive : U → Bool) (s : QueueState U V) (aSource target : Bytes) :
    Option (QueueState U V) :=
  if aSource = target then some s
  else
    match s.find c aSource with
    | none => some s
    | some a =>
      match s.item a with
      | none => none
      | some qs =>
        if qs.isRunning || qs.isSet FLAG_USER_LIST then some s
        else
          match s.find c target with
          | none => some (s.setItem a { qs with target := target })
          | some b =>
            if c.key aSource = c.key target then some (s.setItem a { qs with target := target })
            else
              match s.item b with
              | none => none
              | some qt =>
                if qs.size ≠ qt.size ∨ qs.tthRoot ≠ qt.tthRoot then some s
                else (moveSources passive b qs.sources s).bind fun s => remove c s aSource

/-- What `getDownload` is told from outside: the chunk size of the connection and whether it supports
trees, what `HashManager::getBlockSize` says of a root and the block size of the tree that
`getTree` then loads, if it can, whether the temporary file is gone, and its name. -/
structure Circumstances (V : Type) where
  chunkSize : Int
  supportsTrees : Bool
  blockSizeOf : V → Int
  tree : Option Int
  tempGone : Bool
  temp : Bytes

def MIN_BLOCK_SIZE : Int := 64 * 1024

/-- The constructor of `Download`. -/
def newDownload (c : Settings) (e : Circumstances V) (id : Nat) (user : U) (qi : QueueItem U V) :
    Option (Download U) :=
  let type : TransferType :=
    if qi.isSet FLAG_PARTIAL_LIST then .TYPE_PARTIAL_LIST
    else if qi.isSet FLAG_USER_LIST then .TYPE_FULL_LIST
    else .TYPE_FILE
  let d : Download U := ⟨id, user, qi.target, type, ⟨0, -1⟩, MerkleTree.baseBlockSize⟩
  if qi.size = -1 then some d
  else
    match e.tree with
    | some blockSize => some { d with
        segment := qi.getNextSegment c.segments blockSize e.chunkSize
        blockSize := blockSize }
    | none =>
      match qi.getSource user with
      | none => if e.supportsTrees then none else some { d with
          segment := qi.getNextSegment c.segments qi.size 0
          blockSize := qi.size }
      | some source =>
        if e.supportsTrees && !source.flags.isSet Source.FLAG_NO_TREE &&
            decide (MIN_BLOCK_SIZE < qi.size) then
          some { d with type := .TYPE_TREE }
        else some { d with
          segment := qi.getNextSegment c.segments qi.size 0
          blockSize := qi.size }

def getDownload (c : Settings) (e : Circumstances V) (s : QueueState U V) (u : U) :
    Option (QueueState U V) :=
  (UserQueue.getNext c.segments e.blockSizeOf s u .LOWEST e.chunkSize).bind fun
    | none => some s
    | some a =>
      match s.item a with
      | none => none
      | some q =>
        let q := if 0 < q.getDownloadedBytes then
            let q := q.chooseTempTarget e.temp
            if e.tempGone then q.resetDownloaded else q
          else q
        let q := q.chooseTempTarget e.temp
        (newDownload c e s.nextId u q).bind fun d =>
          UserQueue.addDownload { s.setItem a q with
            nextId := s.nextId + 1
            live := s.live ++ [d] } a d

/-- The sources that a failed check of the checksum takes away. -/
def removeSources (c : Settings) (aTarget : Bytes) (reason : Flags) :
    List U → QueueState U V → Option (QueueState U V)
  | [], s => some s
  | u :: users, s =>
    (removeSource c s aTarget u reason false).bind (removeSources c aTarget reason users)

/-- What `checkSfv` does when the checksum is wrong. -/
def crcFailed (c : Settings) (s : QueueState U V) (a : Nat) : Option (QueueState U V) :=
  match s.item a with
  | none => none
  | some q =>
    (setPriority c (s.setItem a q.resetDownloaded) q.target .PAUSED).bind fun s =>
      match s.item a with
      | none => none
      | some q =>
        removeSources c q.target Source.FLAG_CRC_FAILED q.users s

def putFailed (s : QueueState U V) (a : Nat) (q : QueueItem U V) (d : Download U) (pos : Int) :
    Option (QueueState U V) :=
  let q := if d.type ≠ .TYPE_TREE ∧ q.getDownloadedBytes = 0 then { q with tempTarget := [] } else q
  let q := if d.type = .TYPE_FILE then q.putUnfinished d pos else q
  UserQueue.removeDownload (s.setItem a q) a d.user

/-- A finished download of a file; `crcOk` is what `checkSfv` finds, if there is a checksum. -/
def putFile (c : Settings) (s : QueueState U V) (a : Nat) (q : QueueItem U V) (d : Download U)
    (crcOk : Bool) : Option (QueueState U V) :=
  let q := q.addSegment d.segment
  let s := s.setItem a q
  (if q.isFinished && !crcOk then crcFailed c s a else some s).bind fun s =>
    match s.item a with
    | none => none
    | some q =>
      if q.isFinished then
        (UserQueue.removeAll s a true).map fun s => if c.keepFinishedFiles then s else s.deleteItem a
      else UserQueue.removeDownload s a d.user

def putFinished (c : Settings) (s : QueueState U V) (a : Nat) (q : QueueItem U V) (d : Download U)
    (crcOk : Bool) : Option (QueueState U V) :=
  match d.type with
  | .TYPE_PARTIAL_LIST => (UserQueue.removeAll s a true).map fun s => s.deleteItem a
  | .TYPE_TREE => UserQueue.removeDownload s a d.user
  | .TYPE_FULL_LIST =>
    (UserQueue.removeAll (s.setItem a (q.addSegment ⟨0, q.size⟩)) a true).map fun s => s.deleteItem a
  | .TYPE_FILE => putFile c s a q d crcOk

/-- `putDownload`; the download is deleted in any case. -/
def putDownload (c : Settings) (s : QueueState U V) (id : Nat) (pos : Int) (finished crcOk : Bool) :
    Option (QueueState U V) :=
  match s.live.find? fun d => d.id == id with
  | none => some s
  | some d =>
    let s := { s with live := s.live.eraseP fun d => d.id == id }
    match s.find c d.path with
    | none => some s
    | some a =>
      match s.item a with
      | none => none
      | some q => if finished then putFinished c s a q d crcOk else putFailed s a q d pos

/-- The section of the `Rechecker` before it reads the file. -/
def recheckReset (c : Settings) (s : QueueState U V) (file temp : Bytes) : Option (QueueState U V) :=
  match s.find c file with
  | none => some s
  | some a =>
    match s.item a with
    | none => none
    | some q => some (s.setItem a (q.resetDownloaded.chooseTempTarget temp))

def moveStuckFile (c : Settings) (s : QueueState U V) (a : Nat) (q : QueueItem U V) (temp : Bytes) :
    Option (QueueState U V) :=
  let q := q.chooseTempTarget temp
  let s := s.setItem a q
  (if q.isFinished then UserQueue.removeAll s a true else some s).map fun s =>
    if c.keepFinishedFiles then
      match s.item a with
      | none => s
      | some q => s.setItem a (q.addSegment ⟨0, q.size⟩)
    else s.deleteItem a

/-- The section of the `Rechecker` after it has read the file. -/
def rechecked (c : Settings) (s : QueueState U V) (file temp : Bytes) (tth : V)
    (tt ttFile : MerkleTree V) : Option (QueueState U V) :=
  match s.find c file with
  | none => some s
  | some a =>
    match s.item a with
    | none => none
    | some q =>
      if ttFile.root = tth then moveStuckFile c s a q temp
      else some (s.setItem a (q.addMatching tt.blockSize 0 tt.leaves ttFile.leaves))

/-- The operations, and the sections of the `Rechecker` that hold the lock. The first of them
reads the item only, and may choose its temporary target. -/
inductive Event (U V : Type) where
  | add (f : NewFile U V)
  | addSource (aTarget : Bytes) (aUser : HintedUser U) (addBad : Flags)
  | removeSource (aTarget : Bytes) (aUser : U) (reason : Flags) (removeConn : Bool)
  | removeUser (blockSizeOf : V → Int) (aUser : U) (reason : Flags)
  | setPriority (aTarget : Bytes) (p : Priority)
  | move (aSource target : Bytes)
  | remove (aTarget : Bytes)
  | getDownload (e : Circumstances V) (u : U)
  | putDownload (id : Nat) (pos : Int) (finished crcOk : Bool)
  | recheckStart (file temp : Bytes)
  | recheckReset (file temp : Bytes)
  | rechecked (file temp : Bytes) (tth : V) (tt ttFile : MerkleTree V)

def step (c : Settings) (passive : U → Bool) (s : QueueState U V) : Event U V → Option (QueueState U V)
  | .add f => add c passive s f
  | .addSource aTarget aUser addBad =>
    match s.find c aTarget with
    | none => some s
    | some a => (addSource s a aUser addBad (passive aUser.user)).map Prod.fst
  | .removeSource aTarget aUser reason removeConn => removeSource c s aTarget aUser reason removeConn
  | .removeUser blockSizeOf aUser reason => removeUser c blockSizeOf s aUser reason
  | .setPriority aTarget p => setPriority c s aTarget p
  | .move aSource target => move c passive s aSource target
  | .remove aTarget => remove c s aTarget
  | .getDownload e u => getDownload c e s u
  | .putDownload id pos finished crcOk => putDownload c s id pos finished crcOk
  | .recheckStart file temp =>
    match s.find c file with
    | none => some s
    | some a => (s.item a).map fun q => s.setItem a (q.chooseTempTarget temp)
  | .recheckReset file temp => recheckReset c s file temp
  | .rechecked file temp tth tt ttFile => rechecked c s file temp tth tt ttFile

/-- `none` stands for a run in which something undefined has happened. -/
def run (c : Settings) (passive : U → Bool) (s : QueueState U V) (events : List (Event U V)) :
    Option (QueueState U V) :=
  events.foldlM (step c passive) s

end QueueManager

end Dcpp
