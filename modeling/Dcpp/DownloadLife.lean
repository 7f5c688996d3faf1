import Dcpp.QueueTransfers

-- The life of a `Download`, from its request until the `DownloadManager` puts it back.
namespace Dcpp.DownloadLife

open QueueState QueueConsistent QueueInvariant QueueChanges QueueTransfers

variable {U V : Type} [DecidableEq U] [DecidableEq V]

/-- `STATE_KEY` stands for all states of a connection that no download was requested on. -/
inductive ConnectionState where
  | STATE_KEY | STATE_IDLE | STATE_SND | STATE_RUNNING
deriving DecidableEq

/-- A `UserConnection`; it is `listening` while the `DownloadManager` is among its listeners. -/
structure UserConnection (U : Type) where
  user : U
  state : ConnectionState
  listening : Bool
  dataMode : Bool
  download : Option Nat

/-- The state of the `DownloadManager` and what it works on. `obtained` and `returned` are the downloads
that `getDownload` has returned and those that `putDownload` was given. -/
structure State (U V : Type) where
  queue : QueueState U V
  connection : Nat → Option (UserConnection U)
  nextConnection : Nat
  downloads : List Nat
  idlers : List Nat
  obtained : List Nat
  returned : List Nat

/-- What must not happen: something undefined in the queue, or the use of a download that is not there
or that was deleted. -/
inductive Fault where
  | undefined | null | deleted
deriving DecidableEq

structure DownloadSettings where
  queue : Settings
  downloadSlots : Nat
  maxDownloadSpeed : Nat

/-- What `checkDownloads` is told from outside. -/
structure Request (V : Type) where
  circumstances : QueueManager.Circumstances V
  runningAverage : Nat

/-- How the end of the data turns out: the position of the download, whether `flush` succeeds, whether
the tree is the right one and what `checkSfv` finds. -/
structure Ending where
  pos : Int
  flushed : Bool
  rootOk : Bool
  crcOk : Bool

def FLAG_BAD_TREE : Flags := 0x40

/-- `Transfer::names`. -/
def names : TransferType → Bytes
  | .TYPE_FILE => str "file"
  | .TYPE_FULL_LIST => str "file"
  | .TYPE_PARTIAL_LIST => str "list"
  | .TYPE_TREE => str "tthl"

namespace State

def empty : State U V := ⟨QueueState.empty, fun _ => none, 0, [], [], [], []⟩

def modify (s : State U V) (i : Nat) (f : UserConnection U → UserConnection U) : State U V :=
  { s with connection := Function.update s.connection i ((s.connection i).map f) }

/-- The download of a connection, to be used. -/
def getDownload (s : State U V) (i : Nat) : Except Fault (UserConnection U × Download U) :=
  match s.connection i with
  | none => .error .null
  | some x =>
    match x.download with
    | none => .error .null
    | some id =>
      match s.queue.live.find? fun d => d.id == id with
      | none => .error .deleted
      | some d => .ok (x, d)

end State

/-- What is undefined in the queue. -/
def defined {α : Type} : Option α → Except Fault α
  | none => .error .undefined
  | some a => .ok a

def hasDownload (c : Settings) (blockSizeOf : V → Int) (s : QueueState U V) (aUser : U) : Option Priority :=
  (UserQueue.getNext c.segments blockSizeOf s aUser .LOWEST 0).bind fun
    | none => some .PAUSED
    | some a => (s.item a).map QueueItem.priority

def startDownload (c : DownloadSettings) (downloadCount runningAverage : Nat) (prio : Priority) : Bool :=
  if c.downloadSlots ≠ 0 ∧ c.downloadSlots ≤ downloadCount ∨
      c.maxDownloadSpeed ≠ 0 ∧ c.maxDownloadSpeed * 1024 ≤ runningAverage then
    if c.downloadSlots ≠ 0 ∧ c.downloadSlots + 3 ≤ downloadCount then false else prio = .HIGHEST
  else if 0 < downloadCount then prio ≠ .LOWEST
  else true

/-- The connection closes later. -/
def removeConnection (s : State U V) (i : Nat) : State U V := s.modify i fun x => { x with listening := false }

def checkDownloads (c : DownloadSettings) (r : Request V) (s : State U V) (i : Nat) : Except Fault (State U V) :=
  match s.connection i with
  | none => .error .null
  | some x => do
    let prio ← defined (hasDownload c.queue r.circumstances.blockSizeOf s.queue x.user)
    if !startDownload c s.downloads.length r.runningAverage prio then return removeConnection s i
    let queue ← defined (QueueManager.getDownload c.queue r.circumstances s.queue x.user)
    -- a download was made if it has taken an address
    if queue.nextId = s.queue.nextId then
      return { s.modify i fun x => { x with state := .STATE_IDLE } with
        queue := queue
        idlers := s.idlers ++ [i] }
    else
      return { s.modify i fun x => { x with state := .STATE_SND, download := some s.queue.nextId } with
        queue := queue
        downloads := s.downloads ++ [s.queue.nextId]
        obtained := s.obtained ++ [s.queue.nextId] }

def removeDownload (s : State U V) (d : Download U) : State U V :=
  { s with downloads := s.downloads.filter fun id => id ≠ d.id }

/-- `putDownload`, whose end, the destructor of the `Download`, takes the download from its connection. -/
def putDownload (c : DownloadSettings) (s : State U V) (i : Nat) (d : Download U) (pos : Int)
    (finished crcOk : Bool) : Except Fault (State U V) := do
  let queue ← defined (QueueManager.putDownload c.queue s.queue d.id pos finished crcOk)
  return { s.modify i fun x => { x with download := none } with
    queue := queue
    returned := s.returned ++ [d.id] }

def failDownload (c : DownloadSettings) (pos : Int) (s : State U V) (i : Nat) : Except Fault (State U V) :=
  match (s.connection i).bind UserConnection.download with
  | none => return removeConnection s i
  | some _ => do
    let (_, d) ← s.getDownload i
    let s ← putDownload c (removeDownload s d) i d pos false true
    return removeConnection s i

/-- A source is removed before the download is put back, and the next one requested. -/
def dropSource (c : DownloadSettings) (r : Request V) (pos : Int) (reason : Flags) (s : State U V) (i : Nat)
    (x : UserConnection U) (d : Download U) : Except Fault (State U V) := do
  let s := removeDownload s d
  let queue ← defined (QueueManager.removeSource c.queue s.queue d.path x.user reason false)
  let s ← putDownload c { s with queue := queue } i d pos false true
  checkDownloads c r s i

/-- `endData`; `none` when it throws. -/
def endData (c : DownloadSettings) (o : Ending) (r : Request V) (s : State U V) (i : Nat) :
    Except Fault (Option (State U V)) := do
  let (x, d) ← s.getDownload i
  if d.type = .TYPE_TREE ∧ !o.flushed then return none
  else if d.type = .TYPE_TREE ∧ !o.rootOk then some <$> dropSource c r o.pos FLAG_BAD_TREE s i x d
  else if !o.flushed then
    -- the position is reset
    some <$> failDownload c 0 s i
  else do
    let s ← putDownload c (removeDownload s d) i d o.pos true o.crcOk
    some <$> checkDownloads c r s i

/-- The response is about what was requested; the size of a list is not known before. -/
def responseMatches (d : Download U) (start bytes : Int) : Bool :=
  if d.segment.getSize = -1 then decide (0 ≤ bytes)
  else decide (d.segment.getSize = bytes ∧ d.segment.getStart = start)

/-- `startData`; `opened` says that `open` does not throw. -/
def startData (c : DownloadSettings) (opened : Bool) (o : Ending) (r : Request V) (s : State U V) (i : Nat)
    (start bytes : Int) : Except Fault (State U V) := do
  let (_, d) ← s.getDownload i
  if !responseMatches d start bytes then failDownload c 0 s i
  else if !opened then failDownload c 0 s i
  else
    let s := s.modify i fun x => { x with state := .STATE_RUNNING }
    if bytes = 0 then
      match ← endData c o r s i with
      | some s => return s
      | none => failDownload c 0 s i
    else return s.modify i fun x => { x with dataMode := true }

/-- `on(Data)`; `written` says that `write` does not throw, `eof` that the output is complete. -/
def data (c : DownloadSettings) (written eof : Bool) (o : Ending) (r : Request V) (s : State U V) (i : Nat) :
    Except Fault (State U V) := do
  let _ ← s.getDownload i
  if !written then failDownload c o.pos s i
  else if eof then
    match ← endData c o r s i with
    | some s => return s.modify i fun x => { x with dataMode := false }
    | none => failDownload c o.pos s i
  else return s

/-- `addConnection` of a connection that files can be had from, `revive` of an idle one, what a
connection fires, and the other operations of the queue. -/
inductive Event (U V : Type) where
  | addConnection (user : U) (r : Request V)
  | revive (i : Nat) (r : Request V)
  | snd (i : Nat) (type : Bytes) (start bytes : Int) (opened : Bool) (o : Ending) (r : Request V)
  | data (i : Nat) (written eof : Bool) (o : Ending) (r : Request V)
  | noSlots (i : Nat)
  | fileNotAvailable (i : Nat) (r : Request V)
  | failed (i : Nat) (pos : Int)
  | queue (e : QueueManager.Event U V) (h : ¬Transfers e)

/-- An event of a connection is nothing to the `DownloadManager` when it does not listen. -/
def heard (s : State U V) (i : Nat) (f : UserConnection U → Except Fault (State U V)) : Except Fault (State U V) :=
  match s.connection i with
  | none => .ok s
  | some x => if x.listening then f x else .ok s

def step (c : DownloadSettings) (passive : U → Bool) (s : State U V) : Event U V → Except Fault (State U V)
  | .addConnection user r =>
    let x : UserConnection U := ⟨user, .STATE_KEY, true, false, none⟩
    checkDownloads c r { s with
      connection := Function.update s.connection s.nextConnection (some x)
      nextConnection := s.nextConnection + 1 } s.nextConnection
  | .revive i r => if i ∈ s.idlers then checkDownloads c r { s with idlers := s.idlers.erase i } i else .ok s
  | .snd i type start bytes opened o r => heard s i fun x =>
    if x.state ≠ .STATE_SND then .ok s
    else do
      let (_, d) ← s.getDownload i
      -- another type disconnects
      if type ≠ names d.type then return s
      startData c opened o r s i start bytes
  | .data i written eof o r => heard s i fun x => if x.dataMode then data c written eof o r s i else .ok s
  | .noSlots i => heard s i fun x => if x.state ≠ .STATE_SND then .ok s else failDownload c 0 s i
  | .fileNotAvailable i r => heard s i fun x =>
    if x.state ≠ .STATE_SND then .ok s
    else do
      let (x, d) ← s.getDownload i
      dropSource c r 0 (if d.type = .TYPE_TREE then Source.FLAG_NO_TREE else Source.FLAG_FILE_NOT_AVAILABLE) s i x d
  | .failed i pos => heard s i fun _ => failDownload c pos { s with idlers := s.idlers.filter fun j => j ≠ i } i
  | .queue e _ => do
    let queue ← defined (QueueManager.step c.queue passive s.queue e)
    return { s with queue := queue }

def run (c : DownloadSettings) (passive : U → Bool) (s : State U V) (events : List (Event U V)) :
    Except Fault (State U V) :=
  events.foldlM (step c passive) s

end Dcpp.DownloadLife
