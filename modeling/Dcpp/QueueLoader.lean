import Dcpp.HashLoader
import Dcpp.QueueFile
import Dcpp.QueueManager
import Dcpp.ValidateFileName

-- The queue as it is loaded when the program starts.
namespace Dcpp.QueueManager

open HashManager QueueItem QueueState SimpleXML SimpleXMLReader

def PATH_MAX (windows : Bool) : Nat := if windows then 260 else 4096

/-- The target without what the system does not allow, or none when an exception is thrown; on Windows the second
character is looked at whether there is one or not. Whether the file exists is not asked. -/
def checkTarget (windows : Bool) (aTarget : Bytes) : Option (Option Bytes) :=
  let char (i : Nat) := aTarget.getD i 0
  if aTarget.length > PATH_MAX windows then some none
  else if windows then
    if aTarget = [] then none
    else if (char 1 ≠ byte ':' ∨ char 2 ≠ byte '\\') ∧ char 0 ≠ byte '\\' ∧ char 1 ≠ byte '\\' then some none
    else (Util.validateFileName windows aTarget).map some
  else if char 0 ≠ byte '/' then some none
  else (Util.validateFileName windows aTarget).map some

/-- The priority with a number, if there is one. -/
def priorityOf (n : Int) : Option Priority :=
  [.DEFAULT, .PAUSED, .LOWEST, .LOW, .NORMAL, .HIGH, .HIGHEST, .LAST].find? fun p => p.toInt = n

/-- What the loading of the queue depends on: `alreadyShared` are the roots that are in the share, when the queue is not
to have such files, and `passive` says that neither the user nor this client is active. -/
structure LoadSettings (U : Type) where
  settings : Settings
  windows : Bool
  getUser : Encoder.HashValue → U
  passive : U → Bool
  alreadyShared : TTHValue → Bool
  time : Int

variable {U : Type} [DecidableEq U]

structure QueueLoader (U : Type) where
  queue : QueueState U TTHValue
  cur : Option Nat
  inDownloads : Bool

/-- The item that `FileQueue::add` makes. -/
def newItem (c : Settings) (aTarget : Bytes) (aSize : Int) (p : Priority) (aTempTarget : Bytes) (aAdded : Int)
    (root : TTHValue) : QueueItem U TTHValue where
  flags := 0
  target := aTarget
  size := aSize
  priority := if p = .DEFAULT then defaultPriority c aSize 0 else p
  added := aAdded
  tthRoot := root
  tempTarget := aTempTarget
  sources := []
  badSources := []
  done := []
  downloads := []

namespace QueueLoader

-- The functions are undefined where a priority is no priority, where a sum is out of range and where the queue is.
variable (c : LoadSettings U)

/-- A new item, with what an old version has downloaded of it. -/
def readItem (attribs : StringPairList) (target : Bytes) (size : Int) (p : Priority) (tthRoot : TTHValue) :
    QueueItem U TTHValue :=
  let added := Util.toInt (getAttrib attribs (str "Added") 4)
  let tempTarget := getAttrib attribs (str "TempTarget") 5
  let downloaded := Util.toInt64 (getAttrib attribs (str "Downloaded") 5)
  let q := newItem c.settings target size p tempTarget (if added = 0 then c.time else added) tthRoot
  if 0 < downloaded ∧ downloaded ≤ size then q.addSegment ⟨0, downloaded⟩ else q

/-- The item of the target, which is a new one when there is none yet. -/
def addDownload (attribs : StringPairList) (target : Bytes) (size : Int) (tthRoot : TTHValue) (l : QueueLoader U) :
    Option (QueueState U TTHValue × Nat) :=
  match l.queue.find c.settings target with
  | some a => some (l.queue, a)
  | none =>
    (priorityOf (Util.toInt (getAttrib attribs (str "Priority") 3))).map fun p =>
      ({ l.queue.setItem l.queue.nextId (readItem c attribs target size p tthRoot) with nextId := l.queue.nextId + 1 },
        l.queue.nextId)

def startDownload (attribs : StringPairList) (simple : Bool) (l : QueueLoader U) : Option (QueueLoader U) :=
  let size := Util.toInt64 (getAttrib attribs (str "Size") 1)
  let tthRoot := getAttrib attribs (str "TTH") 5
  if size = 0 then some l
  else
    match checkTarget c.windows (getAttrib attribs (str "Target") 0) with
    | none => none
    | some none => some l
    | some (some target) =>
      if target = [] ∨ tthRoot = [] ∨ c.alreadyShared (TTHValue.ofBase32 tthRoot) then some l
      else (l.addDownload c attribs target size (TTHValue.ofBase32 tthRoot)).map fun (s, a) =>
        { l with queue := s, cur := if simple then l.cur else some a }

def startSegment (attribs : StringPairList) (a : Nat) (l : QueueLoader U) : Option (QueueLoader U) :=
  let start := Util.toInt64 (getAttrib attribs (str "Start") 0)
  let size := Util.toInt64 (getAttrib attribs (str "Size") 1)
  match l.queue.item a with
  | none => none
  | some q =>
    if size > 0 ∧ start ≥ 0 then
      if start + size > Util.INT64_MAX then none
      else some { l with queue := l.queue.setItem a (q.loadSegment ⟨start, size⟩) }
    else some l

def startSource (attribs : StringPairList) (a : Nat) (l : QueueLoader U) : Option (QueueLoader U) :=
  let cid := getAttrib attribs (str "CID") 0
  if cid.length ≠ 39 then some l
  else
    let user := c.getUser (Encoder.HashValue.ofBase32 cid)
    (addSource l.queue a ⟨user, getAttrib attribs (str "Hub") 1⟩ 0 (c.passive user)).map fun r =>
      { l with queue := r.1 }

def startTag (name : Bytes) (attribs : StringPairList) (simple : Bool) (l : QueueLoader U) : Option (QueueLoader U) :=
  if !l.inDownloads ∧ name = str "Downloads" then some { l with inDownloads := true }
  else if l.inDownloads then
    match l.cur with
    | none => if name = str "Download" then l.startDownload c attribs simple else some l
    | some a =>
      if name = str "Segment" then l.startSegment attribs a
      else if name = str "Source" then l.startSource c attribs a
      else some l
  else some l

def endTag (name : Bytes) (l : QueueLoader U) : QueueLoader U :=
  if l.inDownloads then
    if name = str "Download" then { l with cur := none }
    else if name = str "Downloads" then { l with inDownloads := false }
    else l
  else l

def call (l : QueueLoader U) : CallBack → Option (QueueLoader U)
  | .startTag name attribs simple => l.startTag c name attribs simple
  | .data _ => some l
  | .endTag name => some (l.endTag name)

def calls (l : QueueLoader U) (cs : List CallBack) : Option (QueueLoader U) := cs.foldlM (call c) l

def start : QueueLoader U := ⟨empty, none, false⟩

end QueueLoader

/-- `loadQueue` of what the reads of the file give; what the reader threw is dropped. -/
def loadQueue (cfg : Config) (fuel : Nat) (c : LoadSettings U) (chunks : List Bytes) :
    Option (Option (QueueState U TTHValue)) :=
  (readStream cfg fuel 0 0 SimpleXMLReader.start [] chunks).map fun (r, _) =>
    (QueueLoader.start.calls c r.calls).map QueueLoader.queue

end Dcpp.QueueManager
