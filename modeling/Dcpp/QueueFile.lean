import Dcpp.HashIndex
import Dcpp.QueueItem

namespace Dcpp.QueueManager

open Disk HashManager QueueItem SaveFile

variable {U : Type}

def segmentPieces (j : Segment) : List Bytes :=
  [str "\t\t<Segment Start=\"", Util.toString j.start, str "\" Size=\"", Util.toString j.size, str "\"/>\r\n"]

/-- `cid` gives the id of each user. -/
def sourcePieces (cid : U → Encoder.HashValue) (j : Source U) : List Bytes :=
  [str "\t\t<Source CID=\"", (cid j.user.user).toBase32] ++
    (if j.user.hint = [] then [] else [str "\" Hub=\"", j.user.hint]) ++ [str "\"/>\r\n"]

def downloadPieces (cid : U → Encoder.HashValue) (qi : QueueItem U TTHValue) : List Bytes :=
  if qi.isSet FLAG_USER_LIST then []
  else
    [str "\t<Download Target=\"", SimpleXML.escape qi.target true, str "\" Size=\"", Util.toString qi.size,
      str "\" Priority=\"", Util.toString qi.priority.toInt, str "\" Added=\"", Util.toString qi.added, str "\" TTH=\"",
      TTHValue.toBase32 qi.tthRoot] ++
    (if qi.done = [] then [] else [str "\" TempTarget=\"", SimpleXML.escape qi.tempTarget true]) ++ [str "\">\r\n"] ++
    qi.done.flatMap segmentPieces ++ qi.sources.flatMap (sourcePieces cid) ++ [str "\t</Download>\r\n"]

/-- What `saveQueue` writes, piece by piece. -/
def queuePieces (cid : U → Encoder.HashValue) (queue : List (QueueItem U TTHValue)) : List Bytes :=
  [SimpleXML.utf8Header, str "<Downloads Version=\"0.8813\">\r\n"] ++ queue.flatMap (downloadPieces cid) ++
    [str "</Downloads>\r\n"]

def getQueueFile (config : Bytes) : Bytes := config ++ str "Queue.xml"

/-- The items come in the order of the map; the result is `dirty`. -/
def saveQueue (device : Bytes → Nat) (bufSize : Nat) (config : Bytes) (cid : U → Encoder.HashValue)
    (queue : List (QueueItem U TTHValue)) (dirty force : Bool) : FileM Bytes Bool :=
  if !dirty && !force then pure dirty
  else
    FileM.handle
      (do
        saveFile device bufSize (getQueueFile config) (queuePieces cid queue)
        return false)
      (fun e => e = .file) (pure dirty)

end Dcpp.QueueManager
