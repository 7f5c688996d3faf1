import Dcpp.HashIndex
import Dcpp.WrittenDocuments

-- The hash index as it is loaded when the program starts.
namespace Dcpp.HashManager

open SimpleXML SimpleXMLReader

def TTHValue.ofBase32 (base32 : Bytes) : TTHValue :=
  ⟨(Encoder.fromBase32 base32 Encoder.BYTES).toArray, Encoder.length_fromBase32 base32 Encoder.BYTES⟩

/-- A `TreeInfo` with the numbers of any file. -/
structure LoadedInfo where
  size : Int
  index : Int
  blockSize : Int
deriving DecidableEq

/-- The loader with the maps of its store, which are empty at first. -/
structure HashLoader where
  fileIndex : List (Bytes × List FileInfo)
  treeIndex : List (TTHValue × LoadedInfo)
  version : Int
  inTrees : Bool
  inFiles : Bool
  inHashStore : Bool
deriving DecidableEq

namespace HashLoader

def HASH_FILE_VERSION : Int := 3

def start : HashLoader := ⟨[], [], HASH_FILE_VERSION, false, false, false⟩

def startHash (attribs : StringPairList) (l : HashLoader) : HashLoader :=
  let type := getAttrib attribs (str "Type") 0
  let index := Util.toInt64 (getAttrib attribs (str "Index") 1)
  let blockSize := Util.toInt64 (getAttrib attribs (str "BlockSize") 2)
  let size := Util.toInt64 (getAttrib attribs (str "Size") 3)
  let root := getAttrib attribs (str "Root") 4
  if root ≠ [] ∧ type = str "TTH" ∧ (index ≥ 8 ∨ index = SMALL_TREE) ∧ blockSize ≥ 1024 then
    { l with treeIndex := Keyed.assign Prod.fst (TTHValue.ofBase32 root, ⟨size, index, blockSize⟩) l.treeIndex }
  else l

/-- `fileIndex[fpath].emplace_back`. -/
def emplaceFile (fpath : Bytes) (fi : FileInfo) (fileIndex : List (Bytes × List FileInfo)) : List (Bytes × List FileInfo) :=
  match fileIndex.find? fun i => i.1 = fpath with
  | some i => Keyed.assign Prod.fst (fpath, i.2 ++ [fi]) fileIndex
  | none => fileIndex ++ [(fpath, [fi])]

/-- A file of the second version is only taken over on Windows. -/
def startFile (attribs : StringPairList) (l : HashLoader) : HashLoader :=
  let file := getAttrib attribs (str "Name") 0
  let timeStamp := Util.toUInt32 (getAttrib attribs (str "TimeStamp") 1)
  let root := getAttrib attribs (str "Root") 2
  if file ≠ [] ∧ timeStamp > 0 ∧ root ≠ [] ∧ l.version ≠ 2 then
    { l with
      fileIndex := emplaceFile (Util.getFilePath file) ⟨Util.getFileName file, TTHValue.ofBase32 root, timeStamp, false⟩
        l.fileIndex }
  else l

def startTag (name : Bytes) (attribs : StringPairList) (simple : Bool) (l : HashLoader) : HashLoader :=
  if !l.inHashStore ∧ name = str "HashStore" then
    let version := Util.toInt (getAttrib attribs (str "Version") 0)
    { l with
      version := if version = 0 then Util.toInt (getAttrib attribs (str "version") 0) else version
      inHashStore := !simple }
  else if l.inHashStore ∧ (l.version = 2 ∨ l.version = 3) then
    if l.inTrees ∧ name = str "Hash" then l.startHash attribs
    else if l.inFiles ∧ name = str "File" then l.startFile attribs
    else if name = str "Trees" then { l with inTrees := !simple }
    else if name = str "Files" then { l with inFiles := !simple }
    else l
  else l

/-- The loader leaves the other calls as the reader has them. -/
def call (l : HashLoader) : CallBack → HashLoader
  | .startTag name attribs simple => l.startTag name attribs simple
  | .data _ => l
  | .endTag _ => l

def calls (l : HashLoader) (cs : List CallBack) : HashLoader := cs.foldl call l

end HashLoader

namespace HashStore

/-- `load` of what the reads of the file give; what the reader threw is dropped. -/
def load (cfg : Config) (fuel : Nat) (chunks : List Bytes) : Option HashLoader :=
  (readStream cfg fuel 0 0 start [] chunks).map fun (r, _) => HashLoader.start.calls r.calls

end HashStore

end Dcpp.HashManager
