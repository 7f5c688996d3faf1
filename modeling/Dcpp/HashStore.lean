import Dcpp.Encoder
import Dcpp.Library.Disk
import Dcpp.Library.Keyed
import Dcpp.MerkleTree
import Dcpp.Util

namespace Dcpp.HashManager

open Disk MerkleTree

abbrev TTHValue := Dcpp.HashValue Encoder.BYTES

abbrev TigerTree := MerkleTree TTHValue

/-- A tree of one leaf has no storage in the data file. -/
def SMALL_TREE : Int := -1

structure TreeInfo where
  size : Nat
  index : Int
  blockSize : Nat
deriving DecidableEq

structure FileInfo where
  fileName : Bytes
  root : TTHValue
  timeStamp : Nat
  used : Bool
deriving DecidableEq

/-- The maps are lists of their entries. -/
structure HashStore where
  fileIndex : List (Bytes × List FileInfo)
  treeIndex : List (TTHValue × TreeInfo)
  dirty : Bool
deriving DecidableEq

namespace HashStore

def MEGABYTE : Nat := 1024 * 1024

/-- `sizeof(int64_t)`. -/
def HEADER : Nat := 8

/-- The value of eight bytes as an `int64_t`. -/
def toPos (bytes : Bytes) : Int :=
  let n := ByteFile.decode bytes
  if n < 2 ^ 63 then n else n - 2 ^ 64

/-- A seek to before the start fails, and the file stays where it is. -/
def setPos (pos : Int) (cur : Nat) : Nat := if 0 ≤ pos then pos.toNat else cur

/-- `&tt.getLeaves()[0].data` and the size of the leaves. -/
def leafData (tt : TigerTree) : Bytes := getLeafData tt

def createDataFile (name : Bytes) : FileM Bytes Unit :=
  FileM.handle
    (do
      createFile name
      setSize name MEGABYTE
      write name 0 (ByteFile.encode HEADER HEADER))
    (fun e => e = .file) (pure ())

/-- The file is grown by a megabyte at a time. -/
def growFile (f : Bytes) (datsz : Nat) (grow : Bool) : FileM Bytes Unit :=
  if grow then setSize f (datsz + MEGABYTE) else pure ()

def saveTree (f : Bytes) (tt : TigerTree) : FileM Bytes Int :=
  if tt.leaves.length = 1 then pure SMALL_TREE
  else do
    let head ← Disk.read f 0 HEADER
    if head.length ≠ HEADER then FileM.throw
    else
      let pos := toPos head
      let datsz ← getSize f
      let grow : Bool := pos + (tt.leaves.length * Encoder.BYTES : Nat) ≥ datsz
      growFile f datsz grow
      let cur := setPos pos (if grow then datsz + MEGABYTE else HEADER)
      write f cur (leafData tt)
      write f 0 (ByteFile.encode HEADER (cur + tt.leaves.length * Encoder.BYTES))
      pure pos

variable (H : TreeHasher TTHValue)

/-- The tree of an entry, where it is to be had and has the root; the file is at `cur` before and at the
second component after. -/
def loadTree (f : Bytes) (cur : Nat) (ti : TreeInfo) (root : TTHValue) : FileM Bytes (Option TigerTree × Nat) :=
  if ti.index = SMALL_TREE then pure (some (ofRoot ti.size ti.blockSize root), cur)
  else FileM.handle
    (do
      let buf ← Disk.read f (setPos ti.index cur) (calcBlocks ti.size ti.blockSize * Encoder.BYTES)
      return ((ofLeafData H ti.size ti.blockSize buf).filter fun tt => tt.root = root,
        setPos ti.index cur + buf.length))
    (fun _ => true) (pure (none, setPos ti.index cur))

def findTree (root : TTHValue) (treeIndex : List (TTHValue × TreeInfo)) : Option TreeInfo :=
  (treeIndex.find? fun i => i.1 = root).map Prod.snd

def getTree (dataFile : Bytes) (root : TTHValue) (s : HashStore) : FileM Bytes (Option TigerTree) :=
  match findTree root s.treeIndex with
  | none => pure none
  | some ti => FileM.handle
    (do
      openFile dataFile
      let r ← loadTree H dataFile 0 ti root
      return r.1)
    (fun _ => true) (pure none)

/-- An error of the file is logged; other exceptions leave a function that is `noexcept`. -/
def addTree (dataFile : Bytes) (tt : TigerTree) (s : HashStore) : FileM Bytes HashStore :=
  match findTree tt.root s.treeIndex with
  | some _ => pure s
  | none => FileM.noexcept <| FileM.handle
    (do
      openFile dataFile
      let index ← saveTree dataFile tt
      return { s with
        treeIndex := s.treeIndex ++ [(tt.root, ⟨tt.fileSize, index, tt.blockSize⟩)]
        dirty := true })
    (fun e => e = .file) (pure s)

/-- `getTTH`; a file that has changed is forgotten. -/
def getTTH (aFileName : Bytes) (aSize : Nat) (aTimeStamp : Nat) (s : HashStore) : Option TTHValue × HashStore :=
  let fname := Util.getFileName aFileName
  let fpath := Util.getFilePath aFileName
  let atFile (f : List FileInfo → List FileInfo) : List (Bytes × List FileInfo) :=
    Keyed.modifyFirst (fun i => i.1 = fpath) (fun i => (i.1, f i.2)) s.fileIndex
  match s.fileIndex.find? fun i => i.1 = fpath with
  | none => (none, s)
  | some i =>
    match i.2.find? fun j => j.fileName = fname with
    | none => (none, s)
    | some fi =>
      if (findTree fi.root s.treeIndex).any (fun ti => ti.size = aSize) && fi.timeStamp = aTimeStamp then
        (some fi.root,
          { s with fileIndex := atFile (Keyed.modifyFirst (fun j => j.fileName = fname) fun j => { j with used := true }) })
      else (none, { s with fileIndex := atFile (List.eraseP fun j => j.fileName = fname), dirty := true })

/-- `addFile` after its call of `addTree`. -/
def addFileInfo (aFileName : Bytes) (aTimeStamp : Nat) (tth : TTHValue) (aUsed : Bool) (s : HashStore) : HashStore :=
  let fname := Util.getFileName aFileName
  let fpath := Util.getFilePath aFileName
  let add (l : List FileInfo) : List FileInfo := l.eraseP (fun j => j.fileName = fname) ++ [⟨fname, tth, aTimeStamp, aUsed⟩]
  { s with
    fileIndex :=
      if s.fileIndex.any fun i => i.1 = fpath then
        Keyed.modifyFirst (fun i => i.1 = fpath) (fun i => (i.1, add i.2)) s.fileIndex
      else s.fileIndex ++ [(fpath, add [])]
    dirty := true }

def addFile (dataFile aFileName : Bytes) (aTimeStamp : Nat) (tth : TigerTree) (aUsed : Bool) (s : HashStore) :
    FileM Bytes HashStore := do
  let s ← addTree dataFile tth s
  return addFileInfo aFileName aTimeStamp tth.root aUsed s

end HashStore

end Dcpp.HashManager
