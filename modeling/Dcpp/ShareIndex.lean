import Dcpp.BloomFilter
import Dcpp.ShareTree

namespace Dcpp.ShareManager

open Directory

/-- The length of the parts that the filter knows. -/
def BLOOM : Nat := 5

/-- The index by hashes and the filter. -/
structure Indices where
  tthIndex : List (Encoder.HashValue × Nat)
  bloom : BloomFilter
deriving DecidableEq

/-- What the searches and the events of the `ShareManager` read. `shares` is sorted. -/
structure Share where
  directories : List Directory
  shares : List (Bytes × Bytes)
  indices : Indices
  nextId : Nat

/-- The disk: the entries of each directory, the paths at which a `FileFindIter` finds something, and those
where that is hidden. -/
structure FileSystem where
  entries : Bytes → List DiskEntry
  found : Bytes → Bool
  isHidden : Bytes → Bool

variable (p : Platform) (c : Settings)

def start : Share := ⟨[], [], ⟨[], ⟨2 ^ 20, []⟩⟩, 0⟩

/-- `none` when there is no such file any more. -/
def findRealRoot (found : Bytes → Bool) (shares : List (Bytes × Bytes)) (virtualRoot virtualPath : Bytes) :
    Option Bytes :=
  (shares.find? fun i => stricmpEq p i.2 virtualRoot && found (i.1 ++ virtualPath)).map fun i => i.1 ++ virtualPath

/-- `getRealPath` in a root directory. -/
def rootPath (found : Bytes → Bool) (shares : List (Bytes × Bytes)) (d : DirectoryNode) : Bytes → Option Bytes :=
  findRealRoot p found shares (getRealName d)

mutual

/-- The files with their real paths. -/
def realPaths (rp : Bytes → Option Bytes) : Directory → List (File × Option Bytes)
  | .node d directories => realPathsOf rp directories ++ d.files.map fun f => (f, fileRealPath rp f)

def realPathsOf (rp : Bytes → Option Bytes) : List Directory → List (File × Option Bytes)
  | [] => []
  | d :: directories => realPaths (subPath rp d.label) d ++ realPathsOf rp directories

end

/-- The files of all roots with their real paths. -/
def allRealPaths (found : Bytes → Bool) (shares : List (Bytes × Bytes)) (directories : List Directory) :
    List (File × Option Bytes) :=
  directories.flatMap fun d => realPaths (rootPath p found shares d.label) d

/-- The file at an address has a real path. -/
def resolves (found : Bytes → Bool) (shares : List (Bytes × Bytes)) (directories : List Directory) (id : Nat) : Bool :=
  (allRealPaths p found shares directories).any fun i => i.1.id = id && i.2.isSome

def lookup (tthIndex : List (Encoder.HashValue × Nat)) (tth : Encoder.HashValue) : Option Nat :=
  (tthIndex.find? fun i => i.1 = tth).map Prod.snd

/-- `updateIndices` of a file: whether it stays, and whether its size counts. -/
def updateFile (ok : Nat → Bool) (f : File) (ix : Indices) : Bool × Bool × Indices :=
  match f.tth with
  | none => (true, false, ix)
  | some tth =>
    let ix' : Indices := ⟨Keyed.assign Prod.fst (tth, f.id) ix.tthIndex, ix.bloom.add BLOOM (p.toLower f.name)⟩
    match lookup ix.tthIndex tth with
    | none => (true, true, ix')
    | some j =>
      if c.listDupes then (true, false, ix')
      -- the message about the duplicate needs both paths
      else (!(ok f.id && ok j), false, ix)

/-- The loop over the files, which also sums up the sizes. -/
def updateFiles (ok : Nat → Bool) : List File → Int64 → Indices → List File × Int64 × Indices
  | [], size, ix => ([], size, ix)
  | f :: files, size, ix =>
    let r := updateFile p c ok f ix
    let rest := updateFiles ok files (if r.2.1 then size + f.size else size) r.2.2
    (if r.1 then f :: rest.1 else rest.1, rest.2)

mutual

def updateIndices (ok : Nat → Bool) (ix : Indices) : Directory → Directory × Indices
  | .node d directories =>
    let ix := { ix with bloom := ix.bloom.add BLOOM (p.toLower d.name) }
    let sub := updateDirectories ok ix directories
    let r := updateFiles p c ok d.files 0 sub.2
    (.node { d with files := r.1, size := r.2.1 } sub.1, r.2.2)

def updateDirectories (ok : Nat → Bool) (ix : Indices) : List Directory → List Directory × Indices
  | [] => ([], ix)
  | d :: directories =>
    let r := updateIndices ok ix d
    let rest := updateDirectories ok r.2 directories
    (r.1 :: rest.1, rest.2)

end

def rebuildIndices (found : Bytes → Bool) (s : Share) : Share :=
  let r := updateDirectories p c (resolves p found s.shares s.directories) ⟨[], s.indices.bloom.clear⟩ s.directories
  { s with directories := r.1, indices := r.2 }

/-- `ShareManager::merge`; the second component says that an exception has ended it. -/
def mergeRoot (found : Bytes → Bool) (s : Share) (directory : Directory) (realPath : Bytes) : Share × Bool :=
  match findDirectory p directory.label.name s.directories with
  | none => ({ s with directories := s.directories ++ [directory] }, false)
  | some target =>
    let r := merge p (rootPath p found s.shares target.label) target realPath directory
    ({ s with
      directories :=
        Keyed.modifyFirst (fun d => stricmpEq p directory.label.name d.label.name) (fun _ => r.1) s.directories }, r.2)

/-- A tree is built and merged. -/
def share (fs : FileSystem) (s : Share) (realPath name : Bytes) : Share × Bool :=
  let directory := allocate s.nextId (buildTree p c realPath name (fs.entries realPath))
  mergeRoot p fs.found { s with nextId := s.nextId + (allFiles directory).length } directory realPath

def checkHidden (fs : FileSystem) (realPath : Bytes) : Bool :=
  !fs.found realPath.dropLast || c.shareHidden || !fs.isHidden realPath.dropLast

/-- The directories are shared in turn, up to the first exception. -/
def shareAll (fs : FileSystem) : Share → List (Bytes × Bytes) → Share × Bool
  | s, [] => (s, false)
  | s, i :: rest =>
    if checkHidden c fs i.1 then
      let r := share p c fs s i.1 i.2
      if r.2 then r else shareAll fs r.1 rest
    else shareAll fs s rest

/-- `shares[realPath] = vName`. -/
def setShare (realPath vName : Bytes) : List (Bytes × Bytes) → List (Bytes × Bytes)
  | [] => [(realPath, vName)]
  | i :: shares =>
    if realPath = i.1 then (realPath, vName) :: shares
    else if realPath < i.1 then (realPath, vName) :: i :: shares
    else i :: setShare realPath vName shares

def validateVirtual (aVirt : Bytes) : Bytes := aVirt.map fun b => if b = byte '\\' ∨ b = byte '/' then byte '_' else b

/-- What `addDirectory` does under the lock before it rebuilds the indices; what it checks before that may have
changed since. -/
def added (fs : FileSystem) (s : Share) (realPath virtualName : Bytes) : Share × Bool :=
  let vName := validateVirtual virtualName
  share p c fs { s with shares := setShare realPath vName s.shares } realPath vName

def addDirectory (fs : FileSystem) (s : Share) (realPath virtualName : Bytes) : Share :=
  let r := added p c fs s realPath virtualName
  if r.2 then r.1 else rebuildIndices p c fs.found r.1

/-- What `removeDirectory` does for a directory that is shared before it rebuilds the indices. -/
def removed (fs : FileSystem) (s : Share) (realPath vName : Bytes) : Share × Bool :=
  let shares := Keyed.erase Prod.fst realPath s.shares
  let directories := s.directories.eraseP fun d => stricmpEq p vName d.label.name
  shareAll p c fs { s with directories := directories, shares := shares } (shares.filter fun i => stricmpEq p i.2 vName)

def removeDirectory (fs : FileSystem) (s : Share) (realPath : Bytes) : Share :=
  match s.shares.find? fun i => i.1 = realPath with
  | none => s
  | some i =>
    let r := removed p c fs s realPath i.2
    if r.2 then r.1 else rebuildIndices p c fs.found r.1

/-- The end of `runRefresh`, for the directories that were shared at its start. An exception is the end of the
program. -/
def refresh (fs : FileSystem) (s : Share) (dirs : List (Bytes × Bytes)) : Option Share :=
  let r := shareAll p c fs { s with directories := [] } dirs
  if r.2 then none else some (rebuildIndices p c fs.found r.1)

/-- `strnicmp` with the length of the share. -/
def isBelow (realPath share : Bytes) : Bool :=
  if share.length ≤ realPath.length then (p.fold (realPath.take share.length)).isPrefixOf (p.fold share)
  else p.fold realPath = p.fold share

/-- The names between the separators, with the last one. -/
def splitPath : Bytes → Bytes × List Bytes
  | [] => ([], [])
  | b :: path =>
    let r := splitPath path
    if b = byte '/' then ([], r.1 :: r.2) else (b :: r.1, r.2)

/-- The names of the directories below the share. -/
def directoryNames (path : Bytes) : List Bytes := ((splitPath path).1 :: (splitPath path).2).dropLast

/-- The way to a directory of a real path: its root, and the names below that. -/
def getRoot (s : Share) (realPath : Bytes) : Option (Bytes × List Bytes) :=
  (s.shares.find? fun i => isBelow p realPath i.1).map fun i => (i.2, directoryNames (realPath.drop i.1.length))

def descend : List Bytes → Directory → Option Directory
  | [], d => some d
  | name :: names, d => (d.children.find? fun sub => getRealName sub.label = name).bind (descend names)

def getDirectory (s : Share) (realPath : Bytes) : Option Directory :=
  (getRoot p s realPath).bind fun i => (findDirectory p i.1 s.directories).bind (descend i.2)

/-- The file that has the path, among those beside the one with the name that have been renamed. -/
def beside (realPath : Bytes) (files : List File) : Option File :=
  (files.takeWhile fun f => f.realPath.isSome).find? fun f => f.realPath = some realPath

def getFile (s : Share) (realPath : Bytes) : Option File :=
  (getDirectory p s realPath).bind fun d =>
    let isBase (f : File) : Bool := stricmpEq p (Util.getFileName realPath) f.name
    (d.label.files.find? isBase).map fun i =>
      if i.realPath = some realPath then i
      else
        let before := (d.label.files.takeWhile fun f => !isBase f).reverse
        let after := (d.label.files.dropWhile fun f => !isBase f).tail
        (beside realPath before).getD ((beside realPath after).getD i)

/-- The directory at the end of the way is changed. -/
def modifyBelow (g : Directory → Directory) : List Bytes → Directory → Directory
  | [], d => g d
  | name :: names, d =>
    setChildren (Keyed.modifyFirst (fun sub => getRealName sub.label = name) (modifyBelow g names) d.children) d

mutual

def mapFiles (g : File → File) : Directory → Directory
  | .node d directories => .node { d with files := d.files.map g } (mapFilesOf g directories)

def mapFilesOf (g : File → File) : List Directory → List Directory
  | [] => []
  | d :: directories => mapFiles g d :: mapFilesOf g directories

end

/-- `size` is none for a file that is not there, and `tth` is what the `HashManager` knows of it. -/
def fileMoved (s : Share) (realPath : Bytes) (size : Option Int64) (tth : Option Encoder.HashValue) : Share :=
  if !c.addFinishedInstantly then s
  else
    match size, getRoot p s realPath with
    | some size, some (root, names) =>
      if (getDirectory p s realPath).isSome then
        let f : File := ⟨s.nextId, Util.getFileName realPath, none, tth, size⟩
        let add := modifyBelow (fun d => addFile p (Util.getFilePath realPath) d f) names
        { s with
          directories := Keyed.modifyFirst (fun d => stricmpEq p root d.label.name) add s.directories
          nextId := s.nextId + 1 }
      else s
    | _, _ => s

def tthDone (s : Share) (realPath : Bytes) (root : Encoder.HashValue) : Share :=
  match getFile p s realPath with
  | none => s
  | some f =>
    let tthIndex :=
      match f.tth with
      | some tth => if root ≠ tth then Keyed.erase Prod.fst tth s.indices.tthIndex else s.indices.tthIndex
      | none => s.indices.tthIndex
    { s with
      directories := mapFilesOf (fun g => if g.id = f.id then { g with tth := some root } else g) s.directories
      indices := { s.indices with tthIndex := Keyed.assign Prod.fst (root, f.id) tthIndex } }

inductive Event where
  | addDirectory (fs : FileSystem) (realPath virtualName : Bytes)
  | removeDirectory (fs : FileSystem) (realPath : Bytes)
  | refresh (fs : FileSystem) (dirs : List (Bytes × Bytes))
  | fileMoved (realPath : Bytes) (size : Option Int64) (tth : Option Encoder.HashValue)
  | tthDone (realPath : Bytes) (root : Encoder.HashValue)

def step (s : Share) : Event → Option Share
  | .addDirectory fs realPath virtualName => some (addDirectory p c fs s realPath virtualName)
  | .removeDirectory fs realPath => some (removeDirectory p c fs s realPath)
  | .refresh fs dirs => refresh p c fs s dirs
  | .fileMoved realPath size tth => some (fileMoved p c s realPath size tth)
  | .tthDone realPath root => some (tthDone p s realPath root)

end Dcpp.ShareManager
