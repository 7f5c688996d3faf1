import Dcpp.DirectoryListing
import Dcpp.NoCaseString

-- The searches that are made in every file list, and the walk over the list that collects what they match.
namespace Dcpp

open DirectoryListing OrderedSet

inductive ADLSearch.SourceType
  | OnlyFile | OnlyDirectory | FullPath
deriving DecidableEq

inductive ADLSearch.SizeType
  | SizeBytes | SizeKibiBytes | SizeMebiBytes | SizeGibiBytes
deriving DecidableEq

/-- A search that is prepared; `searchAll` is what its `match` says of a string. -/
structure ADLSearch where
  isActive : Bool
  sourceType : ADLSearch.SourceType
  minFileSize : Int64
  maxFileSize : Int64
  typeFileSize : ADLSearch.SizeType
  destDir : Bytes
  searchAll : Bytes → Bool

namespace ADLSearch

def GetSizeBase (is : ADLSearch) : Int64 :=
  match is.typeFileSize with
  | .SizeBytes => 1
  | .SizeKibiBytes => 1024
  | .SizeMebiBytes => 1024 * 1024
  | .SizeGibiBytes => 1024 * 1024 * 1024

def matchesFile (is : ADLSearch) (f fp : Bytes) (size : Int64) : Bool :=
  if !is.isActive then false
  else if 0 ≤ size ∧ (is.sourceType = .OnlyFile ∨ is.sourceType = .FullPath) ∧
      (0 ≤ is.minFileSize ∧ size < is.minFileSize * is.GetSizeBase ∨
        0 ≤ is.maxFileSize ∧ size > is.maxFileSize * is.GetSizeBase) then false
  else
    match is.sourceType with
    | .OnlyDirectory => false
    | .OnlyFile => is.searchAll f
    | .FullPath => is.searchAll fp

def matchesDirectory (is : ADLSearch) (d : Bytes) : Bool :=
  if !is.isActive then false
  else if is.sourceType ≠ .OnlyDirectory then false
  else is.searchAll d

end ADLSearch

namespace ADLSearchManager

/-- An `AdlDirectory` but for the directories in it. -/
structure AdlNode where
  fullPath : Bytes
  name : Bytes
  files : List DirectoryListing.File

abbrev AdlDirectory := Tree AdlNode

/-- A directory that is being mirrored. It is put into the set above it when it is left; whether that has taken it in
is known since it was entered. -/
structure Subdir where
  label : AdlNode
  directories : List AdlDirectory
  inSet : Bool

/-- A destination, with the sets of its `dir`. The subdirectory and those above it are none where `subdir` is null. -/
structure DestDir where
  name : Bytes
  files : List DirectoryListing.File
  directories : List AdlDirectory
  subdir : List Subdir
  fileAdded : Bool

def AdlNode.key (d : AdlDirectory) : Bytes := d.label.name

-- `compare(a, b) < 0`, which is about the locale.
variable (less : Bytes → Bytes → Prop) [DecidableRel less]

namespace DestDir

/-- What every destination does with a file. -/
def storeFile (f : DirectoryListing.File) (id : DestDir) : DestDir :=
  { id with
    subdir :=
      match id.subdir with
      | [] => []
      | s :: above =>
        let files := OrderedSet.insert less DirectoryListing.File.name f s.label.files
        { s with label := { s.label with files := files } } :: above
    fileAdded := false }

/-- What a destination does with a file that one of its searches matches. -/
def addFile (f : DirectoryListing.File) (id : DestDir) : DestDir :=
  { id with files := OrderedSet.insert less DirectoryListing.File.name f id.files, fileAdded := true }

/-- A new directory in a set that it may find its name in. -/
def newSubdir (fullPath name : Bytes) (directories : List AdlDirectory) : Subdir :=
  ⟨⟨fullPath, name, []⟩, [], (OrderedSet.find less AdlNode.key name directories).isNone⟩

/-- What every destination does with a directory. -/
def storeDirectory (fullPath name : Bytes) (id : DestDir) : DestDir :=
  match id.subdir with
  | [] => id
  | s :: above => { id with subdir := newSubdir less fullPath name s.directories :: s :: above }

/-- What a destination does with a directory that one of its searches matches. -/
def addDirectory (fullPath name : Bytes) (id : DestDir) : DestDir :=
  { id with subdir := [newSubdir less fullPath name id.directories] }

/-- The set with a directory that is left. -/
def leave (s : Subdir) (directories : List AdlDirectory) : List AdlDirectory :=
  if s.inSet then OrderedSet.put less AdlNode.key s.label.name (.node s.label s.directories) directories
  else directories

def stepUp (id : DestDir) : DestDir :=
  match id.subdir with
  | [] => id
  | [s] => { id with subdir := [], directories := leave less s id.directories }
  | s :: s' :: above => { id with subdir := { s' with directories := leave less s s'.directories } :: above }

end DestDir

/-- A search with its `ddIndex`. -/
abbrev SearchCollection := List (ADLSearch × Nat)

variable (collection : SearchCollection) (breakOnFirst : Bool)

/-- The loop over the searches, from one of them on. What `add` does is done with the destination of one that hits,
unless that is `taken`. -/
def matchSearches (taken : DestDir → Bool) (hit : ADLSearch → Bool) (add : DestDir → DestDir) :
    SearchCollection → List DestDir → List DestDir
  | [], destDirVector => destDirVector
  | (is, ddIndex) :: rest, destDirVector =>
    if destDirVector[ddIndex]?.any taken then matchSearches taken hit add rest destDirVector
    else if hit is then
      let destDirVector := destDirVector.modify ddIndex add
      if breakOnFirst then destDirVector else matchSearches taken hit add rest destDirVector
    else matchSearches taken hit add rest destDirVector

def matchesFile (destDirVector : List DestDir) (currentFile : DirectoryListing.File) (fullPath : Bytes) :
    List DestDir :=
  let destDirVector := destDirVector.map (DestDir.storeFile less currentFile)
  if currentFile.name = [] then destDirVector
  else
    let filePath := fullPath ++ str "\\" ++ currentFile.name
    matchSearches breakOnFirst DestDir.fileAdded
      (fun is => is.matchesFile currentFile.name filePath currentFile.size) (DestDir.addFile less currentFile)
      collection destDirVector

def matchesDirectory (destDirVector : List DestDir) (name fullPath : Bytes) : List DestDir :=
  let destDirVector := destDirVector.map (DestDir.storeDirectory less fullPath name)
  if name = [] then destDirVector
  else
    matchSearches breakOnFirst (fun id => id.subdir ≠ []) (fun is => is.matchesDirectory name)
      (DestDir.addDirectory less fullPath name) collection destDirVector

def stepUpDirectory (destDirVector : List DestDir) : List DestDir := destDirVector.map (DestDir.stepUp less)

mutual

/-- The walk over a directory, in a list that is not aborted. -/
def matchRecurse (aPath : Bytes) : Directory → List DestDir → List DestDir
  | .node aDir directories, aDestList =>
    stepUpDirectory less (aDir.files.foldl (fun ds f => matchesFile less collection breakOnFirst ds f aPath)
      (matchDirectories aPath directories aDestList))

/-- The walk over the directories of one. -/
def matchDirectories (aPath : Bytes) : List Directory → List DestDir → List DestDir
  | [], aDestList => aDestList
  | d :: rest, aDestList =>
    let tmpPath := aPath ++ str "\\" ++ d.label.name
    matchDirectories aPath rest
      (matchRecurse tmpPath d (matchesDirectory less collection breakOnFirst aDestList d.label.name tmpPath))

end

/-- A destination that nothing is in. -/
def DestDir.new (name : Bytes) : DestDir := ⟨name, [], [], [], false⟩

-- The locale of `stricmp`, and `_("Discard")`.
variable (l : Util.Locale) (discard : Bytes)

/-- The destination of a search, which is new if none has its name. -/
def prepareDestination (destDir : Bytes) (destDirs : List DestDir) : Nat × List DestDir :=
  if destDir = [] then (0, destDirs)
  else
    match destDirs.findIdx? fun id => Util.noCaseStringEq l destDir id.name with
    | some ddIndex => (ddIndex, destDirs)
    | none => (destDirs.length, destDirs ++ [DestDir.new destDir])

def prepareDestinations : List ADLSearch → List DestDir → SearchCollection × List DestDir
  | [], destDirs => ([], destDirs)
  | is :: rest, destDirs =>
    let r := prepareDestination l is.destDir destDirs
    let s := prepareDestinations rest r.2
    ((is, r.1) :: s.1, s.2)

def prepareDestinationDirectories (collection : List ADLSearch) : SearchCollection × List DestDir :=
  prepareDestinations l collection [DestDir.new (str "ADLSearch")]

/-- The name of a destination's directory. -/
def dirName (name : Bytes) : Bytes := str "<<<" ++ name ++ str ">>>"

/-- What is in the root of a list in the end: directories of its own, and those of destinations. -/
abbrev RootEntry := Directory ⊕ DestDir

def RootEntry.name : RootEntry → Bytes
  | .inl d => d.label.name
  | .inr id => dirName id.name

def isDiscard (name : Bytes) : Bool := Util.noCaseStringEq l (dirName name) (dirName discard)

def finalizeDestinationDirectories (destDirs : List DestDir) (directories : List RootEntry) : List RootEntry :=
  destDirs.foldl (fun directories i =>
    if i.files = [] ∧ i.directories.isEmpty then directories
    else if isDiscard l discard i.name then directories
    else OrderedSet.insert less RootEntry.name (.inr i) directories) directories

/-- The destinations when the walk has ended. -/
def walked (collection : List ADLSearch) (root : Directory) : List DestDir :=
  let r := prepareDestinationDirectories l collection
  matchRecurse less r.1 breakOnFirst root.label.name root r.2

/-- The directories in the root in the end. -/
def matchListing (collection : List ADLSearch) (root : Directory) : List RootEntry :=
  finalizeDestinationDirectories less l discard (walked less breakOnFirst l collection root)
    (root.children.map Sum.inl)

end ADLSearchManager

end Dcpp
