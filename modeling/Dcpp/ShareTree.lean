import Mathlib.Data.List.Lex
import Dcpp.Encoder
import Dcpp.Library.Keyed
import Dcpp.Library.Tree
import Dcpp.Util

namespace Dcpp.ShareManager

/-- A file of the share; `id` stands for its address. -/
structure File where
  id : Nat
  name : Bytes
  /-- Where the file is when it has been renamed. -/
  realPath : Option Bytes
  tth : Option Encoder.HashValue
  size : Int64
deriving DecidableEq

/-- A `Directory` but for the directories in it. Its files are in the order of the set. -/
structure DirectoryNode where
  name : Bytes
  realName : Option Bytes
  files : List File
  size : Int64
deriving DecidableEq

/-- The directories and the files come in the order in which they are gone through. -/
abbrev Directory := Tree DirectoryNode

/-- `Text::toLower`, and the code points in lower case that `Util::stricmp` compares. -/
structure Platform where
  toLower : Bytes → Bytes
  fold : Bytes → List Nat

/-- What the settings say of the share. The last three are the skiplists. -/
structure Settings where
  shareHidden : Bool
  followLinks : Bool
  listDupes : Bool
  addFinishedInstantly : Bool
  tempDownloadDirectory : Bytes
  tlsPrivateKeyFile : Bytes
  validFileName : Bytes → Bool
  validPath : Bytes → Bool
  validFileSize : Int64 → Bool

/-- An entry of a directory of the disk; `tth` is what the `HashManager` knows of a file. -/
structure DiskNode where
  name : Bytes
  isDirectory : Bool
  isHidden : Bool
  isLink : Bool
  size : Int64
  tth : Option Encoder.HashValue

abbrev DiskEntry := Tree DiskNode

namespace Directory

variable (p : Platform)

def getRealName (d : DirectoryNode) : Bytes := d.realName.getD d.name

def stricmpEq (a b : Bytes) : Bool := p.fold a = p.fold b

def findFile (aFile : Bytes) (files : List File) : Option File := files.find? fun f => stricmpEq p aFile f.name

def findDirectory (name : Bytes) (directories : List Directory) : Option Directory :=
  directories.find? fun d => stricmpEq p name d.label.name

def nameInUse (dir : Directory) (name : Bytes) : Bool :=
  (findFile p name dir.label.files).isSome || (findDirectory p name dir.children).isSome

/-- The first name that is not in use, of those with the numbers from one on. There are more of them here
than names in use. -/
def freeName (dir : Directory) (vname : Nat → Bytes) : Bytes :=
  let names := (List.range (dir.label.files.length + dir.children.length + 1)).map fun num => vname (num + 1)
  (names.find? fun name => !nameInUse p dir name).getD (vname (names.length + 1))

/-- The extension with its dot. -/
def getExt (name : Bytes) : Bytes :=
  if byte '.' ∈ name then byte '.' :: (name.reverse.takeWhile (· ≠ byte '.')).reverse else []

/-- A name with a number before its extension. -/
def numbered (name : Bytes) (num : Nat) : Bytes :=
  name.take (name.length - (getExt name).length) ++ str " (" ++ Util.toString num ++ str ")" ++ getExt name

def validateName (dir : Directory) (sourcePath : Bytes) (f : File) : File :=
  if nameInUse p dir f.name then
    { f with name := freeName p dir (numbered f.name), realPath := some (sourcePath ++ f.name) }
  else { f with realPath := none }

/-- The `insert` of the set; an equal element stays. -/
def insertFile (f : File) : List File → List File
  | [] => [f]
  | g :: files =>
    if p.fold f.name < p.fold g.name then f :: g :: files
    else if p.fold g.name < p.fold f.name then g :: insertFile f files
    else g :: files

def setFiles (files : List File) : Directory → Directory
  | .node d ds => .node { d with files := files } ds

def setChildren (directories : List Directory) : Directory → Directory
  | .node d _ => .node d directories

/-- A file comes into a directory under a name that is free. -/
def addFile (sourcePath : Bytes) (dir : Directory) (f : File) : Directory :=
  setFiles (insertFile p (validateName p dir sourcePath f) dir.label.files) dir

/-- `getRealPath` in a directory, from that in its parent; an exception is none. -/
def subPath (rp : Bytes → Option Bytes) (d : DirectoryNode) (path : Bytes) : Option Bytes :=
  rp (getRealName d ++ byte '/' :: path)

def fileRealPath (rp : Bytes → Option Bytes) (f : File) : Option Bytes :=
  match f.realPath with
  | some realPath => some realPath
  | none => rp f.name

/-- A file that has the name of a new directory is renamed where it is in the set. -/
def renameFile (rp : Bytes → Option Bytes) (name : Bytes) (target : Directory) : Directory × Bool :=
  match findFile p name target.label.files with
  | none => (target, false)
  | some f =>
    match fileRealPath rp f with
    | none => (target, true)
    | some realPath =>
      let f' := validateName p target (Util.getFilePath realPath) f
      (setFiles (Keyed.modifyFirst (fun g => stricmpEq p name g.name) (fun _ => f') target.label.files) target, false)

mutual

/-- `merge`; the second component says that an exception has ended it. -/
def merge (rp : Bytes → Option Bytes) (target : Directory) (realPath : Bytes) : Directory → Directory × Bool
  | .node source directories =>
    let r := mergeDirectories rp target realPath directories
    if r.2 then r else (source.files.foldl (addFile p realPath) r.1, false)

def mergeDirectories (rp : Bytes → Option Bytes) (target : Directory) (realPath : Bytes) :
    List Directory → Directory × Bool
  | [] => (target, false)
  | .node source directories :: rest =>
    let r : Directory × Bool :=
      match findDirectory p source.name target.children with
      | none =>
        renameFile p rp source.name (setChildren (target.children ++ [.node source directories]) target)
      | some subTarget =>
        let r := merge (subPath rp subTarget.label) subTarget (realPath ++ source.name ++ [byte '/'])
          (.node source directories)
        (setChildren
          (Keyed.modifyFirst (fun d => stricmpEq p source.name d.label.name) (fun _ => r.1) target.children) target, r.2)
    if r.2 then r else mergeDirectories rp r.1 realPath rest

end

variable (c : Settings)

mutual

/-- One entry of the loop of `buildTree`. -/
def buildEntry (realPath : Bytes) (dir : Directory) : DiskEntry → Directory
  | .node i entries =>
    if i.name = [] ∨ i.name = str "." ∨ i.name = str ".." then dir
    else if !c.shareHidden && i.isHidden then dir
    else if !c.followLinks && i.isLink then dir
    else if i.isDirectory then
      let newRealPath := realPath ++ i.name ++ [byte '/']
      if !c.validPath newRealPath then dir
      -- unfinished downloads are not shared
      else if newRealPath = c.tempDownloadDirectory then dir
      else
        let virtualName :=
          if nameInUse p dir i.name then
            freeName p dir fun num => i.name ++ str " (" ++ Util.toString num ++ str ")"
          else i.name
        let realName := if virtualName ≠ i.name then some i.name else none
        setChildren (dir.children ++ [buildEntries newRealPath (.node ⟨virtualName, realName, [], 0⟩ []) entries]) dir
    else if i.name = str "DCPlusPlus.xml" ∨ i.name = str "Favorites.xml" then dir
    else if !c.validFileName i.name then dir
    else if !c.validFileSize i.size then dir
    else if realPath ++ i.name = c.tlsPrivateKeyFile then dir
    else addFile p realPath dir ⟨0, i.name, none, i.tth, i.size⟩

def buildEntries (realPath : Bytes) (dir : Directory) : List DiskEntry → Directory
  | [] => dir
  | e :: entries => buildEntries realPath (buildEntry realPath dir e) entries

end

/-- The tree of a directory of the disk, under a name of its own. -/
def buildTree (realPath name : Bytes) (entries : List DiskEntry) : Directory :=
  buildEntries p c realPath (.node ⟨name, none, [], 0⟩ []) entries

mutual

/-- The files in the order in which they are gone through. -/
def allFiles : Directory → List File
  | .node d directories => allFilesOf directories ++ d.files

def allFilesOf : List Directory → List File
  | [] => []
  | d :: directories => allFiles d ++ allFilesOf directories

end

mutual

/-- Each file gets an address. -/
def allocate (n : Nat) : Directory → Directory
  | .node d directories =>
    .node
      { d with files := d.files.mapIdx fun i f => { f with id := n + (allFilesOf directories).length + i } }
      (allocateList n directories)

def allocateList (n : Nat) : List Directory → List Directory
  | [] => []
  | d :: directories => allocate n d :: allocateList (n + (allFiles d).length) directories

end

end Directory

end Dcpp.ShareManager
