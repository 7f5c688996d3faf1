import Dcpp.ADLSearch
import Dcpp.ListMerging

-- The walk over a list as a single destination sees it, and what it leaves there.
namespace Dcpp.ADLSearchManager

open DirectoryListing OrderedSet

/-- What the searches of a destination match: files, with the path of their directory, and directories. -/
structure Hits where
  file : Bytes → DirectoryListing.File → Bool
  directory : Bytes → Bool

mutual

/-- A directory with all that is in it, for the set of another. -/
def mirror (path : Bytes) : Directory → AdlDirectory
  | .node d directories => .node ⟨path, d.name, d.files⟩ (mirrors path directories)

def mirrors (path : Bytes) : List Directory → List AdlDirectory
  | [] => []
  | d :: rest => mirror (path ++ str "\\" ++ d.label.name) d :: mirrors path rest

end

namespace Hits

variable (hits : Hits)

mutual

/-- The files in a directory and below it that are matched. -/
def files (path : Bytes) : Directory → List DirectoryListing.File
  | .node d directories => filesIn path directories ++ d.files.filter (hits.file path)

def filesIn (path : Bytes) : List Directory → List DirectoryListing.File
  | [] => []
  | d :: rest => files (path ++ str "\\" ++ d.label.name) d ++ filesIn path rest

end

mutual

/-- The outermost directories that are matched. -/
def directories (path : Bytes) : Directory → List AdlDirectory
  | .node d children =>
    if hits.directory d.name then [mirror path (.node d children)] else directoriesIn path children

def directoriesIn (path : Bytes) : List Directory → List AdlDirectory
  | [] => []
  | d :: rest => directories (path ++ str "\\" ++ d.label.name) d ++ directoriesIn path rest

end

/-- What is matched and has a name. -/
def named : Hits := ⟨fun path f => f.name ≠ [] && hits.file path f, fun name => name ≠ [] && hits.directory name⟩

end Hits

variable (less : Bytes → Bytes → Prop) [DecidableRel less] (hits : Hits)

namespace DestDir

def matchFile (path : Bytes) (id : DestDir) (f : DirectoryListing.File) : DestDir :=
  if hits.file path f then (id.storeFile less f).addFile less f else id.storeFile less f

def matchDirectory (path name : Bytes) (id : DestDir) : DestDir :=
  let id := id.storeDirectory less path name
  if id.subdir = [] ∧ hits.directory name then id.addDirectory less path name else id

mutual

def walk (path : Bytes) : Directory → DestDir → DestDir
  | .node d directories, id => (d.files.foldl (matchFile less hits path) (walkAll path directories id)).stepUp less

def walkAll (path : Bytes) : List Directory → DestDir → DestDir
  | [], id => id
  | d :: rest, id =>
    let tmpPath := path ++ str "\\" ++ d.label.name
    walkAll path rest (walk tmpPath d (id.matchDirectory less hits tmpPath d.label.name))

end

end DestDir

def Subdir.store (files : List DirectoryListing.File) (s : Subdir) : Subdir :=
  { s with label := { s.label with files := insertAll less DirectoryListing.File.name files s.label.files } }

def Subdir.storeAll (ds : List AdlDirectory) (s : Subdir) : Subdir :=
  { s with directories := insertAll less AdlNode.key ds s.directories }

variable {less}

/-- A directory that is left is one that is inserted. -/
theorem DestDir.leave_newSubdir (less : Bytes → Bytes → Prop) [DecidableRel less] (path name : Bytes) (files : List DirectoryListing.File)
    (children ds : List AdlDirectory) :
    leave less { newSubdir less path name ds with label := ⟨path, name, files⟩, directories := children } ds =
      insert less AdlNode.key (.node ⟨path, name, files⟩ children) ds := by
  rw [leave, OrderedSet.insert, AdlNode.key, Tree.label_node, newSubdir]
  cases find less AdlNode.key name ds <;> rfl

@[simp] theorem label_mirror (path : Bytes) (d : Directory) :
    (mirror path d).label = ⟨path, d.label.name, d.label.files⟩ := by
  cases d
  rfl

theorem names_mirrors (path : Bytes) (ds : List Directory) :
    (mirrors path ds).map AdlNode.key = ds.map fun d => d.label.name := by
  induction ds with
  | nil => rfl
  | cons d rest ih =>
    rw [mirrors, List.map_cons, List.map_cons, ih, AdlNode.key, label_mirror]

omit [DecidableRel less] in
theorem sorted_mirrors (path : Bytes) {ds : List Directory}
    (h : Sorted less (fun d : Directory => d.label.name) ds) : Sorted less AdlNode.key (mirrors path ds) := by
  apply List.pairwise_map.mp
  rw [names_mirrors]
  exact List.pairwise_map.mpr h

namespace DestDir

theorem matchFile_eq (path : Bytes) (id : DestDir) (f : DirectoryListing.File) :
    id.matchFile less hits path f =
      { id with
        subdir := id.subdir.modifyHead (Subdir.store less [f])
        files := insertAll less DirectoryListing.File.name ([f].filter (hits.file path)) id.files
        fileAdded := hits.file path f } := by
  obtain ⟨name, files, directories, subdir, fileAdded⟩ := id
  rw [matchFile, List.filter_singleton]
  cases hits.file path f <;> cases subdir <;> rfl

/-- The files of a directory, in the end. -/
theorem matchFiles_eq (less : Bytes → Bytes → Prop) [DecidableRel less] (hits : Hits) (path : Bytes) (files : List DirectoryListing.File) (id : DestDir) :
    ∃ b, files.foldl (matchFile less hits path) id =
      { id with
        subdir := id.subdir.modifyHead (Subdir.store less files)
        files := insertAll less DirectoryListing.File.name (files.filter (hits.file path)) id.files
        fileAdded := b } := by
  induction files generalizing id with
  | nil =>
    obtain ⟨name, files, directories, subdir, fileAdded⟩ := id
    refine ⟨fileAdded, ?_⟩
    cases subdir <;> rfl
  | cons f files ih =>
    obtain ⟨b, hb⟩ := ih (id.matchFile less hits path f)
    refine ⟨b, ?_⟩
    rw [List.foldl_cons, hb, matchFile_eq, List.modifyHead_modifyHead, ← insertAll_append, ← List.filter_append]
    rfl

/-- Where a directory is being mirrored, the one that is entered is mirrored in it. -/
theorem matchDirectory_open (path dirName : Bytes) (name : Bytes) (files : List DirectoryListing.File)
    (directories : List AdlDirectory) (s : Subdir) (above : List Subdir) (b : Bool) :
    matchDirectory less hits path dirName ⟨name, files, directories, s :: above, b⟩ =
      ⟨name, files, directories, newSubdir less path dirName s.directories :: s :: above, b⟩ := rfl

theorem matchDirectory_closed (path dirName : Bytes) (name : Bytes) (files : List DirectoryListing.File)
    (directories : List AdlDirectory) (b : Bool) :
    matchDirectory less hits path dirName ⟨name, files, directories, [], b⟩ =
      ⟨name, files, directories,
        if hits.directory dirName then [newSubdir less path dirName directories] else [], b⟩ := by
  rw [matchDirectory, storeDirectory]
  cases hits.directory dirName <;> rfl

/-- The walk over a directory that is being mirrored fills the mirror and leaves it. -/
def WalksOpen (less : Bytes → Bytes → Prop) [DecidableRel less] (hits : Hits) (d : Directory) : Prop :=
  ∀ path fullPath dirName inSet above name files directories b, ∃ b',
    walk less hits path d ⟨name, files, directories, ⟨⟨fullPath, dirName, []⟩, [], inSet⟩ :: above, b⟩ =
      stepUp less ⟨name, insertAll less DirectoryListing.File.name (hits.files path d) files, directories,
        ⟨⟨fullPath, dirName, d.label.files⟩, mirrors path d.children, inSet⟩ :: above, b'⟩

/-- The walk over a directory that is not being mirrored mirrors the outermost ones below it that are matched. -/
def WalksClosed (less : Bytes → Bytes → Prop) [DecidableRel less] (hits : Hits) (d : Directory) : Prop :=
  ∀ path name files directories b, ∃ b',
    walk less hits path d ⟨name, files, directories, [], b⟩ =
      ⟨name, insertAll less DirectoryListing.File.name (hits.files path d) files,
        insertAll less AdlNode.key (hits.directoriesIn path d.children) directories, [], b'⟩

theorem walkAll_open {ds : List Directory} (h : ∀ d ∈ ds, WalksOpen less hits d) (path name : Bytes)
    (files : List DirectoryListing.File) (directories : List AdlDirectory) (s : Subdir) (above : List Subdir)
    (b : Bool) : ∃ b',
    walkAll less hits path ds ⟨name, files, directories, s :: above, b⟩ =
      ⟨name, insertAll less DirectoryListing.File.name (hits.filesIn path ds) files, directories,
        s.storeAll less (mirrors path ds) :: above, b'⟩ := by
  induction ds generalizing files s b with
  | nil => exact ⟨b, rfl⟩
  | cons d rest ih =>
    have hrest := fun d' hd' => h d' (List.mem_cons_of_mem d hd')
    let tmpPath := path ++ str "\\" ++ d.label.name
    obtain ⟨b₁, hwalk⟩ := h d List.mem_cons_self tmpPath tmpPath d.label.name
      (find less AdlNode.key d.label.name s.directories).isNone (s :: above) name files directories b
    obtain ⟨b₂, hih⟩ := ih hrest (insertAll less DirectoryListing.File.name (hits.files tmpPath d) files)
      (s.storeAll less [mirror tmpPath d]) b₁
    refine ⟨b₂, ?_⟩
    have hleave := leave_newSubdir less tmpPath d.label.name d.label.files (mirrors tmpPath d.children)
      s.directories
    have hmirror : Tree.node ⟨tmpPath, d.label.name, d.label.files⟩ (mirrors tmpPath d.children) =
        mirror tmpPath d := by
      cases d
      rfl
    have hup : stepUp less ⟨name, insertAll less DirectoryListing.File.name (hits.files tmpPath d) files, directories,
        ⟨⟨tmpPath, d.label.name, d.label.files⟩, mirrors tmpPath d.children,
          (find less AdlNode.key d.label.name s.directories).isNone⟩ :: s :: above, b₁⟩ =
        ⟨name, insertAll less DirectoryListing.File.name (hits.files tmpPath d) files, directories,
          s.storeAll less [mirror tmpPath d] :: above, b₁⟩ := by
      rw [← hmirror]
      exact congrArg (fun ds => DestDir.mk name _ directories ({ s with directories := ds } :: above) b₁) hleave
    rw [walkAll, matchDirectory_open]
    change walkAll less hits path rest (walk less hits tmpPath d _) = _
    rw [newSubdir, hwalk, hup, hih, Hits.filesIn, insertAll_append, mirrors]
    rfl

variable [IsStrictWeakOrder Bytes less]

theorem walks_open {d : Directory} (h : Ordered less d) : WalksOpen less hits d := by
  induction d using Tree.induction with
  | h n children ih =>
    obtain ⟨⟨hfiles, hsorted⟩, hchildren⟩ := h
    have hopen : ∀ d ∈ children, WalksOpen less hits d := fun d hd => ih d hd (hchildren d hd)
    intro path fullPath dirName inSet above name files directories b
    obtain ⟨b₁, hall⟩ := walkAll_open hits hopen path name files directories ⟨⟨fullPath, dirName, []⟩, [], inSet⟩
      above b
    obtain ⟨b₂, hmatch⟩ := matchFiles_eq less hits path n.files
      (walkAll less hits path children ⟨name, files, directories, ⟨⟨fullPath, dirName, []⟩, [], inSet⟩ :: above, b⟩)
    have hin : insertAll less DirectoryListing.File.name n.files [] = n.files :=
      insertAll_of_sorted (s := []) hfiles
    have hmirrors : insertAll less AdlNode.key (mirrors path children) [] = mirrors path children :=
      insertAll_of_sorted (s := []) (sorted_mirrors path hsorted)
    refine ⟨b₂, ?_⟩
    rw [walk, hmatch, hall, Hits.files, insertAll_append]
    simp only [Subdir.storeAll, Subdir.store, List.modifyHead_cons, hin, hmirrors, Tree.label_node,
      Tree.children_node]

theorem walkAll_closed {ds : List Directory} (hordered : ∀ d ∈ ds, Ordered less d)
    (h : ∀ d ∈ ds, WalksClosed less hits d) (path name : Bytes) (files : List DirectoryListing.File)
    (directories : List AdlDirectory) (b : Bool) : ∃ b',
    walkAll less hits path ds ⟨name, files, directories, [], b⟩ =
      ⟨name, insertAll less DirectoryListing.File.name (hits.filesIn path ds) files,
        insertAll less AdlNode.key (hits.directoriesIn path ds) directories, [], b'⟩ := by
  induction ds generalizing files directories b with
  | nil => exact ⟨b, rfl⟩
  | cons d rest ih =>
    have ih := ih (fun d' hd' => hordered d' (List.mem_cons_of_mem d hd'))
      fun d' hd' => h d' (List.mem_cons_of_mem d hd')
    let tmpPath := path ++ str "\\" ++ d.label.name
    -- Whether it is matched or not, the walk comes out of the directory with the mirrors that it is there for.
    have hwalk : ∃ b', walk less hits tmpPath d
        (matchDirectory less hits tmpPath d.label.name ⟨name, files, directories, [], b⟩) =
        ⟨name, insertAll less DirectoryListing.File.name (hits.files tmpPath d) files,
          insertAll less AdlNode.key (hits.directories tmpPath d) directories, [], b'⟩ := by
      rw [matchDirectory_closed]
      obtain ⟨n, children⟩ := d
      rw [Hits.directories, Tree.label_node]
      split
      next hhit =>
        obtain ⟨b', hopen⟩ := walks_open hits (hordered _ List.mem_cons_self) tmpPath tmpPath n.name
          (find less AdlNode.key n.name directories).isNone [] name files directories b
        refine ⟨b', hopen.trans ?_⟩
        exact congrArg (fun ds => DestDir.mk name _ ds [] b') (leave_newSubdir less ..)
      next hhit => exact h _ List.mem_cons_self tmpPath name files directories b
    obtain ⟨b₁, hwalk⟩ := hwalk
    obtain ⟨b₂, hih⟩ := ih (insertAll less DirectoryListing.File.name (hits.files tmpPath d) files)
      (insertAll less AdlNode.key (hits.directories tmpPath d) directories) b₁
    refine ⟨b₂, ?_⟩
    rw [walkAll]
    change walkAll less hits path rest (walk less hits tmpPath d _) = _
    rw [hwalk, hih, Hits.filesIn, Hits.directoriesIn, insertAll_append, insertAll_append]

theorem walks_closed {d : Directory} (h : Ordered less d) : WalksClosed less hits d := by
  induction d using Tree.induction with
  | h n children ih =>
    obtain ⟨-, hchildren⟩ := h
    have hclosed : ∀ d ∈ children, WalksClosed less hits d := fun d hd => ih d hd (hchildren d hd)
    intro path name files directories b
    obtain ⟨b₁, hall⟩ := walkAll_closed hits hchildren hclosed path name files directories b
    obtain ⟨b₂, hmatch⟩ := matchFiles_eq less hits path n.files
      (walkAll less hits path children ⟨name, files, directories, [], b⟩)
    refine ⟨b₂, ?_⟩
    rw [walk, hmatch, hall, Hits.files, insertAll_append]
    rfl

end DestDir

end Dcpp.ADLSearchManager
