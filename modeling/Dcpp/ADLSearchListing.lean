import Dcpp.ADLSearchMatches
import Dcpp.ListContents

-- The destinations in a list that has been searched.
namespace Dcpp.ADLSearchManager

open DirectoryListing OrderedSet

/-- The tree of a list. Its sets are in order, and its root has no name. -/
structure ListingTree (less : Bytes → Bytes → Prop) where
  root : Directory
  ordered : Ordered less root
  root_name : root.label.name = []

variable (less : Bytes → Bytes → Prop) (l : Util.Locale) (discard : Bytes) (collection : List ADLSearch)
  (t : ListingTree less)

/-- What the searches with the destination at `i` match. -/
def hitsOf (i : Nat) : Hits := hitsAt (prepareDestinationDirectories l collection).1 i

/-- The files that the destination at `i` is for. -/
def filesOf (i : Nat) : List DirectoryListing.File := (hitsOf l collection i).files [] t.root

/-- The mirrors of the directories that the destination at `i` is for. -/
def directoriesOf (i : Nat) : List AdlDirectory := (hitsOf l collection i).directories [] t.root

/-- The destination at `i` is called `name`, which is not that of what is discarded. -/
def Kept (i : Nat) (name : Bytes) : Prop :=
  (destinations l collection)[i]? = some name ∧ isDiscard l discard name = false

/-- There is something for the destination at `i`. -/
def Gets (i : Nat) : Prop := filesOf less l collection t i ≠ [] ∨ directoriesOf less l collection t i ≠ []

/-- A destination has what it is for, and nothing else. -/
structure Holds (i : Nat) (id : DestDir) : Prop where
  files : id.files.Perm (filesOf less l collection t i)
  directories : id.directories.Perm (directoriesOf less l collection t i)

/-- Every destination that is kept is in the root with what it is for. One that nothing is for need not be there. -/
structure Right (directories : List RootEntry) : Prop where
  holds : ∀ i name, Kept l discard collection i name → ∀ id, Sum.inr id ∈ directories → id.name = name →
    Holds less l collection t i id
  there : ∀ i name, Kept l discard collection i name → Gets less l collection t i →
    ∃ id, Sum.inr id ∈ directories ∧ id.name = name

/-- What a set takes in without loss: names that are not empty, and no two of them compare equal. -/
def Separate {α : Type*} (key : α → Bytes) (xs : List α) : Prop := (∀ x ∈ xs, key x ≠ []) ∧ Apart less key xs

/-- The names in the destinations are separate, and so are those of the destinations themselves from one another and
from the directories of the root. -/
structure NamesSeparate : Prop where
  files : ∀ i name, Kept l discard collection i name →
    Separate less DirectoryListing.File.name (filesOf less l collection t i)
  directories : ∀ i name, Kept l discard collection i name →
    Separate less AdlNode.key (directoriesOf less l collection t i)
  destinations : ∀ i name j name', Kept l discard collection i name → Gets less l collection t i →
    Kept l discard collection j name' → Gets less l collection t j → i ≠ j → ¬Tie less (dirName name) (dirName name')
  root : ∀ i name, Kept l discard collection i name → Gets less l collection t i → ∀ d ∈ t.root.children,
    ¬Tie less d.label.name (dirName name)

variable {less} [DecidableRel less]

/-- A destination when the walk has ended. -/
structure Ended (i : Nat) (id : DestDir) : Prop where
  name : (destinations l collection)[i]? = some id.name
  subdir : id.subdir = []
  files : id.files = insertAll less DirectoryListing.File.name ((hitsOf l collection i).named.files [] t.root) []
  directories : id.directories = insertAll less AdlNode.key ((hitsOf l collection i).named.directories [] t.root) []

variable {l discard collection t}

theorem finalizeDestinationDirectories_eq (destDirs : List DestDir) (directories : List RootEntry) :
    finalizeDestinationDirectories less l discard destDirs directories =
      insertAll less RootEntry.name
        ((destDirs.filter fun i =>
          !(i.files.isEmpty && i.directories.isEmpty) && !isDiscard l discard i.name).map Sum.inr) directories := by
  induction destDirs generalizing directories with
  | nil => rfl
  | cons i rest ih =>
    rw [finalizeDestinationDirectories, List.foldl_cons, ← finalizeDestinationDirectories, ih, List.filter_cons]
    by_cases hempty : i.files = [] ∧ i.directories.isEmpty
    · rw [if_pos hempty, if_neg]
      simp [hempty.1, hempty.2]
    · rw [if_neg hempty]
      cases hdiscard : isDiscard l discard i.name with
      | true => simp
      | false =>
        have hkeep : (!(i.files.isEmpty && i.directories.isEmpty) && !false) = true := by
          simpa [imp_iff_not_or] using hempty
        rw [if_neg Bool.false_ne_true, if_pos hkeep]
        rfl

section

variable [IsStrictWeakOrder Bytes less]

variable (less l collection t) in
/-- The walk of the list, for one of its destinations. -/
theorem getElem?_walked (i : Nat) : ∃ b : Bytes → Bool, (walked less false l collection t.root)[i]? =
    (destinations l collection)[i]?.map fun name =>
      ⟨name, insertAll less DirectoryListing.File.name ((hitsOf l collection i).named.files [] t.root) [],
        insertAll less AdlNode.key ((hitsOf l collection i).named.directories [] t.root) [], [], b name⟩ := by
  have hwalk : ∀ name, ∃ b, DestDir.walk less (hitsOf l collection i).named [] t.root (DestDir.new name) =
      ⟨name, insertAll less DirectoryListing.File.name ((hitsOf l collection i).named.files [] t.root) [],
        insertAll less AdlNode.key ((hitsOf l collection i).named.directories [] t.root) [], [], b⟩ := by
    intro name
    obtain ⟨b, hb⟩ := DestDir.walks_closed (hitsOf l collection i).named t.ordered [] name [] [] false
    refine ⟨b, hb.trans ?_⟩
    -- The root has no name, so it is not mirrored as a whole.
    have hroot : (hitsOf l collection i).named.directories [] t.root =
        (hitsOf l collection i).named.directoriesIn [] t.root.children := by
      have hname := t.root_name
      cases hr : t.root with
      | node n children =>
        rw [hr, Tree.label_node] at hname
        rw [Hits.directories, hname]
        rfl
    rw [hroot]
  choose b hb using hwalk
  refine ⟨b, ?_⟩
  have hpath : walked less false l collection t.root =
      matchRecurse less (prepareDestinationDirectories l collection).1 false [] t.root
        (prepareDestinationDirectories l collection).2 := by
    rw [walked, t.root_name]
  rw [hpath, alone_matchRecurse less _ i, (prepareDestinationDirectories_spec l collection).1, List.getElem?_map, Option.map_map]
  congr 1
  funext name
  exact hb name

theorem ended_of_getElem? {i : Nat} {id : DestDir} (h : (walked less false l collection t.root)[i]? = some id) :
    Ended l collection t i id := by
  obtain ⟨b, hb⟩ := getElem?_walked less l collection t i
  rw [hb, Option.map_eq_some_iff] at h
  obtain ⟨name, hname, rfl⟩ := h
  exact ⟨hname, rfl, rfl, rfl⟩

variable (less t) in
theorem exists_walked {i : Nat} {name : Bytes} (h : (destinations l collection)[i]? = some name) :
    ∃ id, (walked less false l collection t.root)[i]? = some id ∧ id.name = name := by
  obtain ⟨b, hb⟩ := getElem?_walked less l collection t i
  rw [hb, h]
  exact ⟨_, rfl, rfl⟩

/-- A destination has what it is for if and only if the names are separate. -/
theorem Ended.holds_iff {i : Nat} {id : DestDir} (h : Ended l collection t i id) :
    Holds less l collection t i id ↔ Separate less DirectoryListing.File.name (filesOf less l collection t i) ∧
      Separate less AdlNode.key (directoriesOf less l collection t i) := by
  have hnamed : (hitsOf l collection i).named.files [] t.root =
      (filesOf less l collection t i).filter fun f => f.name ≠ [] := files_named ..
  constructor
  · intro ⟨hfiles, hdirectories⟩
    rw [h.files, hnamed] at hfiles
    rw [h.directories] at hdirectories
    have hfile : ∀ f ∈ filesOf less l collection t i, f.name ≠ [] := fun f hf => by
      obtain hf | hf := mem_of_mem_insertAll (hfiles.mem_iff.mpr hf)
      · exact of_decide_eq_true (List.mem_filter.mp hf).2
      · exact absurd hf List.not_mem_nil
    have hdirectory : ∀ m ∈ directoriesOf less l collection t i, AdlNode.key m ≠ [] := fun m hm => by
      obtain hm | hm := mem_of_mem_insertAll (hdirectories.mem_iff.mpr hm)
      · exact ne_nil_of_mem_directories_named _ hm
      · exact absurd hm List.not_mem_nil
    exact ⟨⟨hfile, (Sorted.insertAll List.Pairwise.nil _).apart.of_perm hfiles⟩,
      ⟨hdirectory, (Sorted.insertAll List.Pairwise.nil _).apart.of_perm hdirectories⟩⟩
  · intro ⟨⟨hfile, hfiles⟩, ⟨hdirectory, hdirectories⟩⟩
    constructor
    · rw [h.files, hnamed, List.filter_eq_self.mpr fun f hf => decide_eq_true (hfile f hf)]
      exact insertAll_nil_perm_iff.mpr hfiles
    · have hall : (hitsOf l collection i).named.directories [] t.root = directoriesOf less l collection t i :=
        directories_named _ hdirectory
      rw [h.directories, hall]
      exact insertAll_nil_perm_iff.mpr hdirectories

omit [DecidableRel less] [IsStrictWeakOrder Bytes less] in
theorem Holds.gets_iff {i : Nat} {id : DestDir} (h : Holds less l collection t i id) :
    Gets less l collection t i ↔ id.files ≠ [] ∨ id.directories ≠ [] := by
  have hfiles : id.files = [] ↔ filesOf less l collection t i = [] :=
    ⟨fun hnil => List.nil_perm.mp (hnil ▸ h.files), fun hnil => List.perm_nil.mp (hnil ▸ h.files)⟩
  have hdirectories : id.directories = [] ↔ directoriesOf less l collection t i = [] :=
    ⟨fun hnil => List.nil_perm.mp (hnil ▸ h.directories), fun hnil => List.perm_nil.mp (hnil ▸ h.directories)⟩
  rw [Gets, Ne, Ne, Ne, Ne, hfiles, hdirectories]

variable (less l collection t) in
theorem map_name_walked : (walked less false l collection t.root).map DestDir.name = destinations l collection := by
  apply List.ext_getElem?
  intro i
  obtain ⟨b, hb⟩ := getElem?_walked less l collection t i
  rw [List.getElem?_map, hb, Option.map_map]
  exact Option.map_id'

omit [DecidableRel less] [IsStrictWeakOrder Bytes less] in
/-- A destination is known by its name. -/
theorem index_unique {i j : Nat} {name : Bytes} (hi : (destinations l collection)[i]? = some name)
    (hj : (destinations l collection)[j]? = some name) : i = j := by
  obtain ⟨hlt, -⟩ := List.getElem?_eq_some_iff.mp hi
  exact (List.getElem?_inj hlt (prepareDestinationDirectories_spec l collection).2.1).mp (hi.trans hj.symm)

/-- The destinations that the root is to take in. -/
def added (less : Bytes → Bytes → Prop) [DecidableRel less] (l : Util.Locale) (discard : Bytes)
    (collection : List ADLSearch) (root : Directory) : List DestDir :=
  (walked less false l collection root).filter fun i =>
    !(i.files.isEmpty && i.directories.isEmpty) && !isDiscard l discard i.name

omit [IsStrictWeakOrder Bytes less] in
theorem matchListing_eq : matchListing less false l discard collection t.root =
    insertAll less RootEntry.name ((added less l discard collection t.root).map Sum.inr)
      (t.root.children.map Sum.inl) := by
  rw [matchListing, finalizeDestinationDirectories_eq, added]

omit [IsStrictWeakOrder Bytes less] in
theorem mem_added {id : DestDir} : id ∈ added less l discard collection t.root ↔
    id ∈ walked less false l collection t.root ∧ (id.files ≠ [] ∨ id.directories ≠ []) ∧
      isDiscard l discard id.name = false := by
  rw [added, List.mem_filter]
  simp

/-- A destination that the root is to take in is one that is kept. -/
theorem exists_of_mem_added {id : DestDir} (h : id ∈ added less l discard collection t.root) :
    ∃ i, (walked less false l collection t.root)[i]? = some id ∧ Kept l discard collection i id.name ∧
      (id.files ≠ [] ∨ id.directories ≠ []) := by
  obtain ⟨hmem, hne, hdiscard⟩ := mem_added.mp h
  obtain ⟨i, hi⟩ := List.mem_iff_getElem?.mp hmem
  exact ⟨i, hi, ⟨(ended_of_getElem? hi).name, hdiscard⟩, hne⟩

/-- What is in the root in the end and is called like a destination is that destination. -/
theorem ended_of_mem {i : Nat} {name : Bytes} (hname : (destinations l collection)[i]? = some name) {id : DestDir}
    (hmem : Sum.inr id ∈ matchListing less false l discard collection t.root) (hid : id.name = name) :
    Ended l collection t i id := by
  rw [matchListing_eq] at hmem
  obtain hmem | hmem := mem_of_mem_insertAll hmem
  · obtain ⟨id', hadded, heq⟩ := List.mem_map.mp hmem
    obtain rfl := Sum.inr.inj heq
    obtain ⟨j, hj, -, -⟩ := exists_of_mem_added hadded
    have hended := ended_of_getElem? hj
    rwa [index_unique hname (hid ▸ hended.name)]
  · obtain ⟨d, -, heq⟩ := List.mem_map.mp hmem
    cases heq

theorem sorted_matchListing : Sorted less RootEntry.name (matchListing less false l discard collection t.root) := by
  rw [matchListing_eq]
  apply Sorted.insertAll
  have hsorted : Sorted less (fun d : Directory => d.label.name) t.root.children := by
    have hordered := t.ordered
    cases hr : t.root with
    | node n children =>
      rw [hr] at hordered
      obtain ⟨⟨-, hsorted⟩, -⟩ := hordered
      exact hsorted
  exact List.pairwise_map.mpr hsorted

/-- The destinations whose names are separate are all taken in. -/
theorem mem_matchListing (h : NamesSeparate less l discard collection t) {id : DestDir}
    (hadded : id ∈ added less l discard collection t.root) :
    Sum.inr id ∈ matchListing less false l discard collection t.root := by
  have hgets : ∀ {i id}, (walked less false l collection t.root)[i]? = some id → Kept l discard collection i id.name →
      (id.files ≠ [] ∨ id.directories ≠ []) → Gets less l collection t i := fun hi hkept hne =>
    ((ended_of_getElem? hi).holds_iff.mpr ⟨h.files _ _ hkept, h.directories _ _ hkept⟩).gets_iff.mpr hne
  have hnodup : (added less l discard collection t.root).Nodup := by
    have hnames := (prepareDestinationDirectories_spec l collection).2.1
    rw [← map_name_walked less l collection t] at hnames
    exact (List.Nodup.of_map DestDir.name hnames).filter _
  have happ : Apart less RootEntry.name ((added less l discard collection t.root).map Sum.inr) := by
    refine List.pairwise_map.mpr (hnodup.imp_of_mem fun {id id'} hid hid' hne => ?_)
    obtain ⟨i, hi, hkept, hnonempty⟩ := exists_of_mem_added hid
    obtain ⟨j, hj, hkept', hnonempty'⟩ := exists_of_mem_added hid'
    refine h.destinations i id.name j id'.name hkept (hgets hi hkept hnonempty) hkept' (hgets hj hkept' hnonempty')
      fun hij => hne ?_
    rw [hij, hj] at hi
    exact (Option.some.inj hi).symm
  have hroot : ∀ x ∈ (added less l discard collection t.root).map Sum.inr,
      ∀ y ∈ (t.root.children.map Sum.inl : List RootEntry), ¬Tie less y.name (RootEntry.name x) := by
    intro x hx y hy
    obtain ⟨id, hid, rfl⟩ := List.mem_map.mp hx
    obtain ⟨d, hd, rfl⟩ := List.mem_map.mp hy
    obtain ⟨i, hi, hkept, hnonempty⟩ := exists_of_mem_added hid
    exact h.root i id.name hkept (hgets hi hkept hnonempty) d hd
  rw [matchListing_eq]
  exact (insertAll_perm happ hroot).mem_iff.mpr (List.mem_append_left _ (List.mem_map_of_mem hadded))

theorem right_of_namesSeparate (h : NamesSeparate less l discard collection t) :
    Right less l discard collection t (matchListing less false l discard collection t.root) := by
  constructor
  · intro i name hkept id hmem hid
    exact (ended_of_mem hkept.1 hmem hid).holds_iff.mpr ⟨h.files i name hkept, h.directories i name hkept⟩
  · intro i name hkept hgets
    obtain ⟨id, hi, rfl⟩ := exists_walked less t hkept.1
    have hholds := (ended_of_getElem? hi).holds_iff.mpr ⟨h.files i _ hkept, h.directories i _ hkept⟩
    have hadded : id ∈ added less l discard collection t.root :=
      mem_added.mpr ⟨List.mem_of_getElem? hi, hholds.gets_iff.mp hgets, hkept.2⟩
    exact ⟨id, mem_matchListing h hadded, rfl⟩

theorem namesSeparate_of_right
    (h : Right less l discard collection t (matchListing less false l discard collection t.root)) :
    NamesSeparate less l discard collection t := by
  -- A destination that gets something is there with all of it; one that gets nothing has no names.
  have hseparate : ∀ i name, Kept l discard collection i name →
      Separate less DirectoryListing.File.name (filesOf less l collection t i) ∧
        Separate less AdlNode.key (directoriesOf less l collection t i) := by
    intro i name hkept
    by_cases hgets : Gets less l collection t i
    · obtain ⟨id, hmem, hid⟩ := h.there i name hkept hgets
      exact (ended_of_mem hkept.1 hmem hid).holds_iff.mp (h.holds i name hkept id hmem hid)
    · obtain ⟨hfiles, hdirectories⟩ := not_or.mp hgets
      rw [not_not.mp hfiles, not_not.mp hdirectories]
      have hnil : ∀ {α : Type} (key : α → Bytes), Separate less key [] := fun key =>
        ⟨fun x hx => absurd hx List.not_mem_nil, List.Pairwise.nil⟩
      exact ⟨hnil _, hnil _⟩
  have happ : Apart less RootEntry.name (matchListing less false l discard collection t.root) :=
    sorted_matchListing.apart
  refine ⟨fun i name hkept => (hseparate i name hkept).1, fun i name hkept => (hseparate i name hkept).2, ?_, ?_⟩
  · intro i name j name' hkept hgets hkept' hgets' hij
    obtain ⟨id, hmem, rfl⟩ := h.there i name hkept hgets
    obtain ⟨id', hmem', rfl⟩ := h.there j name' hkept' hgets'
    refine happ.forall hmem hmem' fun heq => hij ?_
    exact index_unique hkept.1 (Sum.inr.inj heq ▸ hkept'.1)
  · intro i name hkept hgets d hd
    obtain ⟨id, hmem, rfl⟩ := h.there i name hkept hgets
    have hroot : Sum.inl d ∈ matchListing less false l discard collection t.root := by
      rw [matchListing_eq]
      exact mem_insertAll_of_mem (List.mem_map_of_mem hd) _
    exact happ.forall hroot hmem fun heq => by cases heq

/-- A search that does not break on the first match leaves no destination in a directory. It leaves in each that is
kept what its searches match, every file once and every outermost directory with all that is in it, and nothing else,
if and only if the names are separate. -/
theorem matchListing_right_iff (less : Bytes → Bytes → Prop) [DecidableRel less] [IsStrictWeakOrder Bytes less]
    (l : Util.Locale) (discard : Bytes) (collection : List ADLSearch) (t : ListingTree less) :
    (prepareDestinationDirectories l collection).1.map Prod.fst = collection ∧
      (∀ s ∈ (prepareDestinationDirectories l collection).1,
        Assigned l (prepareDestinationDirectories l collection).2 s) ∧
      (∀ id ∈ walked less false l collection t.root, id.subdir = []) ∧
      (Right less l discard collection t (matchListing less false l discard collection t.root) ↔
        NamesSeparate less l discard collection t) := by
  obtain ⟨-, -, hfst, hassigned⟩ := prepareDestinationDirectories_spec l collection
  refine ⟨hfst, hassigned, fun id hmem => ?_, namesSeparate_of_right, right_of_namesSeparate⟩
  obtain ⟨i, hi⟩ := List.mem_iff_getElem?.mp hmem
  exact (ended_of_getElem? hi).subdir

end

/-- A search for every file, which goes to the first destination. -/
def everyFile : ADLSearch := ⟨true, .OnlyFile, -1, -1, .SizeBytes, [], fun _ => true⟩

def someFile : DirectoryListing.File := ⟨str "f", 1, Encoder.HashValue.ofBase32 []⟩

/-- A directory with a file. -/
def withFile (name : String) : Directory := .node ⟨str name, true, [someFile]⟩ []

theorem ordered_withFile (name : String) : Ordered (lessBy UInt8.toNat) (withFile name) :=
  .node ⟨List.pairwise_singleton _ _, List.Pairwise.nil⟩ fun _ hd => absurd hd List.not_mem_nil

/-- Two directories with a file of one name. -/
def twice : ListingTree (lessBy UInt8.toNat) where
  root := .node ⟨[], true, []⟩ [withFile "a", withFile "b"]
  ordered := by
    refine .node ⟨List.Pairwise.nil, List.pairwise_pair.mpr (by decide)⟩ fun d hd => ?_
    obtain rfl | rfl := List.mem_pair.mp hd
    · exact ordered_withFile "a"
    · exact ordered_withFile "b"
  root_name := rfl

def once : ListingTree (lessBy UInt8.toNat) where
  root := .node ⟨[], true, []⟩ [withFile "a"]
  ordered := by
    refine .node ⟨List.Pairwise.nil, List.pairwise_singleton _ _⟩ fun d hd => ?_
    obtain rfl := List.mem_singleton.mp hd
    exact ordered_withFile "a"
  root_name := rfl

theorem kept_zero : Kept Util.ascii (str "Discard") [everyFile] 0 (str "ADLSearch") := ⟨rfl, by decide +kernel⟩

theorem kept_everyFile {i : Nat} {name : Bytes} (h : Kept Util.ascii (str "Discard") [everyFile] i name) :
    i = 0 ∧ name = str "ADLSearch" := by
  have hlt : i < 1 := (List.getElem?_eq_some_iff.mp h.1).1
  obtain rfl : i = 0 := by omega
  exact ⟨rfl, (Option.some.inj h.1).symm⟩

theorem matchListing_right_iff_once : Right (lessBy UInt8.toNat) Util.ascii (str "Discard") [everyFile] once
    (matchListing (lessBy UInt8.toNat) false Util.ascii (str "Discard") [everyFile] once.root) := by
  refine (matchListing_right_iff _ _ _ _ _).2.2.2.mpr ⟨?_, ?_, ?_, ?_⟩
  · intro i name hkept
    obtain ⟨rfl, rfl⟩ := kept_everyFile hkept
    have hfiles : filesOf _ Util.ascii [everyFile] once 0 = [someFile] := rfl
    rw [hfiles]
    exact ⟨fun f hf => by
      obtain rfl := List.mem_singleton.mp hf
      decide, List.pairwise_singleton _ _⟩
  · intro i name hkept
    obtain ⟨rfl, rfl⟩ := kept_everyFile hkept
    have hdirectories : directoriesOf _ Util.ascii [everyFile] once 0 = [] := rfl
    rw [hdirectories]
    exact ⟨fun d hd => absurd hd List.not_mem_nil, List.Pairwise.nil⟩
  · intro i name j name' hkept _ hkept' _ hij
    exact absurd ((kept_everyFile hkept).1.trans (kept_everyFile hkept').1.symm) hij
  · intro i name hkept _ d hd
    obtain ⟨rfl, rfl⟩ := kept_everyFile hkept
    obtain rfl := List.mem_singleton.mp hd
    decide

/-- Of two files of one name, in different directories, the destination has one. -/
theorem not_matchListing_right : ¬Right (lessBy UInt8.toNat) Util.ascii (str "Discard") [everyFile] twice
    (matchListing (lessBy UInt8.toNat) false Util.ascii (str "Discard") [everyFile] twice.root) := by
  intro h
  have happ := ((namesSeparate_of_right h).files 0 _ kept_zero).2
  have hfiles : filesOf _ Util.ascii [everyFile] twice 0 = [someFile, someFile] := rfl
  rw [hfiles] at happ
  exact (List.pairwise_cons.mp happ).1 someFile (List.mem_singleton_self _) (Tie.refl _)

end Dcpp.ADLSearchManager
