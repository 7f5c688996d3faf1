import Dcpp.DirectoryListing
import Mathlib.Data.Finset.Basic

namespace Dcpp.DirectoryListing

open Encoder

/-- `TTHSet` -/
abbrev TTHSet := Finset Encoder.HashValue

mutual

/-- `filterList` -/
def filterList (l : TTHSet) : Directory → Directory
  | .node n ds => .node { n with files := n.files.filter fun f => f.tth ∉ l } (filterDirectories l ds)

/-- The loop over the directories, which erases those that the filter has left empty. -/
def filterDirectories (l : TTHSet) : List Directory → List Directory
  | [] => []
  | d :: ds =>
    let d := filterList l d
    if d.children.isEmpty && d.label.files.isEmpty then filterDirectories l ds else d :: filterDirectories l ds

end

mutual

/-- `getHashList` -/
def getHashList (l : TTHSet) : Directory → TTHSet
  | .node n ds => n.files.foldl (fun l f => insert f.tth l) (getHashLists l ds)

def getHashLists (l : TTHSet) : List Directory → TTHSet
  | [] => l
  | d :: ds => getHashLists (getHashList l d) ds

end

/-- `filterList` with a whole listing -/
def filterListing (dirList : Listing) (d : Directory) : Directory := filterList (getHashList ∅ dirList.root) d

mutual

/-- The files of a tree, each with the directories on the way to it. -/
def files : Directory → List (List Bytes × File)
  | .node n ds => filesOf ds ++ n.files.map fun f => ([], f)

def filesOf : List Directory → List (List Bytes × File)
  | [] => []
  | d :: ds => (files d).map (fun x => (d.label.name :: x.1, x.2)) ++ filesOf ds

end

mutual

/-- The directories below the root of a tree, each with those on the way to it and its own name last. -/
def directories : Directory → List (List Bytes × Directory)
  | .node _ ds => directoriesOf ds

def directoriesOf : List Directory → List (List Bytes × Directory)
  | [] => []
  | d :: ds => ([d.label.name], d) :: (directories d).map (fun x => (d.label.name :: x.1, x.2)) ++ directoriesOf ds

end

/-- Some file in the tree is not in the set. -/
def HasOther (l : TTHSet) (d : Directory) : Prop := ∃ x ∈ files d, x.2.tth ∉ l

instance (l : TTHSet) (d : Directory) : Decidable (HasOther l d) :=
  inferInstanceAs (Decidable (∃ x ∈ files d, x.2.tth ∉ l))

variable (l : TTHSet)

theorem filterList_eq (d : Directory) :
    filterList l d = .node { d.label with files := d.label.files.filter fun f => f.tth ∉ l }
      (filterDirectories l d.children) := by
  obtain ⟨n, ds⟩ := d
  rw [filterList, Tree.label_node, Tree.children_node]

@[simp] theorem name_filterList (d : Directory) : (filterList l d).label.name = d.label.name := by
  rw [filterList_eq, Tree.label_node]

theorem files_eq (d : Directory) : files d = filesOf d.children ++ d.label.files.map fun f => ([], f) := by
  obtain ⟨n, ds⟩ := d
  rw [files, Tree.label_node, Tree.children_node]

/-- A directory is kept if there are files left in it, or directories. -/
theorem filterDirectories_cons (d : Directory) (ds : List Directory) :
    filterDirectories l (d :: ds) =
      if (filterList l d).children = [] ∧ (filterList l d).label.files = [] then filterDirectories l ds
      else filterList l d :: filterDirectories l ds := by
  rw [filterDirectories]
  simp only [Bool.and_eq_true, List.isEmpty_iff]

/-- A tree with something in it has a file, when this is so of all in it. -/
def Filled (d : Directory) : Prop := files d = [] → d.children = [] ∧ d.label.files = []

theorem filesOf_filterDirectories_of (ds : List Directory)
    (h : ∀ d ∈ ds, files (filterList l d) = (files d).filter (fun x => x.2.tth ∉ l)) :
    filesOf (filterDirectories l ds) = (filesOf ds).filter (fun x => x.2.tth ∉ l) := by
  induction ds with
  | nil => rw [filterDirectories, filesOf, List.filter_nil]
  | cons d ds ih =>
    have hd := h d List.mem_cons_self
    have ih := ih fun d' hd' => h d' (List.mem_cons_of_mem _ hd')
    have hmap : ((files d).map fun x => (d.label.name :: x.1, x.2)).filter (fun x => x.2.tth ∉ l) =
        (files (filterList l d)).map fun x => (d.label.name :: x.1, x.2) := by
      rw [hd, List.filter_map]
      rfl
    rw [filterDirectories_cons, filesOf, List.filter_append, hmap, ← ih]
    split
    next hempty =>
      rw [files_eq, hempty.1, hempty.2, filesOf]
      rfl
    next => rw [filesOf, name_filterList]

/-- What is left are the files that are not in the set, where they were. -/
theorem files_filterList (d : Directory) : files (filterList l d) = (files d).filter (fun x => x.2.tth ∉ l) := by
  induction d using Tree.induction with
  | h n ds ih =>
    rw [filterList, files, files, filesOf_filterDirectories_of l ds ih, List.filter_append, List.filter_map]
    rfl

/-- A filtered tree without files has no directories. -/
theorem filled_filterList (d : Directory) : Filled (filterList l d) := by
  induction d using Tree.induction with
  | h n ds ih =>
    intro h
    rw [filterList, files] at h
    obtain ⟨hds, hfiles⟩ := List.append_eq_nil_iff.mp h
    rw [filterList]
    refine ⟨?_, List.map_eq_nil_iff.mp hfiles⟩
    rw [Tree.children_node]
    clear h hfiles
    induction ds with
    | nil => rw [filterDirectories]
    | cons d ds ihds =>
      rw [filterDirectories_cons] at hds ⊢
      split
      next hempty =>
        rw [if_pos hempty] at hds
        exact ihds (fun d' hd' => ih d' (List.mem_cons_of_mem _ hd')) hds
      next hfull =>
        rw [if_neg hfull, filesOf] at hds
        obtain ⟨hd, _⟩ := List.append_eq_nil_iff.mp hds
        exact absurd (ih d List.mem_cons_self (List.map_eq_nil_iff.mp hd)) hfull

/-- The filter leaves nothing of a directory just when every file below it is in the set. -/
theorem filterList_empty_iff (d : Directory) :
    ((filterList l d).children = [] ∧ (filterList l d).label.files = []) ↔ ¬HasOther l d := by
  have hnil : files (filterList l d) = [] ↔ ¬HasOther l d := by
    rw [files_filterList, List.filter_eq_nil_iff, HasOther]
    simp
  rw [← hnil]
  refine ⟨fun ⟨hds, hfiles⟩ => ?_, filled_filterList l d⟩
  rw [files_eq, hds, hfiles, filesOf]
  rfl

theorem filterDirectories_eq (ds : List Directory) :
    filterDirectories l ds = (ds.filter fun d => HasOther l d).map (filterList l) := by
  induction ds with
  | nil => rw [filterDirectories, List.filter_nil, List.map_nil]
  | cons d ds ih =>
    rw [filterDirectories_cons, List.filter_cons]
    by_cases h : HasOther l d
    · rw [if_neg fun he => (filterList_empty_iff l d).mp he h, if_pos (decide_eq_true h), List.map_cons, ih]
    · rw [if_pos ((filterList_empty_iff l d).mpr h), if_neg (by simpa using h), ih]

theorem mem_filesOf {ds : List Directory} {x : List Bytes × File} :
    x ∈ filesOf ds ↔ ∃ d ∈ ds, ∃ y ∈ files d, (d.label.name :: y.1, y.2) = x := by
  induction ds with
  | nil => simp [filesOf]
  | cons d ds ih => rw [filesOf, List.mem_append, List.mem_map, ih, List.exists_mem_cons_iff]

theorem mem_directoriesOf {ds : List Directory} {x : List Bytes × Directory} :
    x ∈ directoriesOf ds ↔
      ∃ d ∈ ds, ([d.label.name], d) = x ∨ ∃ y ∈ directories d, (d.label.name :: y.1, y.2) = x := by
  induction ds with
  | nil => simp [directoriesOf]
  | cons d ds ih =>
    rw [directoriesOf, List.mem_append, List.mem_cons, List.mem_map, ih, List.exists_mem_cons_iff, eq_comm]

/-- A directory with a file that is left is kept together with those above it. -/
theorem hasOther_of_mem_directories {d : Directory} {x : List Bytes × Directory} (hx : x ∈ directories d)
    (h : HasOther l x.2) : HasOther l d := by
  induction d using Tree.induction generalizing x with
  | h n ds ih =>
    have hup : ∀ d ∈ ds, HasOther l d → HasOther l (.node n ds) := fun d hd ⟨y, hy, hyl⟩ => by
      refine ⟨(d.label.name :: y.1, y.2), ?_, hyl⟩
      rw [files]
      exact List.mem_append_left _ (mem_filesOf.mpr ⟨d, hd, y, hy, rfl⟩)
    rw [directories] at hx
    obtain ⟨d, hd, rfl | ⟨y, hy, rfl⟩⟩ := mem_directoriesOf.mp hx
    · exact hup _ hd h
    · exact hup d hd (ih d hd hy h)

/-- The directories that are left are those below which a file is left, where they were. -/
theorem directories_filterList (d : Directory) :
    directories (filterList l d) =
      ((directories d).filter fun x => HasOther l x.2).map fun x => (x.1, filterList l x.2) := by
  induction d using Tree.induction with
  | h n ds ih =>
    rw [filterList, directories, directories, filterDirectories_eq]
    induction ds with
    | nil => rfl
    | cons d ds ihds =>
      have hd := ih d List.mem_cons_self
      have ihds := ihds fun d' hd' => ih d' (List.mem_cons_of_mem _ hd')
      have hmap : (((directories d).map fun x => (d.label.name :: x.1, x.2)).filter fun x => HasOther l x.2).map
          (fun x => (x.1, filterList l x.2)) =
          (directories (filterList l d)).map fun x => (d.label.name :: x.1, x.2) := by
        rw [hd, List.filter_map, List.map_map, List.map_map]
        rfl
      rw [directoriesOf, List.cons_append, List.filter_cons, List.filter_cons, List.filter_append]
      by_cases h : HasOther l d
      · rw [if_pos (decide_eq_true h), if_pos (decide_eq_true h), List.map_cons, directoriesOf, List.map_cons,
          List.map_append, hmap, ihds, name_filterList, List.cons_append]
      · have hnone : ((directories d).map fun x => (d.label.name :: x.1, x.2)).filter
            (fun x => HasOther l x.2) = [] := by
          refine List.filter_eq_nil_iff.mpr fun x hx hother => ?_
          obtain ⟨y, hy, rfl⟩ := List.mem_map.mp hx
          exact h (hasOther_of_mem_directories l hy (of_decide_eq_true hother))
        rw [if_neg (by simpa using h), if_neg (by simpa using h), hnone, List.nil_append, ihds]

theorem hasOther_filterList (d : Directory) : HasOther l (filterList l d) ↔ HasOther l d := by
  rw [HasOther, HasOther, files_filterList]
  simp

theorem filterList_filterList (d : Directory) : filterList l (filterList l d) = filterList l d := by
  induction d using Tree.induction with
  | h n ds ih =>
    have hds : filterDirectories l (filterDirectories l ds) = filterDirectories l ds := by
      rw [filterDirectories_eq l ds, filterDirectories_eq, List.filter_map, List.map_map]
      simp only [Function.comp_def, hasOther_filterList, List.filter_filter, Bool.and_self]
      exact List.map_congr_left fun d hd => ih d (List.mem_filter.mp hd).1
    rw [filterList, filterList, hds]
    simp only [List.filter_filter, Bool.and_self]

/-- The files of the set are gone, every other file is where it was, a directory is still there just when a file
is left below it, and the filter finds nothing more to do. -/
theorem filterList_spec (d : Directory) :
    files (filterList l d) = (files d).filter (fun x => x.2.tth ∉ l) ∧
      directories (filterList l d) =
        ((directories d).filter fun x : List Bytes × Directory => ∃ y ∈ files x.2, y.2.tth ∉ l).map (fun x => (x.1, filterList l x.2)) ∧
      filterList l (filterList l d) = filterList l d :=
  ⟨files_filterList l d, directories_filterList l d, filterList_filterList l d⟩

theorem mem_getHashList (d : Directory) (t : Encoder.HashValue) :
    t ∈ getHashList l d ↔ t ∈ l ∨ ∃ x ∈ files d, x.2.tth = t := by
  induction d using Tree.induction generalizing l with
  | h n ds ih =>
    have hfiles : ∀ (fs : List File) (l : TTHSet),
        t ∈ fs.foldl (fun l f => insert f.tth l) l ↔ t ∈ l ∨ ∃ f ∈ fs, f.tth = t := fun fs l => by
      induction fs generalizing l with
      | nil => simp
      | cons f fs ihfs =>
        rw [List.foldl_cons, ihfs, Finset.mem_insert, List.exists_mem_cons_iff, eq_comm]
        tauto
    have hds : ∀ l : TTHSet, t ∈ getHashLists l ds ↔ t ∈ l ∨ ∃ x ∈ filesOf ds, x.2.tth = t := fun l => by
      induction ds generalizing l with
      | nil => simp [getHashLists, filesOf]
      | cons d ds ihds =>
        rw [getHashLists, ihds fun d' hd' => ih d' (List.mem_cons_of_mem _ hd'), ih d List.mem_cons_self, filesOf]
        simp only [List.mem_append, List.mem_map, or_and_right, exists_or, or_assoc]
        simp
    rw [getHashList, hfiles, hds, files]
    simp only [List.mem_append, List.mem_map, or_and_right, exists_or, or_assoc]
    simp

/-- Filtered with a listing, a tree has the files that the listing does not have. -/
theorem mem_files_filterListing (dirList : Listing) (d : Directory) (x : List Bytes × File) :
    x ∈ files (filterListing dirList d) ↔ x ∈ files d ∧ ∀ y ∈ files dirList.root, y.2.tth ≠ x.2.tth := by
  rw [filterListing, files_filterList, List.mem_filter, decide_eq_true_eq, mem_getHashList]
  simp

end Dcpp.DirectoryListing
