import Mathlib.Data.Multiset.UnionInter
import Dcpp.ShareIndex

-- The files of a share and their addresses, when trees are built, merged and changed.
namespace Dcpp.ShareManager

open Directory

namespace Directory

variable (p : Platform) (c : Settings)

/-- The addresses of the files. -/
def ids (files : List File) : Multiset Nat := files.map File.id

theorem ids_cons (f : File) (files : List File) : ids (f :: files) = f.id ::ₘ ids files := rfl

theorem ids_append (files files' : List File) : ids (files ++ files') = ids files + ids files' := by
  rw [ids, List.map_append]
  exact (Multiset.coe_add _ _).symm

theorem allFiles_node (d : DirectoryNode) (directories : List Directory) :
    allFiles (.node d directories) = allFilesOf directories ++ d.files := by
  rw [allFiles]

theorem allFilesOf_append (ds ds' : List Directory) : allFilesOf (ds ++ ds') = allFilesOf ds ++ allFilesOf ds' := by
  induction ds with
  | nil => rw [allFilesOf, List.nil_append, List.nil_append]
  | cons d ds ih => rw [List.cons_append, allFilesOf, allFilesOf, ih, List.append_assoc]

theorem allFilesOf_singleton (d : Directory) : allFilesOf [d] = allFiles d := by
  rw [allFilesOf, allFilesOf, List.append_nil]

theorem mem_allFilesOf {ds : List Directory} {f : File} : f ∈ allFilesOf ds ↔ ∃ d ∈ ds, f ∈ allFiles d := by
  induction ds with
  | nil => simp [allFilesOf]
  | cons d ds ih => rw [allFilesOf, List.mem_append, ih, List.exists_mem_cons_iff]

theorem allFiles_setFiles (files : List File) (dir : Directory) :
    allFiles (setFiles files dir) = allFilesOf dir.children ++ files := by
  obtain ⟨d, ds⟩ := dir
  exact allFiles_node _ _

theorem allFiles_setChildren (ds : List Directory) (dir : Directory) :
    allFiles (setChildren ds dir) = allFilesOf ds ++ dir.label.files := by
  obtain ⟨d, ds'⟩ := dir
  exact allFiles_node _ _

theorem allFiles_eq (dir : Directory) : allFiles dir = allFilesOf dir.children ++ dir.label.files := by
  obtain ⟨d, ds⟩ := dir
  exact allFiles_node _ _

theorem validateName_id (dir : Directory) (sourcePath : Bytes) (f : File) : (validateName p dir sourcePath f).id = f.id := by
  rw [validateName]
  split <;> rfl

theorem validateName_tth (dir : Directory) (sourcePath : Bytes) (f : File) :
    (validateName p dir sourcePath f).tth = f.tth := by
  rw [validateName]
  split <;> rfl

/-- The set has the file afterwards, or had one that is equal to it. -/
theorem insertFile_perm (f : File) (files : List File) :
    (insertFile p f files).Perm (f :: files) ∨ insertFile p f files = files := by
  induction files with
  | nil => exact Or.inl (List.Perm.refl _)
  | cons g files ih =>
    rw [insertFile]
    split
    next => exact Or.inl (List.Perm.refl _)
    next =>
      split
      next =>
        obtain h | h := ih
        · exact Or.inl ((h.cons g).trans (List.Perm.swap f g files))
        · exact Or.inr (by rw [h])
      next => exact Or.inr rfl

theorem ids_insertFile_le (f : File) (files : List File) : ids (insertFile p f files) ≤ f.id ::ₘ ids files := by
  obtain h | h := insertFile_perm p f files
  · exact (Multiset.coe_eq_coe.mpr (h.map File.id)).le
  · rw [h]
    exact Multiset.le_cons_self _ _

theorem ids_addFile_le (sourcePath : Bytes) (dir : Directory) (f : File) :
    ids (allFiles (addFile p sourcePath dir f)) ≤ f.id ::ₘ ids (allFiles dir) := by
  have h := ids_insertFile_le p (validateName p dir sourcePath f) dir.label.files
  rw [validateName_id] at h
  rw [addFile, allFiles_setFiles, allFiles_eq dir, ids_append, ids_append, ← Multiset.add_cons]
  exact Multiset.add_le_add_left h

theorem ids_addFiles_le (sourcePath : Bytes) (files : List File) (dir : Directory) :
    ids (allFiles (files.foldl (addFile p sourcePath) dir)) ≤ ids (allFiles dir) + ids files := by
  induction files generalizing dir with
  | nil => exact (Multiset.add_zero _).ge
  | cons f files ih =>
    refine (ih _).trans ?_
    rw [ids_cons, Multiset.add_cons, ← Multiset.cons_add]
    exact Multiset.add_le_add_right (ids_addFile_le p sourcePath dir f)

theorem ids_renameFile (rp : Bytes → Option Bytes) (name : Bytes) (target : Directory) :
    ids (allFiles (renameFile p rp name target).1) = ids (allFiles target) := by
  rw [renameFile]
  split
  next => rfl
  next f hf =>
    split
    next => rfl
    next realPath _ =>
      obtain ⟨l₁, l₂, hfiles, hm⟩ := Keyed.modifyFirst_of_find? hf
        fun _ => validateName p target (Util.getFilePath realPath) f
      rw [allFiles_setFiles, hm, allFiles_eq target, hfiles, ids_append, ids_append, ids_append, ids_append, ids_cons,
        ids_cons, validateName_id]

/-- A directory takes the place of the one that is found. -/
theorem ids_modifyFirst_le {q : Directory → Bool} {ds : List Directory} {d d' : Directory} {m : Multiset Nat}
    (h : ds.find? q = some d) (hle : ids (allFiles d') ≤ ids (allFiles d) + m) :
    ids (allFilesOf (Keyed.modifyFirst q (fun _ => d') ds)) ≤ ids (allFilesOf ds) + m := by
  obtain ⟨l₁, l₂, rfl, hm⟩ := Keyed.modifyFirst_of_find? h fun _ => d'
  rw [hm, allFilesOf_append, allFilesOf_append, allFilesOf, allFilesOf, ids_append, ids_append, ids_append, ids_append,
    Multiset.add_assoc, Multiset.add_assoc, Multiset.add_comm (ids (allFilesOf l₂)) m, ← Multiset.add_assoc (ids (allFiles d))]
  exact Multiset.add_le_add_left (Multiset.add_le_add_right hle)

mutual

/-- A merge adds no address. -/
theorem ids_merge_le (rp : Bytes → Option Bytes) (target : Directory) (realPath : Bytes) (source : Directory) :
    ids (allFiles (merge p rp target realPath source).1) ≤ ids (allFiles target) + ids (allFiles source) := by
  obtain ⟨d, directories⟩ := source
  have hsub := ids_mergeDirectories_le rp target realPath directories
  rw [merge, allFiles_node, ids_append, ← Multiset.add_assoc]
  split
  next => exact hsub.trans (Multiset.le_add_right _ _)
  next => exact (ids_addFiles_le p realPath d.files _).trans (Multiset.add_le_add_right hsub)

theorem ids_mergeDirectories_le (rp : Bytes → Option Bytes) (target : Directory) (realPath : Bytes)
    (directories : List Directory) :
    ids (allFiles (mergeDirectories p rp target realPath directories).1) ≤
      ids (allFiles target) + ids (allFilesOf directories) := by
  cases directories with
  | nil =>
    rw [mergeDirectories]
    exact Multiset.le_add_right _ _
  | cons source rest =>
    obtain ⟨d, directories⟩ := source
    rw [mergeDirectories, allFilesOf, ids_append, ← Multiset.add_assoc]
    dsimp only
    have hone : ∀ r : Directory × Bool, ids (allFiles r.1) ≤ ids (allFiles target) + ids (allFiles (.node d directories)) →
        ids (allFiles (if r.2 then r else mergeDirectories p rp r.1 realPath rest).1) ≤
          ids (allFiles target) + ids (allFiles (.node d directories)) + ids (allFilesOf rest) := by
      intro r hr
      split
      next => exact hr.trans (Multiset.le_add_right _ _)
      next => exact (ids_mergeDirectories_le rp r.1 realPath rest).trans (Multiset.add_le_add_right hr)
    apply hone
    split
    next =>
      rw [ids_renameFile, allFiles_setChildren, allFilesOf_append, allFilesOf_singleton, allFiles_eq target, ids_append,
        ids_append, ids_append, Multiset.add_assoc, Multiset.add_assoc, Multiset.add_comm (ids target.label.files)]
    next subTarget hfind =>
      have hmerge := ids_merge_le (subPath rp subTarget.label) subTarget (realPath ++ d.name ++ [byte '/'])
        (.node d directories)
      have hle := ids_modifyFirst_le hfind hmerge
      rw [allFiles_setChildren, allFiles_eq target, ids_append, ids_append, Multiset.add_assoc,
        Multiset.add_comm (ids target.label.files), ← Multiset.add_assoc]
      exact Multiset.add_le_add_right hle

end

mutual

/-- The addresses that are given are the next ones. -/
theorem allocate_ids (n : Nat) (dir : Directory) :
    (allFiles (allocate n dir)).map File.id = List.range' n (allFiles dir).length := by
  obtain ⟨d, directories⟩ := dir
  have hfiles : (d.files.mapIdx fun i f => { f with id := n + (allFilesOf directories).length + i }).map File.id =
      List.range' (n + (allFilesOf directories).length) d.files.length := by
    refine List.ext_getElem (by simp) fun i _ _ => ?_
    simp
  rw [allocate, allFiles_node, allFiles_node, List.map_append, allocateList_ids n directories, hfiles,
    List.length_append, List.range'_append_1]

theorem allocateList_ids (n : Nat) (directories : List Directory) :
    (allFilesOf (allocateList n directories)).map File.id = List.range' n (allFilesOf directories).length := by
  cases directories with
  | nil => rw [allocateList, allFilesOf]; rfl
  | cons d directories =>
    rw [allocateList, allFilesOf, allFilesOf, List.map_append, allocate_ids n d, allocateList_ids _ directories,
      List.length_append, List.range'_append_1]

end

/-- At most the one file has been added. -/
def Gains (f : File) (files files' : List File) : Prop := files'.Perm (f :: files) ∨ files'.Perm files

theorem mem_of_gains {f g : File} {files files' : List File} (h : Gains f files files') (hg : g ∈ files') :
    g = f ∨ g ∈ files := by
  obtain h | h := h
  · exact List.mem_cons.mp (h.mem_iff.mp hg)
  · exact Or.inr (h.mem_iff.mp hg)

theorem gains_append_left {f : File} {files files' : List File} (h : Gains f files files') (l : List File) :
    Gains f (l ++ files) (l ++ files') := by
  obtain h | h := h
  · exact Or.inl ((h.append_left l).trans List.perm_middle)
  · exact Or.inr (h.append_left l)

theorem gains_append_right {f : File} {files files' : List File} (h : Gains f files files') (l : List File) :
    Gains f (files ++ l) (files' ++ l) := by
  obtain h | h := h
  · exact Or.inl (h.append_right l)
  · exact Or.inr (h.append_right l)

theorem gains_addFile (sourcePath : Bytes) (dir : Directory) (f : File) :
    Gains (validateName p dir sourcePath f) (allFiles dir) (allFiles (addFile p sourcePath dir f)) := by
  rw [addFile, allFiles_setFiles, allFiles_eq dir]
  apply gains_append_left
  obtain h | h := insertFile_perm p (validateName p dir sourcePath f) dir.label.files
  · exact Or.inl h
  · rw [h]
    exact Or.inr (List.Perm.refl _)

theorem gains_modifyFirst {q : Directory → Bool} {g : Directory → Directory} {ds : List Directory} {d : Directory}
    {f : File} (h : ds.find? q = some d) (hg : Gains f (allFiles d) (allFiles (g d))) :
    Gains f (allFilesOf ds) (allFilesOf (Keyed.modifyFirst q g ds)) := by
  obtain ⟨l₁, l₂, rfl, hm⟩ := Keyed.modifyFirst_of_find? h g
  rw [hm, allFilesOf_append, allFilesOf_append, allFilesOf, allFilesOf]
  exact gains_append_left (gains_append_right hg _) _

/-- A file that comes into the directory at the end of the way comes into the tree. -/
theorem gains_modifyBelow {g : Directory → Directory} {f : File} {names : List Bytes} {dir d : Directory}
    (h : descend names dir = some d) (hg : Gains f (allFiles d) (allFiles (g d))) :
    Gains f (allFiles dir) (allFiles (modifyBelow g names dir)) := by
  induction names generalizing dir with
  | nil =>
    obtain rfl := Option.some.inj h
    exact hg
  | cons name names ih =>
    obtain ⟨sub, hsub, h⟩ := Option.bind_eq_some_iff.mp h
    rw [modifyBelow, allFiles_setChildren, allFiles_eq dir]
    exact gains_append_right (gains_modifyFirst hsub (ih h)) _

theorem descend_subset {names : List Bytes} {dir d : Directory} (h : descend names dir = some d) :
    allFiles d ⊆ allFiles dir := by
  induction names generalizing dir with
  | nil =>
    obtain rfl := Option.some.inj h
    exact List.Subset.refl _
  | cons name names ih =>
    obtain ⟨sub, hsub, h⟩ := Option.bind_eq_some_iff.mp h
    intro f hf
    rw [allFiles_eq dir]
    exact List.mem_append_left _ (mem_allFilesOf.mpr ⟨sub, List.mem_of_find?_eq_some hsub, ih h hf⟩)

mutual

theorem allFiles_mapFiles (g : File → File) (dir : Directory) : allFiles (mapFiles g dir) = (allFiles dir).map g := by
  obtain ⟨d, directories⟩ := dir
  rw [mapFiles, allFiles_node, allFiles_node, List.map_append, allFilesOf_mapFilesOf g directories]

theorem allFilesOf_mapFilesOf (g : File → File) (directories : List Directory) :
    allFilesOf (mapFilesOf g directories) = (allFilesOf directories).map g := by
  cases directories with
  | nil => rfl
  | cons d directories =>
    rw [mapFilesOf, allFilesOf, allFilesOf, List.map_append, allFiles_mapFiles g d, allFilesOf_mapFilesOf g directories]

end

end Directory

/-- One of the files beside the one that is found is taken only from them. -/
theorem beside_getD_mem {realPath : Bytes} {files files' : List File} {f : File} (hsub : files' ⊆ files)
    (hf : f ∈ files) : (beside realPath files').getD f ∈ files := by
  cases h : beside realPath files' with
  | none => exact hf
  | some g =>
    have hg : g ∈ files'.takeWhile fun f => f.realPath.isSome := List.mem_of_find?_eq_some h
    exact hsub ((List.takeWhile_prefix _).subset hg)

/-- The file that is found is in the share. -/
theorem getFile_mem {p : Platform} {s : Share} {realPath : Bytes} {f : File} (h : getFile p s realPath = some f) :
    f ∈ allFilesOf s.directories := by
  obtain ⟨d, hd, h⟩ := Option.bind_eq_some_iff.mp h
  obtain ⟨i, _, hd⟩ := Option.bind_eq_some_iff.mp hd
  obtain ⟨root, hroot, hd⟩ := Option.bind_eq_some_iff.mp hd
  have hmem : f ∈ d.label.files := by
    obtain ⟨i, hi, hf⟩ := Option.map_eq_some_iff.mp h
    split at hf
    next => exact hf ▸ List.mem_of_find?_eq_some hi
    next =>
      have hi : i ∈ d.label.files := List.mem_of_find?_eq_some hi
      rw [← hf]
      refine beside_getD_mem ?_ (beside_getD_mem ?_ hi)
      · exact fun g hg => (List.takeWhile_prefix _).subset (List.mem_reverse.mp hg)
      · exact fun g hg => (List.dropWhile_suffix _).subset (List.mem_of_mem_tail hg)
  refine mem_allFilesOf.mpr ⟨root, List.mem_of_find?_eq_some hroot, descend_subset hd ?_⟩
  rw [allFiles_eq d]
  exact List.mem_append_right _ hmem

end Dcpp.ShareManager
