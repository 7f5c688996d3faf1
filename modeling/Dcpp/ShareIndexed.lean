import Dcpp.Library.Runs
import Dcpp.ShareFiles

-- Which files the index of the share has, over the runs of the `ShareManager`.
namespace Dcpp.ShareManager

open Directory

variable (p : Platform) (c : Settings)

/-- The index knows the hashes of the files, and nothing else. -/
structure Indexed (files : List File) (tthIndex : List (Encoder.HashValue × Nat)) : Prop where
  sound : ∀ tth id, lookup tthIndex tth = some id → ∃ f ∈ files, f.id = id ∧ f.tth = some tth
  complete : ∀ f ∈ files, ∀ tth, f.tth = some tth → (lookup tthIndex tth).isSome

theorem lookup_assign_self (tth : Encoder.HashValue) (id : Nat) (tthIndex : List (Encoder.HashValue × Nat)) :
    lookup (Keyed.assign Prod.fst (tth, id) tthIndex) tth = some id := by
  rw [lookup, Keyed.find?_assign_self Prod.fst (tth, id)]
  rfl

theorem lookup_assign_of_ne {tth tth' : Encoder.HashValue} (hne : tth ≠ tth') (id : Nat)
    (tthIndex : List (Encoder.HashValue × Nat)) :
    lookup (Keyed.assign Prod.fst (tth, id) tthIndex) tth' = lookup tthIndex tth' := by
  rw [lookup, Keyed.find?_assign_of_ne Prod.fst hne, lookup]

theorem lookup_erase_self (tth : Encoder.HashValue) (tthIndex : List (Encoder.HashValue × Nat)) :
    lookup (Keyed.erase Prod.fst tth tthIndex) tth = none := by
  rw [lookup, Keyed.find?_erase_self]
  rfl

theorem lookup_erase_of_ne {tth tth' : Encoder.HashValue} (hne : tth' ≠ tth)
    (tthIndex : List (Encoder.HashValue × Nat)) :
    lookup (Keyed.erase Prod.fst tth tthIndex) tth' = lookup tthIndex tth' := by
  rw [lookup, Keyed.find?_erase_of_ne Prod.fst hne, lookup]

namespace Indexed

variable {files files' : List File} {tthIndex : List (Encoder.HashValue × Nat)}

theorem perm (h : Indexed files tthIndex) (hp : files'.Perm files) : Indexed files' tthIndex := by
  constructor
  · intro tth id hid
    obtain ⟨f, hf, hf'⟩ := h.sound tth id hid
    exact ⟨f, hp.mem_iff.mpr hf, hf'⟩
  · exact fun f hf => h.complete f (hp.mem_iff.mp hf)

/-- A file comes to the others whose hash, if it has one, is known. -/
theorem cons (h : Indexed files tthIndex) {f : File} (hf : ∀ tth, f.tth = some tth → (lookup tthIndex tth).isSome) :
    Indexed (f :: files) tthIndex := by
  constructor
  · intro tth id hid
    obtain ⟨g, hg, hg'⟩ := h.sound tth id hid
    exact ⟨g, List.mem_cons_of_mem _ hg, hg'⟩
  · intro g hg
    obtain rfl | hg := List.mem_cons.mp hg
    · exact hf
    · exact h.complete g hg

/-- A file comes to the others and takes the place of what had its hash. -/
theorem cons_assign (h : Indexed files tthIndex) {f : File} {tth : Encoder.HashValue} (hf : f.tth = some tth) :
    Indexed (f :: files) (Keyed.assign Prod.fst (tth, f.id) tthIndex) := by
  constructor
  · intro tth' id hid
    by_cases hne : tth = tth'
    · rw [← hne, lookup_assign_self] at hid
      exact ⟨f, List.mem_cons_self, Option.some.inj hid, hne ▸ hf⟩
    · rw [lookup_assign_of_ne hne] at hid
      obtain ⟨g, hg, hg'⟩ := h.sound tth' id hid
      exact ⟨g, List.mem_cons_of_mem _ hg, hg'⟩
  · intro g hg tth' hg'
    by_cases hne : tth = tth'
    · rw [← hne, lookup_assign_self]
      rfl
    · rw [lookup_assign_of_ne hne]
      obtain rfl | hg := List.mem_cons.mp hg
      · exact absurd (Option.some.inj (hf.symm.trans hg')) hne
      · exact h.complete g hg tth' hg'

/-- A file gets a hash; the key of the one it had is gone, and no other file has had that. -/
theorem rehash (h : Indexed files tthIndex) (hnd : (ids files).Nodup) {f : File} (hf : f ∈ files)
    {root : Encoder.HashValue} {tthIndex' : List (Encoder.HashValue × Nat)}
    (hgone : ∀ tth, tth ≠ root → f.tth = some tth → lookup tthIndex' tth = none)
    (hkept : ∀ tth, tth ≠ root → f.tth ≠ some tth → lookup tthIndex' tth = lookup tthIndex tth)
    (hother : ∀ tth, tth ≠ root → f.tth = some tth → ∀ g ∈ files, g.tth = some tth → g.id = f.id) :
    Indexed (files.map fun g => if g.id = f.id then { g with tth := some root } else g)
      (Keyed.assign Prod.fst (root, f.id) tthIndex') := by
  constructor
  · intro tth id hid
    by_cases hroot : root = tth
    · rw [← hroot, lookup_assign_self] at hid
      refine ⟨_, List.mem_map_of_mem hf, ?_⟩
      rw [if_pos rfl, ← hroot]
      exact ⟨Option.some.inj hid, rfl⟩
    · rw [lookup_assign_of_ne hroot] at hid
      have hne : f.tth ≠ some tth := by
        intro htth
        rw [hgone tth (Ne.symm hroot) htth] at hid
        cases hid
      rw [hkept tth (Ne.symm hroot) hne] at hid
      obtain ⟨g, hg, hgid, hgtth⟩ := h.sound tth id hid
      have hgf : g.id ≠ f.id := by
        intro heq
        rw [List.inj_on_of_nodup_map (Multiset.coe_nodup.mp hnd) hg hf heq] at hgtth
        exact hne hgtth
      refine ⟨_, List.mem_map_of_mem hg, ?_⟩
      rw [if_neg hgf]
      exact ⟨hgid, hgtth⟩
  · intro g' hg' tth htth
    obtain ⟨g, hg, rfl⟩ := List.mem_map.mp hg'
    by_cases hroot : root = tth
    · rw [← hroot, lookup_assign_self]
      rfl
    · rw [lookup_assign_of_ne hroot]
      have hgf : g.id ≠ f.id := by
        intro heq
        rw [if_pos heq] at htth
        exact hroot (Option.some.inj htth)
      rw [if_neg hgf] at htth
      have hne : f.tth ≠ some tth := fun hftth => hgf (hother tth (Ne.symm hroot) hftth g hg htth)
      rw [hkept tth (Ne.symm hroot) hne]
      exact h.complete g hg tth htth

end Indexed

/-- A file without a hash stays; another one is indexed, or is found to be a duplicate. -/
theorem updateFile_cases (ok : Nat → Bool) (f : File) (ix : Indices) :
    f.tth = none ∧ updateFile p c ok f ix = (true, false, ix) ∨
      (∃ tth counts, f.tth = some tth ∧ updateFile p c ok f ix =
        (true, counts, ⟨Keyed.assign Prod.fst (tth, f.id) ix.tthIndex, ix.bloom.add BLOOM (p.toLower f.name)⟩)) ∨
      ∃ tth j, f.tth = some tth ∧ lookup ix.tthIndex tth = some j ∧ c.listDupes = false ∧
        updateFile p c ok f ix = (!(ok f.id && ok j), false, ix) := by
  cases htth : f.tth with
  | none => exact Or.inl ⟨rfl, by rw [updateFile, htth]⟩
  | some tth =>
    cases hl : lookup ix.tthIndex tth with
    | none => exact Or.inr (Or.inl ⟨tth, true, rfl, by simp only [updateFile, htth, hl]⟩)
    | some j =>
      cases hd : c.listDupes with
      | true => exact Or.inr (Or.inl ⟨tth, false, rfl, by simp only [updateFile, htth, hl, hd, if_true]⟩)
      | false =>
        refine Or.inr (Or.inr ⟨tth, j, rfl, hl, rfl, ?_⟩)
        simp only [updateFile, htth, hl, hd, Bool.false_eq_true, if_false]

theorem updateFile_indexed (ok : Nat → Bool) (f : File) {ix : Indices} {files : List File}
    (h : Indexed files ix.tthIndex) :
    Indexed (if (updateFile p c ok f ix).1 then f :: files else files) (updateFile p c ok f ix).2.2.tthIndex := by
  obtain ⟨htth, hr⟩ | ⟨tth, counts, htth, hr⟩ | ⟨tth, j, htth, hl, _, hr⟩ := updateFile_cases p c ok f ix
  · rw [hr]
    refine h.cons fun tth hf => ?_
    rw [htth] at hf
    cases hf
  · rw [hr]
    exact h.cons_assign htth
  · rw [hr]
    dsimp only
    split
    next =>
      refine h.cons fun tth' hf => ?_
      rw [← Option.some.inj (htth.symm.trans hf), hl]
      rfl
    next => exact h

theorem updateFiles_indexed (ok : Nat → Bool) (fs : List File) (size : Int64) {ix : Indices} {files : List File}
    (h : Indexed files ix.tthIndex) :
    Indexed ((updateFiles p c ok fs size ix).1 ++ files) (updateFiles p c ok fs size ix).2.2.tthIndex := by
  induction fs generalizing files size ix with
  | nil => exact h
  | cons f fs ih =>
    have hrest := ih (if (updateFile p c ok f ix).2.1 then size + f.size else size) (updateFile_indexed p c ok f h)
    rw [updateFiles]
    refine hrest.perm ?_
    dsimp only
    split
    next => exact List.perm_middle.symm
    next => exact List.Perm.refl _

mutual

/-- The files that stay come to those that are indexed already. -/
theorem updateIndices_indexed (ok : Nat → Bool) (ix : Indices) {files : List File}
    (h : Indexed files ix.tthIndex) (dir : Directory) :
    Indexed (allFiles (updateIndices p c ok ix dir).1 ++ files) (updateIndices p c ok ix dir).2.tthIndex := by
  obtain ⟨d, directories⟩ := dir
  rw [updateIndices, allFiles_node]
  have hsub := updateDirectories_indexed ok { ix with bloom := ix.bloom.add BLOOM (p.toLower d.name) } h directories
  refine (updateFiles_indexed p c ok d.files 0 hsub).perm ?_
  rw [← List.append_assoc]
  exact List.perm_append_comm.append_right _

theorem updateDirectories_indexed (ok : Nat → Bool) (ix : Indices) {files : List File}
    (h : Indexed files ix.tthIndex) (directories : List Directory) :
    Indexed (allFilesOf (updateDirectories p c ok ix directories).1 ++ files)
      (updateDirectories p c ok ix directories).2.tthIndex := by
  cases directories with
  | nil => exact h
  | cons d directories =>
    rw [updateDirectories, allFilesOf]
    have hd := updateIndices_indexed ok ix h d
    refine (updateDirectories_indexed ok _ hd directories).perm ?_
    rw [← List.append_assoc]
    exact List.perm_append_comm.append_right _

end

theorem indexed_nil : Indexed [] [] := by
  constructor
  · intro tth id h
    cases h
  · intro f hf
    cases hf

theorem rebuildIndices_indexed (found : Bytes → Bool) (s : Share) :
    Indexed (allFilesOf (rebuildIndices p c found s).directories) (rebuildIndices p c found s).indices.tthIndex := by
  have h := updateDirectories_indexed p c (resolves p found s.shares s.directories) ⟨[], s.indices.bloom.clear⟩
    indexed_nil s.directories
  rw [List.append_nil] at h
  exact h

theorem updateFiles_sublist (ok : Nat → Bool) (files : List File) (size : Int64) (ix : Indices) :
    (updateFiles p c ok files size ix).1.Sublist files := by
  induction files generalizing size ix with
  | nil => exact List.Sublist.refl _
  | cons f files ih =>
    rw [updateFiles]
    dsimp only
    split
    next => exact (ih _ _).cons_cons f
    next => exact (ih _ _).cons f

mutual

/-- No file comes to a directory when the indices are rebuilt. -/
theorem updateIndices_sublist (ok : Nat → Bool) (ix : Indices) (dir : Directory) :
    (allFiles (updateIndices p c ok ix dir).1).Sublist (allFiles dir) := by
  obtain ⟨d, directories⟩ := dir
  rw [updateIndices, allFiles_node, allFiles_node]
  exact (updateDirectories_sublist ok _ directories).append (updateFiles_sublist p c ok d.files 0 _)

theorem updateDirectories_sublist (ok : Nat → Bool) (ix : Indices) (directories : List Directory) :
    (allFilesOf (updateDirectories p c ok ix directories).1).Sublist (allFilesOf directories) := by
  cases directories with
  | nil => exact List.Sublist.refl _
  | cons d directories =>
    rw [updateDirectories, allFilesOf, allFilesOf]
    exact (updateIndices_sublist ok ix d).append (updateDirectories_sublist ok _ directories)

end

/-- The addresses differ, and the next one is not among them. -/
structure Fresh (n : Nat) (files : List File) : Prop where
  nodup : (ids files).Nodup
  lt : ∀ id ∈ ids files, id < n

theorem Fresh.mono {n : Nat} {files files' : List File} (h : Fresh n files) (hle : ids files' ≤ ids files) :
    Fresh n files' :=
  ⟨Multiset.nodup_of_le hle h.nodup, fun id hid => h.lt id (Multiset.mem_of_le hle hid)⟩

/-- Files with the next addresses have come to the others. -/
theorem Fresh.add {n : Nat} {files files' : List File} (h : Fresh n files) {m : Nat}
    (hle : ids files' ≤ ids files + ↑(List.range' n m)) : Fresh (n + m) files' := by
  constructor
  · refine Multiset.nodup_of_le hle (Multiset.nodup_add.mpr ⟨h.nodup, ?_, ?_⟩)
    · exact Multiset.coe_nodup.mpr List.nodup_range'
    · refine Multiset.disjoint_left.mpr fun hid hid' => ?_
      have hge := (List.mem_range'_1.mp (Multiset.mem_coe.mp hid')).1
      exact Nat.lt_irrefl _ (Nat.lt_of_lt_of_le (h.lt _ hid) hge)
  · intro id hid
    obtain hid | hid := Multiset.mem_add.mp (Multiset.mem_of_le hle hid)
    · exact Nat.lt_add_right m (h.lt id hid)
    · exact (List.mem_range'_1.mp (Multiset.mem_coe.mp hid)).2

/-- A file with the next address has come to the others, if any has. -/
theorem Fresh.gains {n : Nat} {files files' : List File} (h : Fresh n files) {f : File} (hid : f.id = n)
    (hg : Gains f files files') : Fresh (n + 1) files' := by
  refine h.add (m := 1) ?_
  obtain hperm | hperm := hg
  · rw [ids, Multiset.coe_eq_coe.mpr (hperm.map File.id), List.map_cons, hid, Multiset.add_comm]
    exact le_refl _
  · rw [ids, Multiset.coe_eq_coe.mpr (hperm.map File.id)]
    exact Multiset.le_add_right _ _

/-- A file that gets a hash keeps its address. -/
theorem Fresh.rehash {n : Nat} {files : List File} (h : Fresh n files) (id : Nat) (root : Encoder.HashValue) :
    Fresh n (files.map fun g => if g.id = id then { g with tth := some root } else g) := by
  refine h.mono (le_of_eq ?_)
  rw [ids, ids, List.map_map]
  congr 1
  refine List.map_congr_left fun g _ => ?_
  dsimp only [Function.comp]
  split <;> rfl

theorem ids_le_of_sublist {files files' : List File} (h : files.Sublist files') : ids files ≤ ids files' :=
  Multiset.coe_le.mpr (h.map File.id).subperm

theorem allFilesOf_sublist {ds ds' : List Directory} (h : ds.Sublist ds') :
    (allFilesOf ds).Sublist (allFilesOf ds') := by
  induction h with
  | slnil => exact List.Sublist.refl _
  | cons d _ ih =>
    rw [allFilesOf]
    exact ih.trans (List.sublist_append_right _ _)
  | cons_cons d _ ih =>
    rw [allFilesOf, allFilesOf]
    exact ih.append_left _

theorem mergeRoot_nextId (found : Bytes → Bool) (s : Share) (directory : Directory) (realPath : Bytes) :
    (mergeRoot p found s directory realPath).1.nextId = s.nextId := by
  rw [mergeRoot]
  split <;> rfl

theorem ids_mergeRoot_le (found : Bytes → Bool) (s : Share) (directory : Directory) (realPath : Bytes) :
    ids (allFilesOf (mergeRoot p found s directory realPath).1.directories) ≤
      ids (allFilesOf s.directories) + ids (allFiles directory) := by
  rw [mergeRoot]
  split
  next => rw [allFilesOf_append, allFilesOf_singleton, ids_append]
  next target hfind => exact ids_modifyFirst_le hfind (ids_merge_le p _ _ _ _)

theorem share_fresh {fs : FileSystem} {s : Share} (h : Fresh s.nextId (allFilesOf s.directories))
    (realPath name : Bytes) :
    Fresh (share p c fs s realPath name).1.nextId (allFilesOf (share p c fs s realPath name).1.directories) := by
  have hids := allocate_ids s.nextId (buildTree p c realPath name (fs.entries realPath))
  have hlen := congrArg List.length hids
  rw [List.length_map, List.length_range'] at hlen
  rw [share, mergeRoot_nextId]
  dsimp only
  rw [hlen]
  refine h.add ((ids_mergeRoot_le p _ _ _ _).trans_eq ?_)
  rw [ids, ids, hids]

theorem shareAll_fresh {fs : FileSystem} {s : Share} (h : Fresh s.nextId (allFilesOf s.directories))
    (dirs : List (Bytes × Bytes)) :
    Fresh (shareAll p c fs s dirs).1.nextId (allFilesOf (shareAll p c fs s dirs).1.directories) := by
  induction dirs generalizing s with
  | nil => exact h
  | cons i dirs ih =>
    rw [shareAll]
    split
    next =>
      have hi : Fresh (share p c fs s i.1 i.2).1.nextId _ := share_fresh p c h i.1 i.2
      dsimp only
      split
      next => exact hi
      next => exact ih hi
    next => exact ih h

theorem rebuildIndices_fresh {s : Share} (h : Fresh s.nextId (allFilesOf s.directories)) (found : Bytes → Bool) :
    Fresh (rebuildIndices p c found s).nextId (allFilesOf (rebuildIndices p c found s).directories) :=
  h.mono (ids_le_of_sublist (updateDirectories_sublist p c _ _ s.directories))

theorem added_fresh {fs : FileSystem} {s : Share} (h : Fresh s.nextId (allFilesOf s.directories))
    (realPath virtualName : Bytes) :
    Fresh (added p c fs s realPath virtualName).1.nextId
      (allFilesOf (added p c fs s realPath virtualName).1.directories) :=
  share_fresh p c (s := { s with shares := setShare realPath (validateVirtual virtualName) s.shares }) h _ _

theorem removed_fresh {fs : FileSystem} {s : Share} (h : Fresh s.nextId (allFilesOf s.directories))
    (realPath vName : Bytes) :
    Fresh (removed p c fs s realPath vName).1.nextId (allFilesOf (removed p c fs s realPath vName).1.directories) := by
  rw [removed]
  apply shareAll_fresh
  exact h.mono (ids_le_of_sublist (allFilesOf_sublist List.eraseP_sublist))

/-- The index and the addresses of a share are in order. -/
structure Exact (s : Share) : Prop where
  fresh : Fresh s.nextId (allFilesOf s.directories)
  indexed : Indexed (allFilesOf s.directories) s.indices.tthIndex

theorem start_exact : Exact start :=
  ⟨⟨Multiset.nodup_zero, fun _ h => absurd h (Multiset.notMem_zero _)⟩, indexed_nil⟩

/-- A finished download comes into the directory of its path, if it comes into the share. -/
theorem fileMoved_cases (s : Share) (realPath : Bytes) (size : Option Int64) (tth : Option Encoder.HashValue) :
    fileMoved p c s realPath size tth = s ∨
      ∃ n d, c.addFinishedInstantly = true ∧ size = some n ∧ getDirectory p s realPath = some d ∧
        (fileMoved p c s realPath size tth).indices = s.indices ∧
        (fileMoved p c s realPath size tth).nextId = s.nextId + 1 ∧
        Gains (validateName p d (Util.getFilePath realPath) ⟨s.nextId, Util.getFileName realPath, none, tth, n⟩)
          (allFilesOf s.directories) (allFilesOf (fileMoved p c s realPath size tth).directories) := by
  by_cases hadd : c.addFinishedInstantly = true
  · cases hroot : getRoot p s realPath with
    | none => exact Or.inl (by simp only [fileMoved, hadd, hroot, Bool.not_true, Bool.false_eq_true, if_false])
    | some way =>
      obtain ⟨root, names⟩ := way
      cases hd : getDirectory p s realPath with
      | none =>
        refine Or.inl ?_
        cases size <;> simp only [fileMoved, hadd, hroot, hd, Bool.not_true, Bool.false_eq_true, if_false, Option.isSome_none]
      | some d =>
        cases size with
        | none => exact Or.inl (by simp only [fileMoved, hadd, Bool.not_true, Bool.false_eq_true, if_false])
        | some n =>
          have hsome : (getDirectory p s realPath).isSome = true := by rw [hd]; rfl
          have hway := hd
          rw [getDirectory, hroot, Option.bind_some] at hway
          obtain ⟨top, htop, hway⟩ := Option.bind_eq_some_iff.mp hway
          let f : File := ⟨s.nextId, Util.getFileName realPath, none, tth, n⟩
          have hgain := gains_modifyFirst htop (gains_modifyBelow (g := fun d => addFile p (Util.getFilePath realPath) d f)
            hway (gains_addFile p (Util.getFilePath realPath) d f))
          refine Or.inr ⟨n, d, hadd, rfl, rfl, ?_⟩
          simp only [fileMoved, hadd, hroot, hsome, Bool.not_true, Bool.false_eq_true, if_false, if_true]
          exact ⟨trivial, trivial, hgain⟩
  · exact Or.inl (by simp only [fileMoved, hadd, Bool.not_false, if_true])

/-- The condition on an event: no exception ends a merge, a file that is moved in has no hash that is new, and no
other file has the hash that a file has had. -/
def Rehashes (s : Share) : Settings × Event → Prop
  | (c, .addDirectory fs realPath virtualName) => (added p c fs s realPath virtualName).2 = false
  | (c, .removeDirectory fs realPath) =>
    ∀ i ∈ s.shares.find? fun i => i.1 = realPath, (removed p c fs s realPath i.2).2 = false
  | (_, .refresh _ _) => True
  | (c, .fileMoved realPath size tth) =>
    c.addFinishedInstantly = true → size.isSome → (getDirectory p s realPath).isSome →
      ∀ h ∈ tth, (lookup s.indices.tthIndex h).isSome
  | (_, .tthDone realPath root) =>
    ∀ f ∈ getFile p s realPath, ∀ h ∈ f.tth, h ≠ root → ∀ g ∈ allFilesOf s.directories, g.tth = some h → g.id = f.id

instance decidableRehashes (s : Share) : (i : Settings × Event) → Decidable (Rehashes p s i)
  | (c, .addDirectory fs realPath virtualName) =>
    inferInstanceAs (Decidable ((added p c fs s realPath virtualName).2 = false))
  | (c, .removeDirectory fs realPath) =>
    inferInstanceAs (Decidable (∀ i ∈ s.shares.find? fun i => i.1 = realPath, (removed p c fs s realPath i.2).2 = false))
  | (_, .refresh _ _) => isTrue trivial
  | (c, .fileMoved realPath size tth) =>
    inferInstanceAs (Decidable (c.addFinishedInstantly = true → size.isSome → (getDirectory p s realPath).isSome →
      ∀ h ∈ tth, (lookup s.indices.tthIndex h).isSome))
  | (_, .tthDone realPath root) =>
    inferInstanceAs (Decidable (∀ f ∈ getFile p s realPath, ∀ h ∈ f.tth, h ≠ root →
      ∀ g ∈ allFilesOf s.directories, g.tth = some h → g.id = f.id))

theorem fileMoved_exact {s : Share} (h : Exact s) {realPath : Bytes} {size : Option Int64}
    {tth : Option Encoder.HashValue} (hm : Rehashes p s (c, .fileMoved realPath size tth)) :
    Exact (fileMoved p c s realPath size tth) := by
  obtain heq | ⟨n, d, hadd, rfl, hd, hix, hid, hgain⟩ := fileMoved_cases p c s realPath size tth
  · rw [heq]
    exact h
  · have hknown := hm hadd rfl (by rw [hd]; rfl)
    constructor
    · rw [hid]
      exact h.fresh.gains (validateName_id p d _ _) hgain
    · rw [hix]
      rw [Gains] at hgain
      obtain hperm | hperm := hgain
      · refine (h.indexed.cons fun tth' htth => hknown tth' ?_).perm hperm
        rwa [validateName_tth] at htth
      · exact h.indexed.perm hperm

theorem tthDone_exact {s : Share} (h : Exact s) {realPath : Bytes} {root : Encoder.HashValue}
    (hm : Rehashes p s (c, .tthDone realPath root)) : Exact (tthDone p s realPath root) := by
  rw [tthDone]
  split
  next => exact h
  next f hf =>
    have hmem := getFile_mem hf
    constructor
    · rw [allFilesOf_mapFilesOf]
      exact h.fresh.rehash f.id root
    · rw [allFilesOf_mapFilesOf]
      refine h.indexed.rehash h.fresh.nodup hmem ?_ ?_ fun tth hne htth => hm f hf tth htth hne
      · intro tth hne htth
        simp only [htth, hne.symm, ne_eq, not_false_eq_true, if_true, lookup_erase_self]
      · intro tth hne htth
        cases hold : f.tth with
        | none => rfl
        | some old =>
          have hne' : tth ≠ old := fun heq => htth (heq ▸ hold)
          dsimp only
          split
          next => exact lookup_erase_of_ne hne' _
          next => rfl

/-- What an event may change keeps the index and the addresses in order. -/
theorem step_exact {s t : Share} (h : Exact s) {i : Settings × Event} (hm : Rehashes p s i)
    (ht : step p i.1 s i.2 = some t) : Exact t := by
  obtain ⟨c, e⟩ := i
  cases e with
  | addDirectory fs realPath virtualName =>
    obtain rfl := Option.some.inj ht
    rw [addDirectory, if_neg (by rw [show (added p c fs s realPath virtualName).2 = false from hm]; exact Bool.false_ne_true)]
    exact ⟨rebuildIndices_fresh p c (added_fresh p c h.fresh _ _) _, rebuildIndices_indexed p c _ _⟩
  | removeDirectory fs realPath =>
    obtain rfl := Option.some.inj ht
    rw [removeDirectory]
    split
    next => exact h
    next i hi =>
      dsimp only
      rw [if_neg (by rw [hm i hi]; exact Bool.false_ne_true)]
      exact ⟨rebuildIndices_fresh p c (removed_fresh p c h.fresh _ _) _, rebuildIndices_indexed p c _ _⟩
  | refresh fs dirs =>
    rw [step, refresh] at ht
    dsimp only at ht
    split at ht
    next => cases ht
    next =>
      obtain rfl := Option.some.inj ht
      have hempty : Fresh s.nextId (allFilesOf []) := h.fresh.mono (Multiset.zero_le _)
      refine ⟨rebuildIndices_fresh p c ?_ _, rebuildIndices_indexed p c _ _⟩
      exact shareAll_fresh p c (s := { s with directories := [] }) hempty dirs
  | fileMoved realPath size tth =>
    obtain rfl := Option.some.inj ht
    exact fileMoved_exact p c h hm
  | tthDone realPath root =>
    obtain rfl := Option.some.inj ht
    exact tthDone_exact p c h hm

/-- An event under the settings of its time. -/
def change (s : Share) (i : Settings × Event) : Option Share := step p i.1 s i.2

/-- The keys of the index are the hashes of the files of the tree, and its entries are such files. -/
structure IndexOk (s : Share) : Prop where
  key_iff : ∀ tth, (lookup s.indices.tthIndex tth).isSome ↔ ∃ f ∈ allFilesOf s.directories, f.tth = some tth
  entry : ∀ tth id, lookup s.indices.tthIndex tth = some id →
    ∃ f ∈ allFilesOf s.directories, f.id = id ∧ f.tth = some tth

theorem Exact.indexOk {s : Share} (h : Exact s) : IndexOk s := by
  refine ⟨fun tth => ⟨fun hsome => ?_, ?_⟩, h.indexed.sound⟩
  · obtain ⟨id, hid⟩ := Option.isSome_iff_exists.mp hsome
    obtain ⟨f, hf, _, htth⟩ := h.indexed.sound tth id hid
    exact ⟨f, hf, htth⟩
  · intro ⟨f, hf, htth⟩
    exact h.indexed.complete f hf tth htth

/-- In every run whose events meet the condition the index is right. -/
theorem run_indexOk {events : List (Settings × Event)} (hm : Runs.Each (change p) (Rehashes p) start events)
    {s : Share} (hs : Runs.run (change p) start events = some s) : IndexOk s :=
  (Runs.run_preserves (fun _ _ _ h hm ht => step_exact p h hm ht) start_exact hm hs).indexOk

/-- A directory with two files, which get the same hash; the first one then changes. -/
def twoFiles : FileSystem where
  entries _ := [.node ⟨str "a", false, false, false, 1, none⟩ [], .node ⟨str "b", false, false, false, 1, none⟩ []]
  found _ := true
  isHidden _ := false

def ascii : Platform := ⟨id, fun s => s.map UInt8.toNat⟩

def defaults : Settings where
  shareHidden := false
  followLinks := false
  listDupes := true
  addFinishedInstantly := false
  tempDownloadDirectory := str "/tmp/"
  tlsPrivateKeyFile := str "/tls/client.key"
  validFileName _ := true
  validPath _ := true
  validFileSize _ := true

def hashOf (b : UInt8) : Encoder.HashValue := ⟨List.replicate 24 b, List.length_replicate⟩

def sameHash : List (Settings × Event) :=
  [(defaults, .addDirectory twoFiles (str "/s/") (str "s")), (defaults, .tthDone (str "/s/a") (hashOf 1)),
    (defaults, .tthDone (str "/s/b") (hashOf 1))]

def rehashed : List (Settings × Event) := sameHash ++ [(defaults, .tthDone (str "/s/a") (hashOf 2))]

theorem run_indexOk_sameHash : Runs.Each (change ascii) (Rehashes ascii) start sameHash ∧
    ∃ s, Runs.run (change ascii) start sameHash = some s ∧ IndexOk s := by
  have hm : Runs.Each (change ascii) (Rehashes ascii) start sameHash := by decide +kernel
  obtain ⟨s, hs⟩ := Option.isSome_iff_exists.mp
    (show (Runs.run (change ascii) start sameHash).isSome = true by decide +kernel)
  exact ⟨hm, s, hs, run_indexOk ascii hm hs⟩

/-- The second file has lost its key. -/
theorem not_run_indexOk : ¬ ∀ s, Runs.run (change ascii) start rehashed = some s → IndexOk s := by
  intro h
  have hlost : ((Runs.run (change ascii) start rehashed).any fun s => (lookup s.indices.tthIndex (hashOf 1)).isNone &&
      (allFilesOf s.directories).any fun f => f.tth = some (hashOf 1)) = true := by decide +kernel
  cases hs : Runs.run (change ascii) start rehashed with
  | none =>
    rw [hs] at hlost
    cases hlost
  | some s =>
    rw [hs, Option.any_some, Bool.and_eq_true, List.any_eq_true] at hlost
    obtain ⟨hnone, f, hf, htth⟩ := hlost
    have hsome := ((h s hs).key_iff (hashOf 1)).mpr ⟨f, hf, of_decide_eq_true htth⟩
    rw [Option.isNone_iff_eq_none.mp hnone] at hsome
    cases hsome

end Dcpp.ShareManager
