import Dcpp.HashData
import Dcpp.HashIndex

namespace Dcpp.HashManager.HashStore

open Disk MerkleTree ByteFile SaveFile

variable (H : TreeHasher TTHValue)

/-- The entry of a file that has been seen since the start is needed. -/
def addNeeded (treeIndex newTreeIndex : List (TTHValue × TreeInfo)) (j : FileInfo) : List (TTHValue × TreeInfo) :=
  if !j.used then newTreeIndex
  else
    match findTree j.root treeIndex with
    | none => newTreeIndex
    | some k => Keyed.assign Prod.fst (j.root, k) newTreeIndex

def neededTrees (s : HashStore) : List (TTHValue × TreeInfo) :=
  (s.fileIndex.flatMap Prod.snd).foldl (addNeeded s.treeIndex) []

/-- The loop over the trees; `cur` is the position of the file `inn`. -/
def copyTrees (inn out : Bytes) : Nat → List (TTHValue × TreeInfo) → FileM Bytes (List (TTHValue × TreeInfo))
  | _, [] => pure []
  | cur, i :: newTreeIndex => do
    let (tree, cur) ← loadTree H inn cur i.2 i.1
    match tree with
    | some tree => do
      let index ← saveTree out tree
      let rest ← copyTrees inn out cur newTreeIndex
      return (i.1, { i.2 with index := index }) :: rest
    | none => copyTrees inn out cur newTreeIndex

def keptFiles (newTreeIndex : List (TTHValue × TreeInfo)) (fileIndex : List (Bytes × List FileInfo)) :
    List (Bytes × List FileInfo) :=
  fileIndex.filterMap fun i =>
    let newFileList := i.2.filter fun j => (findTree j.root newTreeIndex).isSome && j.used
    if newFileList = [] then none else some (i.1, newFileList)

/-- Up to the deletion of the old file. -/
def copyData (config : Bytes) (s : HashStore) : FileM Bytes (List (TTHValue × TreeInfo)) := do
  let origName := getDataFile config
  createDataFile (tmpName origName)
  openFile origName
  openFile (tmpName origName)
  copyTrees H origName (tmpName origName) 0 (neededTrees s)

/-- What is done to the data file. -/
def replaceData (device : Bytes → Nat) (config : Bytes) (s : HashStore) : FileM Bytes (List (TTHValue × TreeInfo)) := do
  let newTreeIndex ← copyData H config s
  deleteFile (getDataFile config)
  renameFile device (tmpName (getDataFile config)) (getDataFile config)
  return newTreeIndex

/-- The second component says that a failure has been reported. -/
def rebuild (device : Bytes → Nat) (bufSize : Nat) (config : Bytes) (s : HashStore) : FileM Bytes (HashStore × Bool) :=
  FileM.handle
    (do
      let newTreeIndex ← replaceData H device config s
      let s ← save device bufSize config ⟨keptFiles newTreeIndex s.fileIndex, newTreeIndex, true⟩
      return (s, false))
    (fun _ => true) (pure (s, true))

/-- The numbers of an entry are as `addTree` and the loader make them. -/
structure Sound (ti : TreeInfo) : Prop where
  blockSize : 0 < ti.blockSize
  index : ti.index = SMALL_TREE ∨ 0 ≤ ti.index

/-- What is written after the trees that a file holds. -/
structure Grown (data : Bytes) (pos : Nat) (data' : Bytes) (pos' : Nat) : Prop where
  header : Header pos' data'
  pos_le : pos ≤ pos'
  length_le : data.length ≤ data'.length
  kept : ∀ p n, HEADER ≤ p → p + n ≤ pos → p + n ≤ data.length → readAt p n data' = readAt p n data

/-- The tree of an entry is in the file. -/
def Holds (data : Bytes) (pos : Nat) (t : TigerTree) (i : TTHValue × TreeInfo) : Prop :=
  (i.2.index = SMALL_TREE ∧ t = ofRoot i.2.size i.2.blockSize i.1) ∨
    ∃ c : CompleteTree H, c.stored = t ∧ DataState.Stored data pos c i

/-- An entry of the old index whose tree is to be had, and that of the new one. -/
structure Copied (src data : Bytes) (pos : Nat) (i i' : TTHValue × TreeInfo) : Prop where
  root : i'.1 = i.1
  size : i'.2.size = i.2.size
  holds : ∃ t, loadedTree H src 0 i.2 i.1 = some t ∧ Holds H data pos t i'

section

variable {H} {src data data' data'' : Bytes} {pos pos' pos'' cur : Nat} {t : TigerTree} {i i' : TTHValue × TreeInfo}

theorem Grown.refl (h : Header pos data) : Grown data pos data pos :=
  ⟨h, Nat.le_refl _, Nat.le_refl _, fun _ _ _ _ _ => rfl⟩

theorem Grown.trans (h : Grown data pos data' pos') (h' : Grown data' pos' data'' pos'') :
    Grown data pos data'' pos'' := by
  obtain ⟨-, hpos, hlen, hkept⟩ := h
  obtain ⟨hhead, hpos', hlen', hkept'⟩ := h'
  refine ⟨hhead, Nat.le_trans hpos hpos', Nat.le_trans hlen hlen', fun p n hp hn hdata => ?_⟩
  rw [hkept' p n hp (Nat.le_trans hn hpos) (Nat.le_trans hdata hlen), hkept p n hp hn hdata]

theorem Holds.mono (h : Holds H data pos t i) (hg : Grown data pos data' pos') : Holds H data' pos' t i :=
  h.imp_right fun ⟨c, hc, hst⟩ => ⟨c, hc, hst.mono hg.pos_le hg.length_le hg.kept⟩

theorem Copied.mono (h : Copied H src data pos i i') (hg : Grown data pos data' pos') :
    Copied H src data' pos' i i' := by
  obtain ⟨t, hload, hholds⟩ := h.holds
  exact ⟨h.root, h.size, t, hload, hholds.mono hg⟩

/-- A tree in the file is read back. -/
theorem Holds.loaded (h : Holds H data pos t i) : loadedTree H data 0 i.2 i.1 = some t := by
  obtain ⟨hsmall, rfl⟩ | ⟨c, rfl, hst⟩ := h
  · rw [loadedTree, if_pos hsmall]
  · rw [hst.root]
    exact DataState.loadedTree_stored hst 0

theorem loadedTree_of_sound (h : Sound i.2) (src : Bytes) (cur : Nat) :
    loadedTree H src cur i.2 i.1 = loadedTree H src 0 i.2 i.1 := by
  rw [loadedTree, loadedTree]
  obtain hsmall | hindex := h.index
  · rw [if_pos hsmall, if_pos hsmall]
  · rw [setPos, setPos, if_pos hindex, if_pos hindex]

/-- The trees that are read from leaves are complete. -/
theorem complete_of_loaded (hsound : Sound i.2) (hsmall : i.2.index ≠ SMALL_TREE)
    (h : loadedTree H src cur i.2 i.1 = some t) :
    ∃ c : CompleteTree H, c.tree = t ∧ c.stored = t ∧ t.root = i.1 ∧ t.fileSize = i.2.size ∧
      t.blockSize = i.2.blockSize := by
  rw [loadedTree, if_neg hsmall, Option.filter_eq_some_iff, decide_eq_true_iff, ofLeafData] at h
  obtain ⟨hleaves, hroot⟩ := h
  have hlen : ((List.range (calcBlocks i.2.size i.2.blockSize)).map (@leafAt Encoder.BYTES
      (readAt (setPos i.2.index cur) (calcBlocks i.2.size i.2.blockSize * Encoder.BYTES) src))).length =
        calcBlocks i.2.size i.2.blockSize := by
    rw [List.length_map, List.length_range]
  rw [calcRoot_eq hsound.blockSize (le_of_eq hlen.symm)] at hleaves
  obtain rfl := Option.some.inj hleaves
  exact ⟨⟨_, hsound.blockSize, hlen, calcRoot_eq hsound.blockSize hlen.ge⟩, rfl, rfl, hroot, rfl, rfl⟩

/-- A tree that was read from one file is saved in another. -/
theorem saveTree_holds {out : Bytes} {w v : World Bytes} {index : Int} (hsound : Sound i.2)
    (hload : loadedTree H src cur i.2 i.1 = some t) (hw : w.faults = []) (hout : w.files out = some data)
    (hhead : Header pos data) (h : saveTree out t w = .returned index v) :
    v.faults = [] ∧ ∃ data' pos', v.files = Function.update w.files out (some data') ∧ Grown data pos data' pos' ∧
      Holds H data' pos' t (i.1, { i.2 with index := index }) := by
  have hsame : w.files = Function.update w.files out (some data) := by rw [← hout, Function.update_eq_self]
  by_cases hsmall : i.2.index = SMALL_TREE
  · rw [loadedTree, if_pos hsmall] at hload
    obtain rfl := Option.some.inj hload
    have hone : (ofRoot i.2.size i.2.blockSize i.1).leaves.length = 1 := rfl
    rw [saveTree, if_pos hone] at h
    cases h
    exact ⟨hw, data, pos, hsame, Grown.refl hhead, Or.inl ⟨rfl, rfl⟩⟩
  · obtain ⟨c, rfl, hstored, hroot, hsize, hblock⟩ := complete_of_loaded hsound hsmall hload
    by_cases hone : c.tree.leaves.length = 1
    · rw [saveTree, if_pos hone] at h
      cases h
      refine ⟨hw, data, pos, hsame, Grown.refl hhead, Or.inl ⟨rfl, ?_⟩⟩
      rw [← hroot, ← hsize, ← hblock, c.ofRoot_eq hone, hstored]
    · obtain ⟨hindex, hv, data', hfiles, hsaved⟩ := saveTree_spec c hw hout hhead hone h
      refine ⟨hv, data', pos + (leafData c.tree).length, hfiles,
        ⟨hsaved.header, Nat.le_add_right _ _, hsaved.mono, hsaved.kept⟩, Or.inr ⟨c, hstored, ?_⟩⟩
      exact ⟨hroot.symm, hsize.symm, hblock.symm,
        Or.inr ⟨hone, pos, hindex, hhead.1, Nat.le_refl _, hsaved.length, hsaved.written⟩⟩

theorem copyTrees_spec {inn out : Bytes} (hne : inn ≠ out) {entries entries' : List (TTHValue × TreeInfo)}
    (hsound : ∀ i ∈ entries, Sound i.2) {w v : World Bytes} (hw : w.faults = []) (hin : w.files inn = some src)
    (hout : w.files out = some data) (hhead : Header pos data)
    (h : copyTrees H inn out cur entries w = .returned entries' v) :
    v.faults = [] ∧ ∃ data' pos', v.files = Function.update w.files out (some data') ∧ Grown data pos data' pos' ∧
      List.Forall₂ (Copied H src data' pos') (entries.filter fun i => (loadedTree H src 0 i.2 i.1).isSome)
        entries' := by
  induction entries generalizing cur w data pos entries' with
  | nil =>
    cases h
    exact ⟨hw, data, pos, by rw [← hout, Function.update_eq_self], Grown.refl hhead, List.Forall₂.nil⟩
  | cons i entries ih =>
    obtain ⟨hi, hsound⟩ := List.forall_mem_cons.mp hsound
    obtain ⟨cur', hload⟩ := loadTree_eq (H := H) hw hin cur i.2 i.1
    rw [copyTrees, bind_returned hload] at h
    rw [loadedTree_of_sound hi] at hload h
    cases htree : loadedTree H src 0 i.2 i.1 with
    | none =>
      rw [htree] at h
      rw [List.filter_cons_of_neg (by rw [htree]; exact Bool.false_ne_true)]
      exact ih hsound hw hin hout hhead h
    | some t =>
      rw [htree] at h
      obtain ⟨index, u, hsave, h⟩ := returned_of_bind h
      obtain ⟨rest, u', hrest, h⟩ := returned_of_bind h
      cases h
      obtain ⟨hu, data', pos', hfiles, hgrown, hholds⟩ := saveTree_holds hi htree hw hout hhead hsave
      have hin' : u.files inn = some src := by rw [hfiles, Function.update_of_ne hne, hin]
      have hout' : u.files out = some data' := by rw [hfiles, Function.update_self]
      obtain ⟨hv, data'', pos'', hfiles', hgrown', hcopied⟩ := ih hsound hu hin' hout' hgrown.header hrest
      rw [List.filter_cons_of_pos (by rw [htree]; rfl)]
      refine ⟨hv, data'', pos'', ?_, hgrown.trans hgrown', List.Forall₂.cons ?_ hcopied⟩
      · rw [hfiles', hfiles, Function.update_idem]
      · exact ⟨rfl, rfl, t, htree, hholds.mono hgrown'⟩

end

/-- The entry of a file. -/
def findFile (aFileName : Bytes) (s : HashStore) : Option FileInfo :=
  (s.fileIndex.find? fun i => i.1 = Util.getFilePath aFileName).bind fun i =>
    i.2.find? fun j => j.fileName = Util.getFileName aFileName

theorem getTTH_eq (aFileName : Bytes) (aSize aTimeStamp : Nat) (s : HashStore) :
    (getTTH aFileName aSize aTimeStamp s).1 = (findFile aFileName s).bind fun fi =>
      if (findTree fi.root s.treeIndex).any (fun ti => ti.size = aSize) && fi.timeStamp = aTimeStamp then some fi.root
      else none := by
  rw [getTTH, findFile]
  cases s.fileIndex.find? fun i => i.1 = Util.getFilePath aFileName with
  | none => rfl
  | some i =>
    rw [Option.bind_some]
    dsimp only
    cases i.2.find? fun j => j.fileName = Util.getFileName aFileName with
    | none => rfl
    | some fi =>
      rw [Option.bind_some]
      dsimp only
      split <;> rfl

/-- `getTree` finds the tree in the files of the disk. -/
def Available (dataFile : Bytes) (s : HashStore) (files : Files Bytes) (root : TTHValue) (t : TigerTree) : Prop :=
  getTree H dataFile root s ⟨files, []⟩ = .returned (some t) ⟨files, []⟩

section

variable {H} {dataFile : Bytes} {s : HashStore} {files : Files Bytes} {root : TTHValue} {t : TigerTree}

theorem available_iff : Available H dataFile s files root t ↔
    ∃ ti src, findTree root s.treeIndex = some ti ∧ files dataFile = some src ∧
      loadedTree H src 0 ti root = some t := by
  rw [Available, getTree]
  cases hfind : findTree root s.treeIndex with
  | none => exact iff_of_false (fun h => by cases h) (by rintro ⟨_, _, h, _⟩; cases h)
  | some ti =>
    dsimp only
    cases hfile : files dataFile with
    | none =>
      have hopen : openFile dataFile ⟨files, []⟩ = .threw .file ⟨files, []⟩ := by
        rw [openFile, bind_returned (atomic_id_eq rfl), find, if_neg (by simp only [hfile]; exact Bool.false_ne_true)]
      rw [FileM.handle, bind_eq, hopen]
      exact iff_of_false (fun h => by cases h) (by rintro ⟨_, _, _, h, _⟩; cases h)
    | some src =>
      rw [getTreeOf_eq rfl hfile]
      constructor
      · intro h
        refine ⟨ti, src, rfl, rfl, ?_⟩
        injection h
      · rintro ⟨_, _, hti, hsrc, h⟩
        obtain rfl := Option.some.inj hti
        obtain rfl := Option.some.inj hsrc
        rw [h]

theorem findTree_assign_self (k : TreeInfo) (l : List (TTHValue × TreeInfo)) :
    findTree root (Keyed.assign Prod.fst (root, k) l) = some k := by
  rw [findTree, Keyed.find?_assign_self Prod.fst (root, k), Option.map_some]

theorem findTree_assign_of_ne {root' : TTHValue} (hne : root' ≠ root) (k : TreeInfo)
    (l : List (TTHValue × TreeInfo)) : findTree root (Keyed.assign Prod.fst (root', k) l) = findTree root l := by
  rw [findTree, findTree, Keyed.find?_assign_of_ne Prod.fst (x := (root', k)) hne]

/-- The entries that are needed are those of the index. -/
theorem addNeeded_sub {treeIndex trees : List (TTHValue × TreeInfo)}
    (h : ∀ i ∈ trees, findTree i.1 treeIndex = some i.2) (j : FileInfo) :
    ∀ i ∈ addNeeded treeIndex trees j, findTree i.1 treeIndex = some i.2 := by
  rw [addNeeded]
  split
  next => exact h
  next =>
    split
    next => exact h
    next k hk =>
      intro i hi
      obtain rfl | hi := Keyed.mem_assign hi
      · exact hk
      · exact h i hi

theorem mem_neededTrees {i : TTHValue × TreeInfo} (hi : i ∈ neededTrees s) : findTree i.1 s.treeIndex = some i.2 := by
  have hfold : ∀ (l : List FileInfo) trees, (∀ i ∈ trees, findTree i.1 s.treeIndex = some i.2) →
      ∀ i ∈ l.foldl (addNeeded s.treeIndex) trees, findTree i.1 s.treeIndex = some i.2 := by
    intro l
    induction l with
    | nil => exact fun _ h => h
    | cons j l ih => exact fun trees h => ih _ (addNeeded_sub h j)
  exact hfold _ [] (fun _ h => absurd h List.not_mem_nil) i hi

/-- An entry that is needed is there from the first file that needs it on. -/
theorem findTree_addNeeded {treeIndex trees : List (TTHValue × TreeInfo)} {k : TreeInfo} {j : FileInfo}
    (hk : findTree root treeIndex = some k) (h : findTree root trees = some k ∨ j.root = root ∧ j.used = true) :
    findTree root (addNeeded treeIndex trees j) = some k := by
  rw [addNeeded]
  by_cases hj : j.root = root
  · subst hj
    rw [hk]
    dsimp only
    split
    next hused =>
      obtain h | ⟨-, h⟩ := h
      · exact h
      · rw [h] at hused
        cases hused
    next => exact findTree_assign_self k trees
  · have hold : findTree root trees = some k := h.resolve_right fun h => hj h.1
    split
    next => exact hold
    next =>
      split
      next => exact hold
      next k' _ => rw [findTree_assign_of_ne hj, hold]

theorem findTree_neededTrees {k : TreeInfo} (hk : findTree root s.treeIndex = some k) {j : FileInfo}
    (hj : j ∈ s.fileIndex.flatMap Prod.snd) (hroot : j.root = root) (hused : j.used = true) :
    findTree root (neededTrees s) = some k := by
  have hfold : ∀ (l : List FileInfo) trees,
      findTree root trees = some k ∨ (∃ j ∈ l, j.root = root ∧ j.used = true) →
        findTree root (l.foldl (addNeeded s.treeIndex) trees) = some k := by
    intro l
    induction l with
    | nil => exact fun trees h => h.elim id fun ⟨_, hj, _⟩ => absurd hj List.not_mem_nil
    | cons j l ih =>
      intro trees h
      refine ih _ ?_
      obtain h | ⟨j', hj', h⟩ := h
      · exact Or.inl (findTree_addNeeded hk (Or.inl h))
      · obtain rfl | hj' := List.mem_cons.mp hj'
        · exact Or.inl (findTree_addNeeded hk (Or.inr h))
        · exact Or.inr ⟨j', hj', h⟩
  exact hfold _ [] (Or.inr ⟨j, hj, hroot, hused⟩)

/-- The entry of a tree that has been copied. -/
theorem findTree_copied {src data : Bytes} {pos : Nat} {entries entries' : List (TTHValue × TreeInfo)}
    (h : List.Forall₂ (Copied H src data pos) (entries.filter fun i => (loadedTree H src 0 i.2 i.1).isSome) entries')
    {ti : TreeInfo} (hfind : findTree root entries = some ti) (hload : loadedTree H src 0 ti root = some t) :
    ∃ ti', findTree root entries' = some ti' ∧ ti'.size = ti.size ∧ loadedTree H data 0 ti' root = some t := by
  rw [findTree, Option.map_eq_some_iff] at hfind
  obtain ⟨i, hfind, rfl⟩ := hfind
  obtain ⟨-, rfl⟩ := Keyed.mem_of_find?_key hfind
  have hfiltered := Keyed.find?_filter_of_pos (p := fun i => (loadedTree H src 0 i.2 i.1).isSome) hfind (by rw [hload]; rfl)
  have hrel := Keyed.find?_forall₂ (p := fun j => decide (j.1 = i.1)) (fun x y hxy => by rw [hxy.root]) h
  rw [hfiltered] at hrel
  rw [findTree]
  cases hfind' : entries'.find? fun j => j.1 = i.1 with
  | none =>
    rw [hfind'] at hrel
    cases hrel
  | some i' =>
    rw [hfind'] at hrel
    obtain ⟨hcopied⟩ := hrel
    obtain ⟨t', hload', hholds⟩ := hcopied.holds
    rw [hload] at hload'
    obtain rfl := Option.some.inj hload'
    refine ⟨i'.2, rfl, hcopied.size, ?_⟩
    rw [← hcopied.root]
    exact hholds.loaded

end

section

variable {dataFile : Bytes} {s : HashStore} {n f : Bytes}

theorem keeps_createDataFile (hn : n ≠ f) : Keeps n (createDataFile f) :=
  Keeps.handle ((keeps_createFile hn).bind fun _ => (keeps_setSize hn _).bind fun _ => keeps_write hn _ _) _
    (keeps_pure n ())

theorem keeps_saveTree (hn : n ≠ f) (tt : TigerTree) : Keeps n (saveTree f tt) := by
  rw [saveTree]
  split
  next => exact keeps_pure n _
  next =>
    refine (keeps_read n f _ _).bind fun head => ?_
    split
    next => exact fun _ => rfl
    next =>
      refine Keeps.bind (x := getSize f) (fun _ => rfl) fun datsz => ?_
      refine Keeps.bind ?_ fun _ => (keeps_write hn _ _).bind fun _ => (keeps_write hn _ _).bind fun _ => keeps_pure n _
      rw [growFile]
      split
      next => exact keeps_setSize hn _
      next => exact keeps_pure n _

theorem keeps_loadTree (cur : Nat) (ti : TreeInfo) (root : TTHValue) : Keeps n (loadTree H f cur ti root) := by
  rw [loadTree]
  split
  next => exact keeps_pure n _
  next => exact Keeps.handle ((keeps_read n f _ _).bind fun _ => keeps_pure n _) _ (keeps_pure n _)

theorem keeps_copyTrees {inn out : Bytes} (hn : n ≠ out) (cur : Nat) (entries : List (TTHValue × TreeInfo)) :
    Keeps n (copyTrees H inn out cur entries) := by
  induction entries generalizing cur with
  | nil => exact keeps_pure n _
  | cons i entries ih =>
    refine (keeps_loadTree H cur i.2 i.1).bind fun r => ?_
    obtain ⟨tree, cur'⟩ := r
    cases tree with
    | none => exact ih cur'
    | some tree => exact (keeps_saveTree hn tree).bind fun index => (ih cur').bind fun rest => keeps_pure n _

theorem keeps_copyData (config : Bytes) (s : HashStore) : Keeps (getDataFile config) (copyData H config s) := by
  have hne := (tmpName_ne (getDataFile config)).symm
  exact (keeps_createDataFile hne).bind fun _ => (keeps_openFile _ _).bind fun _ => (keeps_openFile _ _).bind fun _ =>
    keeps_copyTrees H hne 0 _

theorem replaceData_eq (device : Bytes → Nat) (config : Bytes) (s : HashStore) :
    replaceData H device config s = copyData H config s >>= fun newTreeIndex =>
      replaceBy (tmpName (getDataFile config)) (getDataFile config) >>= fun _ => pure newTreeIndex := by
  have hrename : renameFile device (tmpName (getDataFile config)) (getDataFile config) =
      rename (tmpName (getDataFile config)) (getDataFile config) := by
    rw [renameFile, tmpName, parent_append _ _ (by decide), if_pos rfl]
  rw [replaceData, hrename]
  congr 1
  funext newTreeIndex
  rw [replaceBy, bind_assoc]

/-- Where an operation fails, the data file is as it was, if it is there. -/
theorem replaceData_threw {device : Bytes → Nat} {config : Bytes} {w v : World Bytes} {e : Exception}
    (h : replaceData H device config s w = .threw e v) :
    v.files (getDataFile config) = none ∨ v.files (getDataFile config) = w.files (getDataFile config) := by
  have hkeeps := keeps_copyData H config s w
  rw [replaceData_eq, bind_eq] at h
  generalize copyData H config s w = r at h hkeeps
  cases r with
  | stopped u => cases h
  | threw e u =>
    cases h
    exact Or.inr hkeeps
  | returned t u =>
    dsimp only at h
    rw [bind_eq] at h
    cases hr : replaceBy (tmpName (getDataFile config)) (getDataFile config) u with
    | returned _ u' =>
      rw [hr] at h
      cases h
    | stopped u' =>
      rw [hr] at h
      cases h
    | threw e' u' =>
      rw [hr] at h
      cases h
      exact (replaceBy_threw hr).imp_right fun h => h.trans hkeeps

/-- Saving the index says nothing of the trees and the files that it holds. -/
theorem save_returned {device : Bytes → Nat} {bufSize : Nat} {config : Bytes} {w v : World Bytes} {s' : HashStore}
    (h : save device bufSize config s w = .returned s' v) :
    s'.fileIndex = s.fileIndex ∧ s'.treeIndex = s.treeIndex ∧
      v.files (getDataFile config) = w.files (getDataFile config) := by
  have hne : getDataFile config ≠ tmpName (getIndexFile config) := by
    rw [getDataFile, getIndexFile, tmpName, List.append_assoc]
    exact fun h => absurd (List.append_cancel_left h) (by decide)
  have hne' : getDataFile config ≠ getIndexFile config :=
    fun h => absurd (List.append_cancel_left h) (by decide)
  rw [save] at h
  split at h
  next =>
    have hkeeps := keeps_saveFile hne hne' device bufSize (indexPieces s) w
    rw [FileM.handle, bind_eq] at h
    generalize saveFile device bufSize (getIndexFile config) (indexPieces s) w = r at h hkeeps
    cases r with
    | returned _ u =>
      cases h
      exact ⟨rfl, rfl, hkeeps⟩
    | stopped u => cases h
    | threw e u =>
      dsimp only at h
      split at h
      next =>
        cases h
        exact ⟨rfl, rfl, hkeeps⟩
      next => cases h
  next =>
    cases h
    exact ⟨rfl, rfl, rfl⟩

theorem find?_keptFiles {treeIndex : List (TTHValue × TreeInfo)} {fileIndex : List (Bytes × List FileInfo)}
    {dir : Bytes} {i : Bytes × List FileInfo} (hi : fileIndex.find? (fun i => i.1 = dir) = some i)
    (hne : ¬(i.2.filter fun j => (findTree j.root treeIndex).isSome && j.used) = []) :
    (keptFiles treeIndex fileIndex).find? (fun i => i.1 = dir) =
      some (i.1, i.2.filter fun j => (findTree j.root treeIndex).isSome && j.used) := by
  induction fileIndex with
  | nil => cases hi
  | cons i' fileIndex ih =>
    rw [List.find?_cons] at hi
    rw [keptFiles, List.filterMap_cons]
    cases hdir : decide (i'.1 = dir) with
    | true =>
      rw [hdir] at hi
      obtain rfl := Option.some.inj hi
      rw [if_neg hne]
      exact List.find?_cons_of_pos hdir
    | false =>
      rw [hdir] at hi
      split
      next => exact ih hi
      next i'' hi'' =>
        dsimp only at hi''
        split at hi''
        next => cases hi''
        next =>
          cases hi''
          rw [List.find?_cons_of_neg (by dsimp only; rw [hdir]; exact Bool.false_ne_true)]
          exact ih hi

/-- A file that is kept is found as before. -/
theorem findFile_keptFiles {treeIndex : List (TTHValue × TreeInfo)} {aFileName : Bytes} {fi : FileInfo}
    (hfind : findFile aFileName s = some fi) (hused : fi.used = true) (htree : (findTree fi.root treeIndex).isSome)
    (dirty : Bool) : findFile aFileName ⟨keptFiles treeIndex s.fileIndex, treeIndex, dirty⟩ = some fi := by
  have hkept : ((findTree fi.root treeIndex).isSome && fi.used) = true := by rw [htree, hused]; rfl
  obtain ⟨i, hi, hfi⟩ := Option.bind_eq_some_iff.mp hfind
  have hlist := Keyed.find?_filter_of_pos (p := fun j => (findTree j.root treeIndex).isSome && j.used) hfi hkept
  refine Option.bind_eq_some_iff.mpr ⟨_, find?_keptFiles hi fun hnil => ?_, hlist⟩
  rw [hnil] at hlist
  cases hlist

theorem mem_of_findFile {aFileName : Bytes} {fi : FileInfo} (h : findFile aFileName s = some fi) :
    fi ∈ s.fileIndex.flatMap Prod.snd := by
  obtain ⟨i, hi, hfi⟩ := Option.bind_eq_some_iff.mp h
  exact List.mem_flatMap.mpr ⟨i, List.mem_of_find?_eq_some hi, List.mem_of_find?_eq_some hfi⟩

/-- After a copy without failures, every needed tree is in the new file. -/
theorem replaceData_returned {device : Bytes → Nat} {config : Bytes} {w v : World Bytes}
    {newTreeIndex : List (TTHValue × TreeInfo)} (hsound : ∀ i ∈ s.treeIndex, Sound i.2) (hw : w.faults = [])
    (h : replaceData H device config s w = .returned newTreeIndex v) :
    ∃ src data pos, w.files (getDataFile config) = some src ∧ v.files (getDataFile config) = some data ∧
      List.Forall₂ (Copied H src data pos)
        ((neededTrees s).filter fun i => (loadedTree H src 0 i.2 i.1).isSome) newTreeIndex := by
  have hne := tmpName_ne (getDataFile config)
  have hneeded : ∀ i ∈ neededTrees s, Sound i.2 := by
    intro i hi
    obtain ⟨j, hj, hij⟩ := Option.map_eq_some_iff.mp (mem_neededTrees hi)
    exact hij ▸ hsound j (List.mem_of_find?_eq_some hj)
  rw [replaceData_eq] at h
  obtain ⟨trees, u, hcopy, h⟩ := returned_of_bind h
  obtain ⟨_, u', hreplace, h⟩ := returned_of_bind h
  cases h
  rw [copyData, bind_returned (DataState.createDataFile_eq hw _)] at hcopy
  obtain ⟨_, u₁, hopen, hcopy⟩ := returned_of_bind hcopy
  obtain ⟨_, u₂, hopen', hcopy⟩ := returned_of_bind hcopy
  have hw' : (World.mk (Function.update w.files (tmpName (getDataFile config)) (some DataState.created))
    w.faults).faults = [] := hw
  obtain ⟨rfl, hsrc⟩ := openFile_returned hw' hopen
  obtain ⟨rfl, -⟩ := openFile_returned hw' hopen'
  dsimp only at hsrc
  rw [Function.update_of_ne hne.symm] at hsrc
  obtain ⟨src, hsrc⟩ := Option.isSome_iff_exists.mp hsrc
  have hsrc' : Function.update w.files (tmpName (getDataFile config)) (some DataState.created)
      (getDataFile config) = some src := by rw [Function.update_of_ne hne.symm, hsrc]
  obtain ⟨hu, data, pos, hfiles, -, hcopied⟩ := copyTrees_spec hne.symm hneeded hw' hsrc' (Function.update_self ..)
    DataState.created_header hcopy
  obtain ⟨files, hreplace', hdata⟩ := replaceBy_eq hne hu (by rw [hfiles, Function.update_self])
  rw [hreplace'] at hreplace
  cases hreplace
  exact ⟨src, data, pos, hsrc, hdata, hcopied⟩

end

/-- A store that has one file, with a tree of one leaf. -/
def oneFile (used : Bool) : HashStore :=
  ⟨[(str "/d/", [⟨str "a", Vector.replicate _ 1, 1, used⟩])], [(Vector.replicate _ 1, ⟨0, SMALL_TREE, 1024⟩)], false⟩

def oneFileWorld : World Bytes := (DataState.start (getDataFile (str "/c/"))).world

theorem oneFile_sound (used : Bool) : ∀ i ∈ (oneFile used).treeIndex, Sound i.2 := by
  intro i hi
  obtain rfl := List.mem_singleton.mp hi
  exact ⟨by decide, Or.inl rfl⟩

theorem oneFile_available (used : Bool) : Available DataState.leftHasher (getDataFile (str "/c/")) (oneFile used)
    oneFileWorld.files (Vector.replicate _ 1) (ofRoot 0 1024 (Vector.replicate _ 1)) :=
  available_iff.mpr ⟨⟨0, SMALL_TREE, 1024⟩, DataState.created, rfl, DataState.start_files _, rfl⟩

/-- The disk once there is a new file for the trees. -/
def oneFileCreated : World Bytes :=
  ⟨Function.update oneFileWorld.files (tmpName (getDataFile (str "/c/"))) (some DataState.created), []⟩

theorem oneFileCreated_tmp :
    oneFileCreated.files (tmpName (getDataFile (str "/c/"))) = some DataState.created := by
  rw [oneFileCreated]
  exact Function.update_self (β := fun _ => Option Bytes) (tmpName (getDataFile (str "/c/")))
    (some DataState.created) oneFileWorld.files

theorem oneFile_copyData (used : Bool) :
    copyData DataState.leftHasher (str "/c/") (oneFile used) oneFileWorld =
      .returned (neededTrees (oneFile used)) oneFileCreated := by
  have horig : oneFileCreated.files (getDataFile (str "/c/")) = some DataState.created := by
    rw [oneFileCreated]
    dsimp only
    rw [Function.update_of_ne (tmpName_ne (getDataFile (str "/c/"))).symm]
    exact DataState.start_files _
  have hcreate : createDataFile (tmpName (getDataFile (str "/c/"))) oneFileWorld = .returned () oneFileCreated :=
    DataState.createDataFile_eq rfl _
  rw [copyData, bind_returned hcreate, bind_returned (openFile_eq rfl (Option.isSome_iff_exists.mpr ⟨_, horig⟩)),
    bind_returned (openFile_eq rfl (Option.isSome_iff_exists.mpr ⟨_, oneFileCreated_tmp⟩))]
  cases used <;> rfl

/-- The rebuild succeeds, and keeps the file when it has been seen. -/
theorem oneFile_rebuild (used : Bool) : ∃ s' v,
    rebuild DataState.leftHasher (fun _ => 0) 65536 (str "/c/") (oneFile used) oneFileWorld = .returned (s', false) v ∧
      s'.fileIndex = keptFiles (neededTrees (oneFile used)) (oneFile used).fileIndex := by
  obtain ⟨files, hreplace, -⟩ := replaceBy_eq (tmpName_ne (getDataFile (str "/c/"))) rfl oneFileCreated_tmp
  have hdata : replaceData DataState.leftHasher (fun _ => 0) (str "/c/") (oneFile used) oneFileWorld =
      .returned (neededTrees (oneFile used)) ⟨files, []⟩ := by
    rw [replaceData_eq, bind_returned (oneFile_copyData used), bind_returned hreplace]
    rfl
  let s' (dirty : Bool) : HashStore :=
    ⟨keptFiles (neededTrees (oneFile used)) (oneFile used).fileIndex, neededTrees (oneFile used), dirty⟩
  have hle : (indexPieces (s' true)).flatten.length ≤ maxOffset := by cases used <;> decide +kernel
  obtain ⟨v, hsave⟩ := saveFile_returns (fun _ => 0) 65536 (getIndexFile (str "/c/")) hle (w := ⟨files, []⟩) rfl
  have hsaved : save (fun _ => 0) 65536 (str "/c/") (s' true) ⟨files, []⟩ = .returned (s' false) v := by
    rw [save, if_pos rfl, FileM.handle, bind_returned hsave]
    rfl
  refine ⟨s' false, v, ?_, rfl⟩
  rw [rebuild, FileM.handle, bind_returned hdata, bind_returned hsaved]
  rfl

end Dcpp.HashManager.HashStore
