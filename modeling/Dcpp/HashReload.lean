import Dcpp.HashIndexRoundTrip

-- The hash store over the calls that use it, and when the program is started again.
namespace Dcpp.HashManager

open Disk MerkleTree HashStore SimpleXML SimpleXMLReader

variable {H : TreeHasher TTHValue}

/-- The calls that use the store, and the timer that saves it. -/
inductive StoreCall (H : TreeHasher TTHValue) where
  | addTree (tt : CompleteTree H)
  | addFile (aFileName : Bytes) (aTimeStamp : Nat) (tth : CompleteTree H) (aUsed : Bool)
  | getTTH (aFileName : Bytes) (aSize aTimeStamp : Nat)
  | getTree (root : TTHValue)
  | save

/-- The numbers of a tree are such as hashing gives. -/
structure Sized (fileSize blockSize : Nat) : Prop where
  size_le : (fileSize : Int) ≤ Util.INT64_MAX
  blockSize_ge : 1024 ≤ blockSize
  blockSize_le : (blockSize : Int) ≤ Util.INT64_MAX

/-- A path that the index can hold. -/
structure Path (wcharBits : Nat) (path : Bytes) : Prop where
  absolute : byte '/' ∈ path
  utf8 : Text.validateUtf8 wcharBits path = true
  limit : path.length < MAX_VALUE_SIZE

/-- An entry of a file that can be loaded again. -/
structure Entry (wcharBits : Nat) (f : Bytes × FileInfo) : Prop where
  placed : Placed f
  pos : 0 < f.2.timeStamp
  utf8 : Text.validateUtf8 wcharBits (f.1 ++ f.2.fileName) = true
  limit : (f.1 ++ f.2.fileName).length < MAX_VALUE_SIZE

section Paths

variable {wcharBits : Nat} {path : Bytes}

theorem Path.split (h : Path wcharBits path) :
    (∃ d, Util.getFilePath path = d ++ [byte '/']) ∧ byte '/' ∉ Util.getFileName path ∧
      Util.getFilePath path ++ Util.getFileName path = path := by
  have hmem : byte '/' ∈ path.reverse := List.mem_reverse.mpr h.absolute
  have hsplit := List.takeWhile_append_dropWhile (p := fun c => decide (c ≠ byte '/')) (l := path.reverse)
  have hdrop : ∃ d, path.reverse.dropWhile (fun c => decide (c ≠ byte '/')) = byte '/' :: d := by
    generalize path.reverse = w at hmem
    induction w with
    | nil => cases hmem
    | cons c w ih =>
      by_cases hc : c = byte '/'
      · subst hc
        exact ⟨w, List.dropWhile_cons_of_neg (by simp)⟩
      · have hskip : (c :: w).dropWhile (fun c => decide (c ≠ byte '/')) = w.dropWhile fun c => decide (c ≠ byte '/') :=
          List.dropWhile_cons_of_pos (decide_eq_true hc)
        rw [hskip]
        exact ih ((List.mem_cons.mp hmem).resolve_left fun heq => hc heq.symm)
  obtain ⟨d, hd⟩ := hdrop
  rw [Util.getFilePath, Util.getFileName, if_pos h.absolute]
  refine ⟨⟨d.reverse, by rw [hd, List.reverse_cons]⟩, fun hname => ?_, ?_⟩
  · have hne := List.mem_takeWhile_imp (List.mem_reverse.mp hname)
    exact absurd rfl (of_decide_eq_true hne)
  · rw [← List.reverse_append, hsplit, List.reverse_reverse]

theorem Path.entry (h : Path wcharBits path) {root : TTHValue} {timeStamp : Nat} (hpos : 0 < timeStamp)
    (hlt : timeStamp < 2 ^ 32) (used : Bool) :
    Entry wcharBits (Util.getFilePath path, ⟨Util.getFileName path, root, timeStamp, used⟩) := by
  obtain ⟨hdir, hname, hpath⟩ := h.split
  exact ⟨⟨hdir, hname, hlt⟩, hpos, by rw [hpath]; exact h.utf8, by rw [hpath]; exact h.limit⟩

end Paths

namespace StoreCall

section

variable (device : Bytes → Nat) (bufSize : Nat) (config : Bytes)

/-- A call that throws or stops has no state after it. -/
def step (s : DataState) : StoreCall H → Option DataState
  | .addTree tt => DataState.step (getDataFile config) s (.addTree tt)
  | .addFile aFileName aTimeStamp tth aUsed =>
    match HashStore.addFile (getDataFile config) aFileName aTimeStamp tth.tree aUsed s.store s.world with
    | .returned store w => some ⟨store, w⟩
    | _ => none
  | .getTTH aFileName aSize aTimeStamp => some { s with store := (HashStore.getTTH aFileName aSize aTimeStamp s.store).2 }
  | .getTree root => DataState.step (getDataFile config) s (DataEvent.getTree (H := H) root)
  | .save =>
    match HashStore.save device bufSize config s.store s.world with
    | .returned store w => some ⟨store, w⟩
    | _ => none

/-- The operations on the files succeed, and the index can hold the file. -/
def Meets (wcharBits : Nat) (s : DataState) : StoreCall H → Prop
  | .addTree tt => DataState.Meets (getDataFile config) s (.addTree tt) ∧ Sized tt.tree.fileSize tt.tree.blockSize
  | .addFile aFileName aTimeStamp tth _ =>
    (DataState.Meets (getDataFile config) s (.addTree tth) ∧ Sized tth.tree.fileSize tth.tree.blockSize) ∧
      Path wcharBits aFileName ∧ 0 < aTimeStamp ∧ aTimeStamp < 2 ^ 32
  | .getTTH _ _ _ => True
  | .getTree _ => True
  | .save => s.store.indexPieces.flatten.length ≤ maxOffset

end

/-- What holds of the store and its files after any calls. -/
structure Consistent (H : TreeHasher TTHValue) (wcharBits : Nat) (config : Bytes) (s : DataState) : Prop where
  intact : ∃ trees : List (CompleteTree H), DataState.Intact (getDataFile config) trees s
  sized : ∀ i ∈ s.store.treeIndex, Sized i.2.size i.2.blockSize
  nodup : (s.store.fileIndex.map Prod.fst).Nodup
  entries : ∀ i ∈ s.store.fileIndex, ∀ fi ∈ i.2, Entry wcharBits (i.1, fi)
  saved : s.store.dirty = false → ∀ text, s.world.files (getIndexFile config) = some text →
    text = s.store.indexPieces.flatten

section

variable {wcharBits : Nat} {config : Bytes} {s t : DataState}

theorem intact_congr {dataFile : Bytes} {trees : List (CompleteTree H)} (h : DataState.Intact dataFile trees s)
    (htrees : t.store.treeIndex = s.store.treeIndex) (hfaults : t.world.faults = [])
    (hfiles : t.world.files dataFile = s.world.files dataFile) : DataState.Intact dataFile trees t where
  faults := hfaults
  nodup := h.nodup
  stored := by
    rw [hfiles, htrees]
    exact h.stored
  ordered := by
    rw [htrees]
    exact h.ordered

/-- The entries after a change in one directory. -/
theorem entries_modifyFirst {fileIndex : List (Bytes × List FileInfo)} {fpath : Bytes} {f : List FileInfo → List FileInfo}
    (h : ∀ i ∈ fileIndex, ∀ fi ∈ i.2, Entry wcharBits (i.1, fi))
    (hf : ∀ l, (∀ fi ∈ l, Entry wcharBits (fpath, fi)) → ∀ fi ∈ f l, Entry wcharBits (fpath, fi)) :
    ∀ i ∈ Keyed.modifyFirst (fun i => i.1 = fpath) (fun i => (i.1, f i.2)) fileIndex, ∀ fi ∈ i.2,
      Entry wcharBits (i.1, fi) := by
  refine Keyed.mem_forall₂ (R := fun i j => (∀ fi ∈ i.2, Entry wcharBits (i.1, fi)) → ∀ fi ∈ j.2, Entry wcharBits (j.1, fi))
    (P := fun i => ∀ fi ∈ i.2, Entry wcharBits (i.1, fi)) (fun _ _ hij hi => hij hi)
    (Keyed.forall₂_modifyFirst (fun _ hi => hi) (fun i hi => ?_) fileIndex) h
  obtain rfl := of_decide_eq_true hi
  exact hf i.2

theorem nodup_modifyFirst {fileIndex : List (Bytes × List FileInfo)} (h : (fileIndex.map Prod.fst).Nodup) (fpath : Bytes)
    (f : List FileInfo → List FileInfo) :
    ((Keyed.modifyFirst (fun i => i.1 = fpath) (fun i => (i.1, f i.2)) fileIndex).map Prod.fst).Nodup := by
  have hmap := @Keyed.map_modifyFirst _ _ (fun i => decide (i.1 = fpath)) (fun i => (i.1, f i.2)) Prod.fst
    (fun _ _ => rfl) fileIndex
  rwa [hmap]

theorem entry_used {dir : Bytes} {fi : FileInfo} (h : Entry wcharBits (dir, fi)) (used : Bool) :
    Entry wcharBits (dir, { fi with used := used }) :=
  ⟨⟨h.placed.dir, h.placed.name, h.placed.timeStamp⟩, h.pos, h.utf8, h.limit⟩

/-- A file that has been seen. -/
def seen (j : FileInfo) : FileInfo := { j with used := true }

def seeIn (fname : Bytes) (l : List FileInfo) : List FileInfo := Keyed.modifyFirst (fun j => j.fileName = fname) seen l

def see (fpath fname : Bytes) (fileIndex : List (Bytes × List FileInfo)) : List (Bytes × List FileInfo) :=
  Keyed.modifyFirst (fun i => i.1 = fpath) (fun i => (i.1, seeIn fname i.2)) fileIndex

/-- The index does not say which files have been seen. -/
theorem indexPieces_see (fpath fname : Bytes) (s : HashStore) :
    indexPieces { s with fileIndex := see fpath fname s.fileIndex } = s.indexPieces := by
  have hlist (dir : Bytes) (l : List FileInfo) : (seeIn fname l).flatMap (filePieces dir) = l.flatMap (filePieces dir) := by
    have hmap := @Keyed.map_modifyFirst _ _ (fun j => decide (j.fileName = fname)) seen (filePieces dir) (fun _ _ => rfl) l
    rw [seeIn, List.flatMap_def, List.flatMap_def, hmap]
  have hmap := @Keyed.map_modifyFirst _ _ (fun i => decide (i.1 = fpath)) (fun i => (i.1, seeIn fname i.2))
    (fun i => i.2.flatMap (filePieces i.1)) (fun i _ => hlist i.1 i.2) s.fileIndex
  have hsee : (see fpath fname s.fileIndex).flatMap (fun i => i.2.flatMap (filePieces i.1)) =
      s.fileIndex.flatMap fun i => i.2.flatMap (filePieces i.1) := by rw [see, List.flatMap_def, List.flatMap_def, hmap]
  rw [indexPieces, indexPieces, hsee]

theorem getTTH_consistent (h : Consistent H wcharBits config s) (aFileName : Bytes) (aSize aTimeStamp : Nat) :
    Consistent H wcharBits config { s with store := (HashStore.getTTH aFileName aSize aTimeStamp s.store).2 } := by
  obtain ⟨⟨trees, hintact⟩, hsized, hnodup, hentries, hsaved⟩ := h
  rw [HashStore.getTTH]
  dsimp only
  split
  next => exact ⟨⟨trees, hintact⟩, hsized, hnodup, hentries, hsaved⟩
  next =>
    split
    next => exact ⟨⟨trees, hintact⟩, hsized, hnodup, hentries, hsaved⟩
    next =>
      split
      next =>
        refine ⟨⟨trees, intact_congr hintact rfl hintact.faults rfl⟩, hsized, nodup_modifyFirst hnodup _ _,
          entries_modifyFirst hentries fun l hl fi hfi => ?_, ?_⟩
        · obtain hfi | ⟨fi', hfi', rfl⟩ := Keyed.mem_modifyFirst hfi
          · exact hl fi hfi
          · exact entry_used (hl fi' hfi') true
        · have hpieces := indexPieces_see (Util.getFilePath aFileName) (Util.getFileName aFileName) s.store
          exact fun hdirty text htext => (hsaved hdirty text htext).trans (congrArg List.flatten hpieces.symm)
      next =>
        refine ⟨⟨trees, intact_congr hintact rfl hintact.faults rfl⟩, hsized, nodup_modifyFirst hnodup _ _,
          entries_modifyFirst hentries fun l hl fi hfi => hl fi (List.mem_of_mem_eraseP hfi), fun h => by cases h⟩

theorem addFileInfo_consistent (h : Consistent H wcharBits config s) {aFileName : Bytes} (hpath : Path wcharBits aFileName)
    {aTimeStamp : Nat} (hpos : 0 < aTimeStamp) (hlt : aTimeStamp < 2 ^ 32) (tth : TTHValue) (aUsed : Bool) :
    Consistent H wcharBits config { s with store := addFileInfo aFileName aTimeStamp tth aUsed s.store } := by
  obtain ⟨⟨trees, hintact⟩, hsized, hnodup, hentries, hsaved⟩ := h
  have hnew : Entry wcharBits (Util.getFilePath aFileName, ⟨Util.getFileName aFileName, tth, aTimeStamp, aUsed⟩) :=
    hpath.entry hpos hlt aUsed
  have hadd (l : List FileInfo) (hl : ∀ fi ∈ l, Entry wcharBits (Util.getFilePath aFileName, fi)) :
      ∀ fi ∈ l.eraseP (fun j => j.fileName = Util.getFileName aFileName) ++
        [⟨Util.getFileName aFileName, tth, aTimeStamp, aUsed⟩], Entry wcharBits (Util.getFilePath aFileName, fi) := by
    intro fi hfi
    obtain hfi | hfi := List.mem_append.mp hfi
    · exact hl fi (List.mem_of_mem_eraseP hfi)
    · obtain rfl := List.mem_singleton.mp hfi
      exact hnew
  rw [addFileInfo]
  dsimp only
  split
  next =>
    exact ⟨⟨trees, intact_congr hintact rfl hintact.faults rfl⟩, hsized,
      nodup_modifyFirst hnodup (Util.getFilePath aFileName) fun l =>
        l.eraseP (fun j => j.fileName = Util.getFileName aFileName) ++ [⟨Util.getFileName aFileName, tth, aTimeStamp, aUsed⟩],
      entries_modifyFirst hentries hadd, fun h => by cases h⟩
  next hany =>
    refine ⟨⟨trees, intact_congr hintact rfl hintact.faults rfl⟩, hsized, ?_, ?_, fun h => by cases h⟩
    · rw [List.map_append, List.nodup_append]
      refine ⟨hnodup, List.nodup_singleton _, fun a ha b hb hab => hany ?_⟩
      obtain ⟨i, hi, rfl⟩ := List.mem_map.mp ha
      obtain rfl := List.mem_singleton.mp hb
      exact List.any_eq_true.mpr ⟨i, hi, decide_eq_true hab⟩
    · intro i hi
      obtain hi | hi := List.mem_append.mp hi
      · exact hentries i hi
      · obtain rfl := List.mem_singleton.mp hi
        exact hadd [] fun _ h => absurd h List.not_mem_nil

/-- A tree that is added has its numbers in the index. -/
theorem addTree_consistent (h : Consistent H wcharBits config s) {tt : CompleteTree H}
    (hm : DataState.Meets (getDataFile config) s (.addTree tt)) (hsized : Sized tt.tree.fileSize tt.tree.blockSize)
    (ht : DataState.step (getDataFile config) s (.addTree tt) = some t) : Consistent H wcharBits config t := by
  obtain ⟨⟨trees, hintact⟩, hsized', hnodup, hentries, hsaved⟩ := h
  obtain ⟨data, pos, hfile, -, -⟩ := hintact.stored
  have hintact' := DataState.step_intact hintact hm ht
  cases hfind : findTree tt.tree.root s.store.treeIndex with
  | some ti =>
    rw [DataState.step, HashStore.addTree, hfind] at ht
    obtain rfl := Option.some.inj ht
    exact ⟨⟨trees, hintact⟩, hsized', hnodup, hentries, hsaved⟩
  | none =>
    obtain ⟨index, w, hsave⟩ := hm hfind
    rw [DataState.step, DataState.addTree_eq hintact.faults hfind hfile hsave] at ht
    obtain rfl := Option.some.inj ht
    refine ⟨⟨_, hintact'⟩, fun i hi => ?_, hnodup, hentries, fun h => by cases h⟩
    obtain hi | hi := List.mem_append.mp hi
    · exact hsized' i hi
    · obtain rfl := List.mem_singleton.mp hi
      exact hsized

theorem getIndexFile_ne (config : Bytes) :
    getDataFile config ≠ SaveFile.tmpName (getIndexFile config) ∧ getDataFile config ≠ getIndexFile config := by
  rw [getDataFile, getIndexFile, SaveFile.tmpName, List.append_assoc]
  exact ⟨fun h => absurd (List.append_cancel_left h) (by decide), fun h => absurd (List.append_cancel_left h) (by decide)⟩

/-- Saving makes the index that of the store. -/
theorem save_eq (device : Bytes → Nat) (bufSize : Nat) {s : HashStore} (hdirty : s.dirty = true) {w : World Bytes}
    (hw : w.faults = []) (hle : s.indexPieces.flatten.length ≤ maxOffset) :
    ∃ files, HashStore.save device bufSize config s w = .returned { s with dirty := false } ⟨files, []⟩ ∧
      files (getIndexFile config) = some s.indexPieces.flatten ∧
      files (getDataFile config) = w.files (getDataFile config) := by
  obtain ⟨hne, hne'⟩ := getIndexFile_ne config
  obtain ⟨files, hsave, hfile⟩ := SaveFile.saveFile_saved device bufSize (getIndexFile config) hle hw
  have hkeeps := SaveFile.keeps_saveFile hne hne' device bufSize s.indexPieces w
  rw [hsave] at hkeeps
  refine ⟨files, ?_, hfile, hkeeps⟩
  rw [HashStore.save, if_pos hdirty, FileM.handle, bind_returned hsave]
  rfl

theorem save_consistent (device : Bytes → Nat) (bufSize : Nat) (h : Consistent H wcharBits config s)
    (hle : s.store.indexPieces.flatten.length ≤ maxOffset)
    (ht : step (H := H) device bufSize config s .save = some t) : Consistent H wcharBits config t := by
  obtain ⟨⟨trees, hintact⟩, hsized, hnodup, hentries, hsaved⟩ := h
  rw [step] at ht
  cases hdirty : s.store.dirty with
  | false =>
    rw [HashStore.save, if_neg (by rw [hdirty]; exact Bool.false_ne_true)] at ht
    obtain rfl := Option.some.inj ht
    exact ⟨⟨trees, hintact⟩, hsized, hnodup, hentries, hsaved⟩
  | true =>
    obtain ⟨files, hsave, hindex, hdata⟩ := @save_eq config device bufSize s.store hdirty s.world hintact.faults hle
    rw [hsave] at ht
    obtain rfl := Option.some.inj ht
    refine ⟨⟨trees, intact_congr hintact rfl rfl hdata⟩, hsized, hnodup, hentries, fun _ text htext => ?_⟩
    exact Option.some.inj (htext.symm.trans hindex)

theorem step_consistent (device : Bytes → Nat) (bufSize : Nat) (h : Consistent H wcharBits config s) {c : StoreCall H}
    (hm : Meets config wcharBits s c) (ht : step device bufSize config s c = some t) : Consistent H wcharBits config t := by
  cases c with
  | addTree tt => exact addTree_consistent h hm.1 hm.2 ht
  | addFile aFileName aTimeStamp tth aUsed =>
    obtain ⟨⟨hmeets, hsized⟩, hpath, hpos, hlt⟩ := hm
    rw [step, HashStore.addFile] at ht
    split at ht
    next store w hadd =>
      obtain ⟨store', v, haddTree, hpure⟩ := returned_of_bind hadd
      cases hpure
      obtain rfl := Option.some.inj ht
      have hstep : DataState.step (getDataFile config) s (.addTree tth) = some ⟨store', w⟩ := by
        rw [DataState.step, haddTree]
      exact addFileInfo_consistent (addTree_consistent h hmeets hsized hstep) hpath hpos hlt _ _
    next => cases ht
  | getTTH aFileName aSize aTimeStamp =>
    obtain rfl := Option.some.inj ht
    exact getTTH_consistent h aFileName aSize aTimeStamp
  | getTree root =>
    obtain ⟨trees, hintact⟩ := h.intact
    rw [step, DataState.step, DataState.getTree_eq hintact] at ht
    obtain rfl := Option.some.inj ht
    exact h
  | save => exact save_consistent device bufSize h hm ht

theorem start_consistent (wcharBits : Nat) (config : Bytes) :
    Consistent H wcharBits config (DataState.start (getDataFile config)) where
  intact := ⟨[], DataState.start_intact _⟩
  sized := fun _ h => absurd h List.not_mem_nil
  nodup := List.nodup_nil
  entries := fun _ h => absurd h List.not_mem_nil
  saved := fun _ text htext => by
    rw [DataState.start] at htext
    dsimp only at htext
    rw [Function.update_of_ne (getIndexFile_ne config).2.symm] at htext
    cases htext

theorem run_consistent (device : Bytes → Nat) (bufSize wcharBits : Nat) (config : Bytes) {calls : List (StoreCall H)}
    (hm : Runs.Each (step device bufSize config) (Meets config wcharBits) (DataState.start (getDataFile config)) calls)
    (hs : Runs.run (step device bufSize config) (DataState.start (getDataFile config)) calls = some s) :
    Consistent H wcharBits config s :=
  Runs.run_preserves (fun _ _ _ h hm ht => step_consistent device bufSize h hm ht) (start_consistent wcharBits config) hm hs

theorem map_roots {data : Bytes} {pos : Nat} {trees : List (CompleteTree H)} {treeIndex : List (TTHValue × TreeInfo)}
    (h : List.Forall₂ (DataState.Stored data pos) trees treeIndex) :
    treeIndex.map Prod.fst = trees.map fun t => t.tree.root := by
  induction h with
  | nil => rfl
  | cons hst _ ih => rw [List.map_cons, List.map_cons, hst.root, ih]

/-- A store that the calls have led to can be saved. -/
theorem Consistent.savable (h : Consistent H wcharBits config s) : Savable wcharBits s.store := by
  obtain ⟨⟨trees, hintact⟩, hsized, hnodup, hentries, -⟩ := h
  obtain ⟨data, pos, -, hhead, hstored⟩ := hintact.stored
  have hlisted {f : Bytes × FileInfo} (hf : f ∈ listed s.store.fileIndex) : Entry wcharBits f := by
    obtain ⟨i, hi, hf⟩ := List.mem_flatMap.mp hf
    obtain ⟨fi, hfi, rfl⟩ := List.mem_map.mp hf
    exact hentries i hi fi hfi
  refine ⟨by rw [map_roots hstored]; exact hintact.nodup, fun i hi => ?_, hnodup, fun f hf => (hlisted hf).placed,
    fun f hf => (hlisted hf).utf8, fun f hf => (hlisted hf).limit⟩
  obtain ⟨tt, -, hst⟩ := DataState.exists_of_mem hstored hi
  obtain ⟨hsize, -, hblock⟩ := hsized i hi
  have hmax := hhead.2.1
  rw [maxOffset] at hmax
  by_cases hsmall : i.2.index = SMALL_TREE
  · exact ⟨by rw [hsmall]; decide, by rw [hsmall]; decide, hsize, hblock⟩
  · obtain ⟨hge, hle, -⟩ := hst.regionEnd_le hsmall
    rw [HEADER] at hge
    rw [DataState.regionEnd] at hle
    refine ⟨?_, ?_, hsize, hblock⟩
    · rw [Util.INT64_MIN]
      omega
    · rw [Util.INT64_MAX]
      omega

/-- The loader takes every entry of such a store. -/
theorem Consistent.reloads (h : Consistent H wcharBits config s) : ∀ i ∈ s.store.treeIndex, Reloads i.2 := by
  intro i hi
  obtain ⟨trees, hintact⟩ := h.intact
  obtain ⟨data, pos, -, -, hstored⟩ := hintact.stored
  obtain ⟨tt, -, hst⟩ := DataState.exists_of_mem hstored hi
  refine ⟨?_, (h.sized i hi).blockSize_ge⟩
  by_cases hsmall : i.2.index = SMALL_TREE
  · exact Or.inr hsmall
  · exact Or.inl (hst.regionEnd_le hsmall).1

end

end StoreCall

namespace HashLoader

/-- The store that the loader has filled. -/
def store (l : HashLoader) : HashStore :=
  ⟨l.fileIndex, l.treeIndex.map fun i => (i.1, ⟨i.2.size.toNat, i.2.index, i.2.blockSize.toNat⟩), false⟩

end HashLoader

namespace HashStore

section

variable {s : HashStore}

theorem store_loadedTrees (h : ∀ i ∈ s.treeIndex, Reloads i.2) (files : List (Bytes × List FileInfo)) :
    (reading files (loadedTrees s.treeIndex) true).store = ⟨files, s.treeIndex, false⟩ := by
  have hall : s.treeIndex.filter (fun i => Reloads i.2) = s.treeIndex :=
    List.filter_eq_self.mpr fun i hi => decide_eq_true (h i hi)
  rw [HashLoader.store, reading, loadedTrees, hall, List.map_map]
  congr 1
  exact List.map_id _

theorem reloadedFiles_eq {files : List FileInfo} (h : ∀ fi ∈ files, 0 < fi.timeStamp) :
    reloadedFiles files = files.map unused := by
  rw [reloadedFiles, List.filter_eq_self.mpr fun fi hfi => decide_eq_true (h fi hfi)]

/-- A file is found as before, and has not been seen yet. -/
theorem findFile_loadedFiles (hnodup : (s.fileIndex.map Prod.fst).Nodup)
    (hpos : ∀ i ∈ s.fileIndex, ∀ fi ∈ i.2, 0 < fi.timeStamp) (treeIndex : List (TTHValue × TreeInfo)) (aFileName : Bytes) :
    findFile aFileName ⟨loadedFiles s.fileIndex, treeIndex, false⟩ = (findFile aFileName s).map unused := by
  have hkey (i j : Bytes × List FileInfo)
      (hij : (if reloadedFiles i.2 = [] then none else some (i.1, reloadedFiles i.2)) = some j) : j.1 = i.1 := by
    split at hij
    · cases hij
    · rw [← Option.some.inj hij]
  rw [findFile, findFile, loadedFiles, Keyed.find?_filterMap hkey hnodup]
  cases hfind : s.fileIndex.find? fun i => i.1 = Util.getFilePath aFileName with
  | none => rfl
  | some i =>
    have hi := List.mem_of_find?_eq_some hfind
    rw [Option.bind_some, Option.bind_some, reloadedFiles_eq (hpos i hi)]
    split
    next hnil =>
      rw [List.map_eq_nil_iff.mp hnil]
      rfl
    next => exact List.find?_map

end

end HashStore

theorem baseBlockSize_pos : 0 < baseBlockSize := Nat.succ_pos 1023

/-- A tree of one leaf. -/
def leafTree : CompleteTree DataState.leftHasher :=
  .ofLeaves DataState.leftHasher [Vector.replicate _ (byte 'a')] 0 baseBlockSize baseBlockSize_pos rfl

/-- A file whose tree has one leaf, and the saving of the index. -/
def fileCalls : List (StoreCall DataState.leftHasher) := [.addFile (str "/d/a") 1 leafTree true, .save]

def fileStore : HashStore := ⟨[(str "/d/", [⟨str "a", leafTree.tree.root, 1, true⟩])],
  [(leafTree.tree.root, ⟨0, SMALL_TREE, 1024⟩)], true⟩

theorem addFile_fileStore : StoreCall.step (fun _ => 0) 65536 (str "/c/") (DataState.start (getDataFile (str "/c/")))
    (.addFile (str "/d/a") 1 leafTree true) = some ⟨fileStore, (DataState.start (getDataFile (str "/c/"))).world⟩ := by
  have hsave : saveTree (getDataFile (str "/c/")) leafTree.tree (DataState.start (getDataFile (str "/c/"))).world =
      .returned SMALL_TREE (DataState.start (getDataFile (str "/c/"))).world := rfl
  have hfind : findTree leafTree.tree.root (DataState.start (getDataFile (str "/c/"))).store.treeIndex = none := rfl
  have hadd := DataState.addTree_eq rfl hfind (DataState.start_files (getDataFile (str "/c/"))) hsave
  rw [StoreCall.step, HashStore.addFile, bind_returned hadd]
  rfl

end Dcpp.HashManager
