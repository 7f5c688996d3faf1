import Dcpp.Base32
import Dcpp.HashLoader
import Dcpp.HashRebuild

-- What is loaded from the hash index that was saved.
namespace Dcpp.HashManager

open SimpleXML SimpleXMLReader

theorem ofBase32_toBase32 (v : TTHValue) : TTHValue.ofBase32 v.toBase32 = v := by
  have hbytes : Encoder.fromBase32 v.toBase32 Encoder.BYTES = v.toList := by
    have hread := Encoder.fromBase32_toBase32 v.toList
    rwa [Vector.length_toList] at hread
  apply Vector.toList_inj.mp
  rw [TTHValue.ofBase32, Vector.toList_mk, List.toList_toArray, hbytes]

namespace HashStore

def treeAttribs (i : TTHValue × TreeInfo) : StringPairList :=
  [(str "Type", str "TTH"), (str "Index", Util.toString i.2.index), (str "BlockSize", Util.toString i.2.blockSize),
    (str "Size", Util.toString i.2.size), (str "Root", TTHValue.toBase32 i.1)]

def fileAttribs (f : Bytes × FileInfo) : StringPairList :=
  [(str "Name", f.1 ++ f.2.fileName), (str "TimeStamp", Util.toString f.2.timeStamp),
    (str "Root", TTHValue.toBase32 f.2.root)]

/-- The files with their directories. -/
def listed (fileIndex : List (Bytes × List FileInfo)) : List (Bytes × FileInfo) :=
  fileIndex.flatMap fun i => i.2.map fun fi => (i.1, fi)

/-- The tags of the index. -/
def markup (s : HashStore) : Markup :=
  .element crlf (str "HashStore") [(str "Version", str "3")]
    (.element (str "\r\n\t") (str "Trees") [] (.leaves (str "\r\n\t\t") (str "Hash") treeAttribs s.treeIndex .nil)
      (str "\r\n\t")
      (.element (str "\r\n\t") (str "Files") []
        (.leaves (str "\r\n\t\t") (str "File") fileAttribs (listed s.fileIndex) .nil) (str "\r\n\t") .nil))
    crlf .nil

theorem flatten_treePieces (i : TTHValue × TreeInfo) :
    (treePieces i).flatten = str "\t\t" ++ (tagText (str "Hash") (texts (treeAttribs i)) ++ str "/>") ++ crlf := by
  have hroot : escape (TTHValue.toBase32 i.1) true = TTHValue.toBase32 i.1 := (plain_toBase32 _).escape_eq
  have htype : escape (str "TTH") true = str "TTH" := by decide
  rw [treePieces, treeAttribs]
  simp only [texts, List.map_cons, List.map_nil, (plain_toString _).escape_eq, hroot, htype]
  simp [tagText, attrText, str, crlf]

theorem flatten_filePieces (dir : Bytes) (fi : FileInfo) :
    (filePieces dir fi).flatten =
      str "\t\t" ++ (tagText (str "File") (texts (fileAttribs (dir, fi))) ++ str "/>") ++ crlf := by
  have hroot : escape (TTHValue.toBase32 fi.root) true = TTHValue.toBase32 fi.root := (plain_toBase32 _).escape_eq
  rw [filePieces, fileAttribs]
  simp only [texts, List.map_cons, List.map_nil, (plain_toString _).escape_eq, hroot]
  simp [tagText, attrText, str, crlf]

/-- The lines of the leaves between two others. -/
theorem lines_leaves {α : Type*} (name : Bytes) (attribs : α → StringPairList) (l : List α) :
    (Markup.leaves (str "\r\n\t\t") name attribs l .nil).text ++ str "\r\n\t" =
      crlf ++ (l.flatMap fun a => str "\t\t" ++ (tagText name (texts (attribs a)) ++ str "/>") ++ crlf) ++ str "\t" := by
  exact text_leaves_lines (str "\t\t") name attribs l (show Markup.text .nil ++ str "\r\n\t" = crlf ++ str "\t" from rfl)

theorem flatten_indexPieces (s : HashStore) : s.indexPieces.flatten = xmlDeclaration ++ s.markup.text := by
  have htrees : (s.treeIndex.flatMap treePieces).flatten =
      s.treeIndex.flatMap fun i => str "\t\t" ++ (tagText (str "Hash") (texts (treeAttribs i)) ++ str "/>") ++ crlf := by
    rw [flatten_flatMap]
    exact List.flatMap_congr fun i _ => flatten_treePieces i
  have hfiles : (s.fileIndex.flatMap fun i => i.2.flatMap (filePieces i.1)).flatten =
      (listed s.fileIndex).flatMap fun f =>
        str "\t\t" ++ (tagText (str "File") (texts (fileAttribs f)) ++ str "/>") ++ crlf := by
    rw [flatten_flatMap, listed, List.flatMap_assoc]
    refine List.flatMap_congr fun i _ => ?_
    rw [flatten_flatMap, List.flatMap_map]
    exact List.flatMap_congr fun fi _ => flatten_filePieces i.1 fi
  have htree := lines_leaves (str "Hash") treeAttribs s.treeIndex
  have hfile := lines_leaves (str "File") fileAttribs (listed s.fileIndex)
  rw [indexPieces, List.flatten_append, List.flatten_append, List.flatten_append, List.flatten_append, htrees, hfiles,
    markup]
  simp only [Markup.text]
  generalize (Markup.leaves (str "\r\n\t\t") (str "Hash") treeAttribs s.treeIndex .nil).text = trees at htree ⊢
  generalize (Markup.leaves (str "\r\n\t\t") (str "File") fileAttribs (listed s.fileIndex) .nil).text = files at hfile ⊢
  have hstart : [utf8Header, str "<HashStore Version=\"3\">\r\n", str "\t<Trees>\r\n"].flatten =
      xmlDeclaration ++ (crlf ++ (tagText (str "HashStore") (texts [(str "Version", str "3")]) ++ [byte '>']) ++
        (str "\r\n\t" ++ (tagText (str "Trees") (texts []) ++ [byte '>']) ++ crlf)) := by decide
  have hmiddle : [str "\t</Trees>\r\n\t<Files>\r\n"].flatten = str "\t" ++ (str "</" ++ str "Trees" ++ [byte '>']) ++
      (str "\r\n\t" ++ (tagText (str "Files") (texts []) ++ [byte '>']) ++ crlf) := by decide
  have hend : [str "\t</Files>\r\n</HashStore>"].flatten = str "\t" ++ (str "</" ++ str "Files" ++ [byte '>']) ++ crlf ++
      (str "</" ++ str "HashStore" ++ [byte '>']) := by decide
  have htree' (w : Bytes) : w ++ trees ++ str "\r\n\t" = w ++ (trees ++ str "\r\n\t") := List.append_assoc _ _ _
  have hfile' (w : Bytes) : w ++ files ++ str "\r\n\t" = w ++ (files ++ str "\r\n\t") := List.append_assoc _ _ _
  rw [hstart, hmiddle, hend, htree', hfile', htree, hfile]
  simp only [List.append_assoc, List.append_nil]

section Loading

/-- An entry that the loader takes. -/
def Reloads (ti : TreeInfo) : Prop := (8 ≤ ti.index ∨ ti.index = SMALL_TREE) ∧ 1024 ≤ ti.blockSize

instance (ti : TreeInfo) : Decidable (Reloads ti) := inferInstanceAs (Decidable (_ ∧ _))

/-- The numbers of an entry are such as the program has. -/
structure InRange (ti : TreeInfo) : Prop where
  index_ge : Util.INT64_MIN ≤ ti.index
  index_le : ti.index ≤ Util.INT64_MAX
  size_le : (ti.size : Int) ≤ Util.INT64_MAX
  blockSize_le : (ti.blockSize : Int) ≤ Util.INT64_MAX

def loadedInfo (ti : TreeInfo) : LoadedInfo := ⟨ti.size, ti.index, ti.blockSize⟩

theorem toBase32_ne_nil (v : TTHValue) : TTHValue.toBase32 v ≠ [] := by
  intro h
  have hlen := congrArg List.length h
  rw [TTHValue.toBase32, Encoder.length_toBase32, Vector.length_toList] at hlen
  cases hlen

theorem startHash_treeAttribs {i : TTHValue × TreeInfo} (h : InRange i.2) (l : HashLoader) :
    l.startHash (treeAttribs i) =
      if Reloads i.2 then { l with treeIndex := Keyed.assign Prod.fst (i.1, loadedInfo i.2) l.treeIndex } else l := by
  have hindex : Util.toInt64 (getAttrib (treeAttribs i) (str "Index") 1) = i.2.index :=
    Util.toInt64_toString h.index_ge h.index_le
  have hblock : Util.toInt64 (getAttrib (treeAttribs i) (str "BlockSize") 2) = i.2.blockSize :=
    Util.toInt64_toString (Int.le_trans (by decide) (Int.natCast_nonneg _)) h.blockSize_le
  have hsize : Util.toInt64 (getAttrib (treeAttribs i) (str "Size") 3) = i.2.size :=
    Util.toInt64_toString (Int.le_trans (by decide) (Int.natCast_nonneg _)) h.size_le
  have hroot : getAttrib (treeAttribs i) (str "Root") 4 = TTHValue.toBase32 i.1 := rfl
  have htype : getAttrib (treeAttribs i) (str "Type") 0 = str "TTH" := rfl
  rw [HashLoader.startHash, hindex, hblock, hsize, hroot, htype]
  have hiff : (TTHValue.toBase32 i.1 ≠ [] ∧ str "TTH" = str "TTH" ∧ (i.2.index ≥ 8 ∨ i.2.index = SMALL_TREE) ∧
      (i.2.blockSize : Int) ≥ 1024) ↔ Reloads i.2 :=
    ⟨fun ⟨_, _, hi, hb⟩ => ⟨hi, by omega⟩, fun ⟨hi, hb⟩ => ⟨toBase32_ne_nil i.1, rfl, hi, by omega⟩⟩
  rw [ofBase32_toBase32, loadedInfo]
  exact if_congr hiff rfl rfl

/-- A file in its directory. -/
structure Placed (f : Bytes × FileInfo) : Prop where
  dir : ∃ d, f.1 = d ++ [byte '/']
  name : byte '/' ∉ f.2.fileName
  timeStamp : f.2.timeStamp < 2 ^ 32

theorem Placed.split {f : Bytes × FileInfo} (h : Placed f) :
    ∃ d, f.1.reverse = byte '/' :: d ∧ ∀ c ∈ f.2.fileName.reverse, decide (c ≠ byte '/') = true := by
  obtain ⟨d, hd⟩ := h.dir
  refine ⟨d.reverse, by rw [hd, List.reverse_append]; rfl, fun c hc => decide_eq_true ?_⟩
  rintro rfl
  exact h.name (List.mem_reverse.mp hc)

theorem Placed.getFileName {f : Bytes × FileInfo} (h : Placed f) : Util.getFileName (f.1 ++ f.2.fileName) = f.2.fileName := by
  obtain ⟨d, hd, hname⟩ := h.split
  rw [Util.getFileName, List.reverse_append, List.takeWhile_append_of_pos hname, hd,
    List.takeWhile_cons_of_neg (by simp), List.append_nil, List.reverse_reverse]

theorem Placed.getFilePath {f : Bytes × FileInfo} (h : Placed f) : Util.getFilePath (f.1 ++ f.2.fileName) = f.1 := by
  obtain ⟨d, hd, hname⟩ := h.split
  have hmem : byte '/' ∈ f.1 ++ f.2.fileName := by
    apply List.mem_append_left
    rw [← List.mem_reverse, hd]
    exact List.mem_cons_self
  rw [Util.getFilePath, if_pos hmem, List.reverse_append, List.dropWhile_append_of_pos hname, hd,
    List.dropWhile_cons_of_neg (by simp), ← hd, List.reverse_reverse]

def unused (fi : FileInfo) : FileInfo := { fi with used := false }

theorem startFile_fileAttribs {f : Bytes × FileInfo} (h : Placed f) {l : HashLoader} (hversion : l.version = 3) :
    l.startFile (fileAttribs f) =
      if 0 < f.2.timeStamp then { l with fileIndex := HashLoader.emplaceFile f.1 (unused f.2) l.fileIndex } else l := by
  have hstamp : Util.toUInt32 (getAttrib (fileAttribs f) (str "TimeStamp") 1) = f.2.timeStamp :=
    Util.toUInt32_toString h.timeStamp
  have hname : getAttrib (fileAttribs f) (str "Name") 0 = f.1 ++ f.2.fileName := rfl
  have hroot : getAttrib (fileAttribs f) (str "Root") 2 = TTHValue.toBase32 f.2.root := rfl
  have hne : f.1 ++ f.2.fileName ≠ [] := by
    obtain ⟨d, hd⟩ := h.dir
    rw [hd]
    simp
  have hv : l.version ≠ 2 := by rw [hversion]; decide
  rw [HashLoader.startFile, hstamp, hname, hroot, h.getFilePath, h.getFileName, ofBase32_toBase32]
  by_cases hpos : 0 < f.2.timeStamp
  · rw [if_pos hpos, if_pos ⟨hne, hpos, toBase32_ne_nil f.2.root, hv⟩]
    rfl
  · rw [if_neg hpos, if_neg fun h => hpos h.2.1]

/-- The files of a directory that are loaded. -/
def reloadedFiles (files : List FileInfo) : List FileInfo := (files.filter fun fi => 0 < fi.timeStamp).map unused

def loadedFiles (fileIndex : List (Bytes × List FileInfo)) : List (Bytes × List FileInfo) :=
  fileIndex.filterMap fun i => if reloadedFiles i.2 = [] then none else some (i.1, reloadedFiles i.2)

def loadedTrees (treeIndex : List (TTHValue × TreeInfo)) : List (TTHValue × LoadedInfo) :=
  (treeIndex.filter fun i => Reloads i.2).map fun i => (i.1, loadedInfo i.2)

theorem calls_append (l : HashLoader) (cs cs' : List CallBack) : l.calls (cs ++ cs') = (l.calls cs).calls cs' :=
  List.foldl_append

theorem calls_textCalls (l : HashLoader) (w : Bytes) : l.calls (textCalls w) = l := by
  rw [textCalls]
  split <;> rfl

/-- The calls for tags without content, each after white space. -/
theorem calls_leaves {α : Type*} {P : HashLoader → Prop} (lead name : Bytes) (attribs : α → StringPairList)
    (f : HashLoader → α → HashLoader) {xs : List α} (hP : ∀ l a, P l → P (f l a))
    (h : ∀ l, P l → ∀ a ∈ xs, l.startTag name (attribs a) true = f l a) {l : HashLoader} (hl : P l) :
    l.calls (Markup.leaves lead name attribs xs .nil).calls = xs.foldl f l := by
  rw [Markup.calls_leaves, Markup.calls, List.append_nil]
  induction xs generalizing l with
  | nil => rfl
  | cons a xs ih =>
    have hstart : l.calls [.startTag name (attribs a) true] = f l a := h l hl a List.mem_cons_self
    rw [List.flatMap_cons, calls_append, calls_append, calls_textCalls, hstart, List.foldl_cons]
    exact ih (fun l hl b hb => h l hl b (List.mem_cons_of_mem _ hb)) (hP l a hl)

theorem emplaceFile_new {fpath : Bytes} {fileIndex : List (Bytes × List FileInfo)} (h : fpath ∉ fileIndex.map Prod.fst)
    (fi : FileInfo) : HashLoader.emplaceFile fpath fi fileIndex = fileIndex ++ [(fpath, [fi])] := by
  have hfind : (fileIndex.find? fun i => i.1 = fpath) = none :=
    List.find?_eq_none.mpr fun i hi heq => h (List.mem_map.mpr ⟨i, hi, of_decide_eq_true heq⟩)
  rw [HashLoader.emplaceFile, hfind]

theorem emplaceFile_last {fpath : Bytes} {fileIndex : List (Bytes × List FileInfo)} (h : fpath ∉ fileIndex.map Prod.fst)
    (files : List FileInfo) (fi : FileInfo) : HashLoader.emplaceFile fpath fi (fileIndex ++ [(fpath, files)]) =
      fileIndex ++ [(fpath, files ++ [fi])] := by
  have hkey : ∀ i ∈ fileIndex, i.1 ≠ fpath := fun i hi heq => h (List.mem_map.mpr ⟨i, hi, heq⟩)
  have hfind : ((fileIndex ++ [(fpath, files)]).find? fun i => i.1 = fpath) = some (fpath, files) := by
    rw [List.find?_append, List.find?_eq_none.mpr fun i hi heq => hkey i hi (of_decide_eq_true heq), Option.none_or]
    exact List.find?_cons_of_pos (decide_eq_true rfl)
  rw [HashLoader.emplaceFile, hfind]
  exact Keyed.assign_append hkey rfl

/-- The files of a directory come one after the other. -/
theorem foldl_emplaceFile {fpath : Bytes} {fileIndex : List (Bytes × List FileInfo)}
    (h : fpath ∉ fileIndex.map Prod.fst) (files : List FileInfo) :
    files.foldl (fun l fi => HashLoader.emplaceFile fpath fi l) fileIndex =
      if files = [] then fileIndex else fileIndex ++ [(fpath, files)] := by
  induction files using List.reverseRecOn with
  | nil => rfl
  | append_singleton files fi ih =>
    rw [List.foldl_append, ih, if_neg (List.append_ne_nil_of_right_ne_nil files (List.cons_ne_nil fi []))]
    split
    next hnil => rw [hnil]; exact emplaceFile_new h fi
    next => exact emplaceFile_last h files fi

theorem emplaced (dir : Bytes) (files : List FileInfo) (l : List (Bytes × List FileInfo)) :
    (files.map fun fi => (dir, fi)).foldl
        (fun l f => if 0 < f.2.timeStamp then HashLoader.emplaceFile f.1 (unused f.2) l else l) l =
      (reloadedFiles files).foldl (fun l fi => HashLoader.emplaceFile dir fi l) l := by
  rw [List.foldl_map, reloadedFiles, List.foldl_map, List.foldl_filter]
  simp only [decide_eq_true_eq]

/-- The files are again in the lists of their directories. -/
theorem foldl_listed {acc fileIndex : List (Bytes × List FileInfo)} (h : ((acc ++ fileIndex).map Prod.fst).Nodup) :
    (listed fileIndex).foldl
        (fun l f => if 0 < f.2.timeStamp then HashLoader.emplaceFile f.1 (unused f.2) l else l) acc =
      acc ++ loadedFiles fileIndex := by
  induction fileIndex generalizing acc with
  | nil => exact (List.append_nil acc).symm
  | cons i fileIndex ih =>
    have hnew : i.1 ∉ acc.map Prod.fst := by
      rw [List.map_append, List.map_cons, List.nodup_append] at h
      exact fun hmem => h.2.2 _ hmem _ List.mem_cons_self rfl
    have hcons : listed (i :: fileIndex) = (i.2.map fun fi => (i.1, fi)) ++ listed fileIndex := List.flatMap_cons
    rw [hcons, List.foldl_append, emplaced, foldl_emplaceFile hnew, loadedFiles, List.filterMap_cons]
    split
    next => exact ih (h.sublist ((List.sublist_cons_self i fileIndex).append_left acc |>.map Prod.fst))
    next hne =>
      have hrest := @ih (acc ++ [(i.1, reloadedFiles i.2)]) (by
        rw [List.append_assoc, List.singleton_append, List.map_append, List.map_cons]
        rwa [List.map_append, List.map_cons] at h)
      rwa [List.append_assoc] at hrest

theorem foldl_trees {treeIndex : List (TTHValue × TreeInfo)} (h : (treeIndex.map Prod.fst).Nodup) :
    treeIndex.foldl (fun l i => if Reloads i.2 then Keyed.assign Prod.fst (i.1, loadedInfo i.2) l else l) [] =
      loadedTrees treeIndex := by
  have hnodup : (([] ++ loadedTrees treeIndex).map Prod.fst).Nodup := by
    rw [List.nil_append, loadedTrees, List.map_map]
    exact h.sublist (List.filter_sublist.map Prod.fst)
  have hfold := Keyed.foldl_assign hnodup
  rw [List.nil_append, loadedTrees, List.foldl_map, List.foldl_filter] at hfold
  simp only [decide_eq_true_eq] at hfold
  exact hfold

/-- What the index may hold, so that it can be loaded again. -/
structure Savable (wcharBits : Nat) (s : HashStore) : Prop where
  trees_nodup : (s.treeIndex.map Prod.fst).Nodup
  trees : ∀ i ∈ s.treeIndex, InRange i.2
  files_nodup : (s.fileIndex.map Prod.fst).Nodup
  files : ∀ f ∈ listed s.fileIndex, Placed f
  utf8 : ∀ f ∈ listed s.fileIndex, Text.validateUtf8 wcharBits (f.1 ++ f.2.fileName) = true
  limit : ∀ f ∈ listed s.fileIndex, (f.1 ++ f.2.fileName).length < MAX_VALUE_SIZE

def reading (fileIndex : List (Bytes × List FileInfo)) (treeIndex : List (TTHValue × LoadedInfo)) (inFiles : Bool) :
    HashLoader := ⟨fileIndex, treeIndex, 3, true, inFiles, true⟩

theorem calls_treeLeaves {treeIndex : List (TTHValue × TreeInfo)} (h : ∀ i ∈ treeIndex, InRange i.2)
    (hnodup : (treeIndex.map Prod.fst).Nodup) :
    (reading [] [] false).calls (Markup.leaves (str "\r\n\t\t") (str "Hash") treeAttribs treeIndex .nil).calls =
      reading [] (loadedTrees treeIndex) false := by
  have hfold (xs : List (TTHValue × TreeInfo)) (trees : List (TTHValue × LoadedInfo)) :
      xs.foldl (fun l i => if Reloads i.2 then
          { l with treeIndex := Keyed.assign Prod.fst (i.1, loadedInfo i.2) l.treeIndex } else l) (reading [] trees false) =
        reading [] (xs.foldl (fun l i => if Reloads i.2 then Keyed.assign Prod.fst (i.1, loadedInfo i.2) l else l) trees)
          false := by
    induction xs generalizing trees with
    | nil => rfl
    | cons i xs ih =>
      rw [List.foldl_cons, List.foldl_cons]
      split
      next => exact ih _
      next => exact ih _
  rw [← foldl_trees hnodup, ← hfold]
  refine @calls_leaves _ (fun l => ∃ trees, l = reading [] trees false) _ _ _ _ _ ?_ ?_ _ ⟨[], rfl⟩
  · rintro _ i ⟨trees, rfl⟩
    split
    next => exact ⟨_, rfl⟩
    next => exact ⟨_, rfl⟩
  · rintro _ ⟨trees, rfl⟩ i hi
    exact startHash_treeAttribs (h i hi) _

theorem calls_fileLeaves {fileIndex : List (Bytes × List FileInfo)} (h : ∀ f ∈ listed fileIndex, Placed f)
    (hnodup : (fileIndex.map Prod.fst).Nodup) (trees : List (TTHValue × LoadedInfo)) :
    (reading [] trees true).calls (Markup.leaves (str "\r\n\t\t") (str "File") fileAttribs (listed fileIndex) .nil).calls =
      reading (loadedFiles fileIndex) trees true := by
  have hfold (xs : List (Bytes × FileInfo)) (files : List (Bytes × List FileInfo)) :
      xs.foldl (fun l f => if 0 < f.2.timeStamp then
          { l with fileIndex := HashLoader.emplaceFile f.1 (unused f.2) l.fileIndex } else l) (reading files trees true) =
        reading (xs.foldl (fun l f => if 0 < f.2.timeStamp then HashLoader.emplaceFile f.1 (unused f.2) l else l) files)
          trees true := by
    induction xs generalizing files with
    | nil => rfl
    | cons f xs ih =>
      rw [List.foldl_cons, List.foldl_cons]
      split
      next => exact ih _
      next => exact ih _
  have hlisted := @foldl_listed [] fileIndex (by rwa [List.nil_append])
  rw [List.nil_append] at hlisted
  rw [← hlisted, ← hfold]
  refine @calls_leaves _ (fun l => ∃ files, l = reading files trees true) _ _ _ _ _ ?_ ?_ _ ⟨[], rfl⟩
  · rintro _ f ⟨files, rfl⟩
    split
    next => exact ⟨_, rfl⟩
    next => exact ⟨_, rfl⟩
  · rintro _ ⟨files, rfl⟩ f hf
    exact startFile_fileAttribs (h f hf) rfl

/-- The calls for a saved index give its entries. -/
theorem calls_markup {wcharBits : Nat} {s : HashStore} (h : Savable wcharBits s) :
    HashLoader.start.calls s.markup.calls = reading (loadedFiles s.fileIndex) (loadedTrees s.treeIndex) true := by
  have hstart : HashLoader.start.calls (textCalls crlf ++ [.startTag (str "HashStore") [(str "Version", str "3")] false] ++
      (textCalls (str "\r\n\t") ++ [.startTag (str "Trees") [] false])) = reading [] [] false := by decide
  have hfiles (trees : List (TTHValue × LoadedInfo)) : (reading [] trees false).calls
      (textCalls (str "\r\n\t") ++ [.endTag (str "Trees")] ++
        (textCalls (str "\r\n\t") ++ [.startTag (str "Files") [] false])) = reading [] trees true := rfl
  have hend (l : HashLoader) : l.calls (textCalls (str "\r\n\t") ++ [.endTag (str "Files")] ++
      (textCalls crlf ++ [.endTag (str "HashStore")])) = l := rfl
  have hcalls : s.markup.calls =
      textCalls crlf ++ [.startTag (str "HashStore") [(str "Version", str "3")] false] ++
        (textCalls (str "\r\n\t") ++ [.startTag (str "Trees") [] false]) ++
        (Markup.leaves (str "\r\n\t\t") (str "Hash") treeAttribs s.treeIndex .nil).calls ++
        (textCalls (str "\r\n\t") ++ [.endTag (str "Trees")] ++
          (textCalls (str "\r\n\t") ++ [.startTag (str "Files") [] false])) ++
        (Markup.leaves (str "\r\n\t\t") (str "File") fileAttribs (listed s.fileIndex) .nil).calls ++
        (textCalls (str "\r\n\t") ++ [.endTag (str "Files")] ++ (textCalls crlf ++ [.endTag (str "HashStore")])) := by
    rw [markup]
    simp only [Markup.calls, List.append_assoc, List.append_nil]
  rw [hcalls, calls_append, hend, calls_append, calls_append]
  generalize textCalls (str "\r\n\t") ++ [.endTag (str "Trees")] ++ _ = middle at hfiles ⊢
  rw [calls_append, hstart, calls_treeLeaves h.trees h.trees_nodup, hfiles, calls_fileLeaves h.files h.files_nodup]

theorem takes_root (wcharBits : Nat) {name : Bytes} (hname : IsName name) (v : TTHValue) :
    Takes wcharBits (name, TTHValue.toBase32 v) := takes_toBase32 wcharBits hname Vector.length_toList.le

theorem takes_treeAttribs (wcharBits : Nat) {i : TTHValue × TreeInfo} (h : InRange i.2) :
    ∀ a ∈ treeAttribs i, Takes wcharBits a := by
  obtain ⟨hge, hle, hsize, hblock⟩ := h
  rw [Util.INT64_MIN] at hge
  rw [Util.INT64_MAX] at hle hsize hblock
  have htype : Takes wcharBits (str "Type", str "TTH") := ⟨by decide, validateUtf8_of_all _ (by decide), by decide⟩
  have hindex : Takes wcharBits (str "Index", Util.toString i.2.index) := takes_toString _ (by decide) (by omega)
  have hblockSize : Takes wcharBits (str "BlockSize", Util.toString i.2.blockSize) :=
    takes_toString _ (by decide) (by omega)
  have hfileSize : Takes wcharBits (str "Size", Util.toString i.2.size) := takes_toString _ (by decide) (by omega)
  have hroot : Takes wcharBits (str "Root", TTHValue.toBase32 i.1) := takes_root _ (by decide) _
  rw [treeAttribs]
  simp only [List.forall_mem_cons]
  exact ⟨htype, hindex, hblockSize, hfileSize, hroot, fun _ h => absurd h List.not_mem_nil⟩

theorem Savable.takes_fileAttribs {wcharBits : Nat} {s : HashStore} (h : Savable wcharBits s) {f : Bytes × FileInfo}
    (hf : f ∈ listed s.fileIndex) : ∀ a ∈ fileAttribs f, Takes wcharBits a := by
  have hlt := (h.files f hf).timeStamp
  have hname : IsName (str "Name") := by decide
  have hstamp : Takes wcharBits (str "TimeStamp", Util.toString f.2.timeStamp) := takes_toString _ (by decide) (by omega)
  have hroot : Takes wcharBits (str "Root", TTHValue.toBase32 f.2.root) := takes_root _ (by decide) _
  rw [fileAttribs]
  simp only [List.forall_mem_cons]
  exact ⟨⟨hname, h.utf8 f hf, h.limit f hf⟩, hstamp, hroot, fun _ h => absurd h List.not_mem_nil⟩

theorem Savable.readable_markup {wcharBits : Nat} {s : HashStore} (h : Savable wcharBits s) :
    Readable wcharBits s.markup := by
  have hspace (w : Bytes) (hw : w ∈ [crlf, str "\r\n\t", str "\r\n\t\t"]) : Space w := by
    have hall : ∀ w ∈ [crlf, str "\r\n\t", str "\r\n\t\t"], w.all isSpace = true ∧ w.length < MAX_VALUE_SIZE := by
      decide
    exact ⟨List.all_eq_true.mp (hall w hw).1, (hall w hw).2⟩
  have hversion : ∀ a ∈ [(str "Version", str "3")], Takes wcharBits a := by
    intro a ha
    obtain rfl := List.mem_singleton.mp ha
    exact ⟨by decide, validateUtf8_of_all _ (by decide), by decide⟩
  have hnone : ∀ a ∈ ([] : StringPairList), Takes wcharBits a := fun _ h => absurd h List.not_mem_nil
  have htrees : Readable wcharBits (.leaves (str "\r\n\t\t") (str "Hash") treeAttribs s.treeIndex .nil) :=
    readable_leaves (hspace _ (by decide)) (by decide) (fun i hi => takes_treeAttribs wcharBits (h.trees i hi)) .nil
  have hfiles : Readable wcharBits (.leaves (str "\r\n\t\t") (str "File") fileAttribs (listed s.fileIndex) .nil) :=
    readable_leaves (hspace _ (by decide)) (by decide) (fun _ hf => h.takes_fileAttribs hf) .nil
  have hsections : Readable wcharBits (.element (str "\r\n\t") (str "Files") []
      (.leaves (str "\r\n\t\t") (str "File") fileAttribs (listed s.fileIndex) .nil) (str "\r\n\t") .nil) :=
    .element (hspace _ (by decide)) (by decide) hnone hfiles (hspace _ (by decide)) .nil
  exact .element (hspace crlf (by decide)) (by decide) hversion (.element (hspace (str "\r\n\t") (by decide)) (by decide)
    hnone htrees (hspace (str "\r\n\t") (by decide)) hsections) (hspace crlf (by decide)) .nil

theorem nesting_markup (s : HashStore) : s.markup.nesting ≤ MAX_NESTING := by
  have htrees := Markup.nesting_leaves (str "\r\n\t\t") (str "Hash") treeAttribs s.treeIndex .nil
  have hfiles := Markup.nesting_leaves (str "\r\n\t\t") (str "File") fileAttribs (listed s.fileIndex) .nil
  rw [Markup.nesting] at htrees hfiles
  rw [markup, MAX_NESTING]
  simp only [Markup.nesting]
  omega

/-- An index that was saved is loaded as it was, whatever the reads of its file give. -/
theorem load_indexPieces {cfg : Config} (hlower : cfg.platform.toLower Text.utf8 = Text.utf8) {s : HashStore}
    (h : Savable cfg.platform.wcharBits s) {chunks : List Bytes} (hchunks : chunks.flatten = s.indexPieces.flatten) :
    ∃ fuel, load cfg fuel chunks = some (reading (loadedFiles s.fileIndex) (loadedTrees s.treeIndex) true) := by
  have hspace : Space [] := ⟨fun _ h => absurd h List.not_mem_nil, by decide⟩
  obtain ⟨fuel, hread⟩ := @readStream_written cfg hlower s.markup h.readable_markup (nesting_markup s) [] hspace chunks
    (by rw [hchunks, flatten_indexPieces, List.append_nil]) 0 (Or.inl rfl)
  refine ⟨fuel, ?_⟩
  rw [load, hread, Option.map_some]
  dsimp only
  rw [calls_markup h]

end Loading

end HashStore

end Dcpp.HashManager
