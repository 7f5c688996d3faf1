import Dcpp.HashStore
import Dcpp.Library.Keyed
import Dcpp.Library.Runs
import Dcpp.TigerTree

-- The trees in the data file of the hash store, over any calls that add and get trees.
namespace Dcpp.HashManager

open Disk HashTree MerkleTree TigerTree ByteFile HashStore

variable {H : TreeHasher TTHValue}

/-- A tree as hashing and the checks of a download leave it. -/
structure CompleteTree (H : TreeHasher TTHValue) where
  tree : TigerTree
  blockSize_pos : 0 < tree.blockSize
  leaves_length : tree.leaves.length = calcBlocks tree.fileSize tree.blockSize
  root_eq : calcRoot H tree = some tree

namespace CompleteTree

theorem root_leaves (t : CompleteTree H) : t.tree.root = rootOf H.combine (wrapped t.tree.leaves) := by
  have h := t.root_eq
  rw [calcRoot_eq t.blockSize_pos t.leaves_length.ge, ← t.leaves_length, Option.some.injEq] at h
  have hroot := congrArg root h
  rw [← hroot]
  dsimp only
  rw [List.take_of_length_le (by rw [wrapped_length])]

theorem leaves_pos (t : CompleteTree H) : 0 < t.tree.leaves.length := by
  rw [t.leaves_length, calcBlocks]
  omega

/-- The tree that is read back. -/
def stored (t : CompleteTree H) : TigerTree := ⟨[], t.tree.leaves, t.tree.root, t.tree.fileSize, t.tree.blockSize⟩

/-- The leaves that were written give the tree, with its root. -/
theorem ofLeafData_eq (t : CompleteTree H) :
    ofLeafData H t.tree.fileSize t.tree.blockSize (leafData t.tree) = some t.stored := by
  rw [ofLeafData, leafData, getLeafData, ofLeafData_leaves t.leaves_length]
  have h := calcRoot_eq (H := H) (t := ⟨[], t.tree.leaves, default, t.tree.fileSize, t.tree.blockSize⟩)
    t.blockSize_pos t.leaves_length.ge
  dsimp only at h
  rw [← t.leaves_length, List.take_of_length_le (by rw [wrapped_length]), ← t.root_leaves] at h
  exact h

/-- A tree of one leaf is its root. -/
theorem ofRoot_eq (t : CompleteTree H) (h : t.tree.leaves.length = 1) :
    ofRoot t.tree.fileSize t.tree.blockSize t.tree.root = t.stored := by
  obtain ⟨leaf, hleaf⟩ := List.length_eq_one_iff.mp h
  have hroot := t.root_leaves
  rw [hleaf] at hroot
  have hone : wrapped [leaf] = [leaf] := rfl
  rw [hone, rootOf_singleton] at hroot
  rw [ofRoot, stored, hleaf, hroot]

theorem leafData_length (t : CompleteTree H) :
    (leafData t.tree).length = t.tree.leaves.length * Encoder.BYTES := by
  have hlen : List.map (fun v : TTHValue => v.toList.length) t.tree.leaves =
      List.replicate t.tree.leaves.length Encoder.BYTES := by
    refine List.eq_replicate_iff.mpr ⟨List.length_map .., fun n hn => ?_⟩
    obtain ⟨v, -, rfl⟩ := List.mem_map.mp hn
    exact Vector.length_toList
  rw [leafData, getLeafData, List.length_flatMap, hlen, List.sum_replicate_nat]

/-- A tree of any leaves of the right number. -/
def ofLeaves (H : TreeHasher TTHValue) (leaves : List TTHValue) (fileSize blockSize : Nat) (hpos : 0 < blockSize)
    (hlen : leaves.length = calcBlocks fileSize blockSize) : CompleteTree H where
  tree := ⟨[], leaves, rootOf H.combine (wrapped leaves), fileSize, blockSize⟩
  blockSize_pos := hpos
  leaves_length := hlen
  root_eq := by
    rw [calcRoot_eq hpos hlen.ge]
    dsimp only
    rw [← hlen, List.take_of_length_le (by rw [wrapped_length])]

end CompleteTree

/-- The position where the next tree goes is in the first bytes of the file. -/
def Header (pos : Nat) (data : Bytes) : Prop := HEADER ≤ pos ∧ pos ≤ maxOffset ∧ readAt 0 HEADER data = encode HEADER pos

theorem Header.toPos_eq {pos : Nat} {data : Bytes} (h : Header pos data) : toPos (readAt 0 HEADER data) = pos := by
  obtain ⟨-, hmax, hread⟩ := h
  rw [maxOffset] at hmax
  rw [hread, toPos]
  have hdec : decode (encode HEADER pos) = pos := decode_encode (by rw [HEADER]; omega)
  rw [hdec, if_pos (by omega)]

/-- The tree that an entry gives with the bytes of the file. -/
def loadedTree (H : TreeHasher TTHValue) (data : Bytes) (cur : Nat) (ti : TreeInfo) (root : TTHValue) :
    Option TigerTree :=
  if ti.index = SMALL_TREE then some (ofRoot ti.size ti.blockSize root)
  else
    (ofLeafData H ti.size ti.blockSize
      (readAt (setPos ti.index cur) (calcBlocks ti.size ti.blockSize * Encoder.BYTES) data)).filter
      fun tt => tt.root = root

theorem loadTree_eq {f : Bytes} {w : World Bytes} {data : Bytes} (hw : w.faults = []) (hfile : w.files f = some data)
    (cur : Nat) (ti : TreeInfo) (root : TTHValue) :
    ∃ cur', loadTree H f cur ti root w = .returned (loadedTree H data cur ti root, cur') w := by
  rw [loadTree, loadedTree]
  split
  next => exact ⟨cur, rfl⟩
  next =>
    rw [FileM.handle, bind_returned (read_eq hw f _ _), contents_of_some hfile]
    exact ⟨_, rfl⟩

/-- `getTree` where there is an entry. -/
theorem getTreeOf_eq {f : Bytes} {w : World Bytes} {data : Bytes} (hw : w.faults = []) (hfile : w.files f = some data)
    (ti : TreeInfo) (root : TTHValue) :
    FileM.handle (do openFile f; let r ← loadTree H f 0 ti root; return r.1) (fun _ => true) (pure none) w =
      .returned (loadedTree H data 0 ti root) w := by
  obtain ⟨cur', hload⟩ := loadTree_eq (H := H) hw hfile 0 ti root
  have hopen := openFile_eq hw (Option.isSome_iff_exists.mpr ⟨data, hfile⟩)
  rw [FileM.handle, bind_returned hopen, bind_returned hload]
  rfl

/-- What `saveTree` does to the file with a tree of several leaves. -/
structure Saved (data : Bytes) (pos : Nat) (bytes : Bytes) (data' : Bytes) : Prop where
  header : Header (pos + bytes.length) data'
  written : readAt pos bytes.length data' = bytes
  length : pos + bytes.length ≤ data'.length
  mono : data.length ≤ data'.length
  kept : ∀ p n, HEADER ≤ p → p + n ≤ pos → p + n ≤ data.length → readAt p n data' = readAt p n data

theorem saved {data grown : Bytes} {pos : Nat} {bytes : Bytes} (hhead : Header pos data) (hne : bytes ≠ [])
    (hmax : pos + bytes.length ≤ maxOffset) (hle : data.length ≤ grown.length)
    (hgrown : ∀ p n, p + n ≤ data.length → readAt p n grown = readAt p n data) :
    Saved data pos bytes (writeAt 0 (encode HEADER (pos + bytes.length)) (writeAt pos bytes grown)) := by
  have hlen := @writeAt_length pos _ grown hne
  have henc : (encode HEADER (pos + bytes.length)).length = HEADER := encode_length _ _
  have hne' : encode HEADER (pos + bytes.length) ≠ [] := by
    intro hnil
    rw [hnil] at henc
    cases henc
  have hlen' := @writeAt_length 0 _ (writeAt pos bytes grown) hne'
  have hpos := hhead.1
  refine ⟨⟨by omega, hmax, ?_⟩, ?_, by omega, by omega, fun p n hp hn hdata => ?_⟩
  · rw [← henc]
    exact readAt_writeAt 0 _ _
  · rw [readAt_writeAt_of_disjoint (by omega) (Or.inr (by omega)), readAt_writeAt]
  · rw [readAt_writeAt_of_disjoint (by omega) (Or.inr (by omega)),
      readAt_writeAt_of_disjoint (by omega) (Or.inl hn), hgrown p n hdata]

/-- Growing the file leaves what is in it. -/
theorem growFile_spec {f : Bytes} {w w' : World Bytes} {data : Bytes} {grow : Bool} {r : Unit} (hw : w.faults = [])
    (hfile : w.files f = some data) (h : growFile f data.length grow w = .returned r w') :
    w'.faults = [] ∧ ∃ grown, w'.files = Function.update w.files f (some grown) ∧ data.length ≤ grown.length ∧
      ∀ p n, p + n ≤ data.length → readAt p n grown = readAt p n data := by
  cases grow with
  | false =>
    cases h
    refine ⟨hw, data, ?_, Nat.le_refl _, fun _ _ _ => rfl⟩
    rw [← hfile, Function.update_eq_self]
  | true =>
    rw [growFile, if_pos rfl] at h
    obtain ⟨-, rfl⟩ := setSize_returned hw h
    refine ⟨hw, _, change_of_some hfile _, ?_, fun p n hn => ?_⟩
    · rw [resize_length]
      omega
    · exact readAt_resize hn (by omega)

theorem saveTree_spec {f : Bytes} {w w' : World Bytes} {data : Bytes} {pos : Nat} {index : Int} (t : CompleteTree H)
    (hw : w.faults = []) (hfile : w.files f = some data) (hhead : Header pos data) (hlen : t.tree.leaves.length ≠ 1)
    (h : saveTree f t.tree w = .returned index w') :
    index = pos ∧ w'.faults = [] ∧ ∃ data', w'.files = Function.update w.files f (some data') ∧
      Saved data pos (leafData t.tree) data' := by
  have hleaves := t.leafData_length
  have hne : leafData t.tree ≠ [] := by
    have hpos := t.leaves_pos
    intro hnil
    rw [hnil, List.length_nil, Encoder.BYTES] at hleaves
    omega
  rw [saveTree, if_neg hlen, bind_returned (read_eq hw f 0 HEADER), contents_of_some hfile] at h
  split_ifs at h
  · cases h
  · rw [hhead.toPos_eq] at h
    obtain ⟨datsz, u, hsize, h⟩ := returned_of_bind h
    cases hsize
    rw [contents_of_some hfile] at h
    obtain ⟨_, v, hgrow, h⟩ := returned_of_bind h
    obtain ⟨hv, grown, hfiles, hle, hgrown⟩ := growFile_spec hw hfile hgrow
    have hcur (cur : Nat) : setPos (pos : Int) cur = pos := by
      rw [setPos, if_pos (Int.natCast_nonneg pos), Int.toNat_natCast]
    rw [hcur] at h
    obtain ⟨_, v', hwrite, h⟩ := returned_of_bind h
    obtain ⟨hmax, rfl⟩ := write_returned hv hwrite
    obtain ⟨_, v'', hwrite', h⟩ := returned_of_bind h
    obtain ⟨-, rfl⟩ := write_returned (w := { v with files := change f (writeAt pos (leafData t.tree)) v.files }) hv hwrite'
    cases h
    rw [← hleaves]
    refine ⟨rfl, hv, _, ?_, saved hhead hne hmax hle hgrown⟩
    dsimp only
    have hgrownfile : v.files f = some grown := by rw [hfiles, Function.update_self]
    rw [change_of_some hgrownfile, change_of_some (Function.update_self ..), Function.update_idem, hfiles,
      Function.update_idem]

/-- A tree that fits in the largest file is saved. -/
theorem saveTree_returns {f : Bytes} {w : World Bytes} {data : Bytes} {pos : Nat} (t : CompleteTree H)
    (hw : w.faults = []) (hfile : w.files f = some data) (hhead : Header pos data) (hdata : HEADER ≤ data.length)
    (hsize : data.length + MEGABYTE ≤ maxOffset) (hpos : pos + (leafData t.tree).length ≤ maxOffset) :
    ∃ index w', saveTree f t.tree w = .returned index w' := by
  by_cases hone : t.tree.leaves.length = 1
  · exact ⟨_, _, by rw [saveTree, if_pos hone]; rfl⟩
  have hread : (readAt 0 HEADER data).length = HEADER := readAt_length (by omega)
  have hgrow (grow : Bool) : ∃ v, growFile f data.length grow w = .returned () v ∧ v.faults = [] := by
    cases grow with
    | false => exact ⟨w, rfl, hw⟩
    | true =>
      rw [growFile, if_pos rfl, setSize_eq hw f hsize]
      exact ⟨_, rfl, hw⟩
  have hcur (cur : Nat) : setPos (pos : Int) cur = pos := by
    rw [setPos, if_pos (Int.natCast_nonneg pos), Int.toNat_natCast]
  rw [saveTree, if_neg hone, bind_returned (read_eq hw f 0 HEADER), contents_of_some hfile, if_neg (by simpa using hread),
    hhead.toPos_eq]
  have hgetSize : getSize f w = .returned data.length w := by rw [getSize, contents_of_some hfile]
  rw [bind_returned hgetSize]
  obtain ⟨v, hv, hvf⟩ := hgrow (decide ((pos : Int) + (t.tree.leaves.length * Encoder.BYTES : Nat) ≥ data.length))
  have hwrite := write_eq hvf f hpos
  have henc : 0 + (encode HEADER (pos + t.tree.leaves.length * Encoder.BYTES)).length ≤ maxOffset := by
    rw [encode_length]
    decide
  have hwrite' := write_eq (w := { v with files := change f (writeAt pos (leafData t.tree)) v.files }) hvf f henc
  rw [bind_returned hv, hcur, bind_returned hwrite, bind_returned hwrite']
  exact ⟨_, _, rfl⟩

/-- The calls that read and write the data file. -/
inductive DataEvent (H : TreeHasher TTHValue) where
  | addTree (tt : CompleteTree H)
  | getTree (root : TTHValue)

structure DataState where
  store : HashStore
  world : World Bytes

namespace DataState

/-- A call that throws or stops has no state after it. -/
def step (dataFile : Bytes) (s : DataState) : DataEvent H → Option DataState
  | .addTree tt =>
    match addTree dataFile tt.tree s.store s.world with
    | .returned store w => some ⟨store, w⟩
    | _ => none
  | .getTree root =>
    match getTree H dataFile root s.store s.world with
    | .returned _ w => some { s with world := w }
    | _ => none

/-- The file as `createDataFile` leaves it. -/
def created : Bytes := writeAt 0 (encode HEADER HEADER) (resize MEGABYTE [])

def start (dataFile : Bytes) : DataState :=
  ⟨⟨[], [], false⟩, ⟨Function.update (fun _ => none) dataFile (some created), []⟩⟩

theorem start_files (dataFile : Bytes) : (start dataFile).world.files dataFile = some created :=
  Function.update_self (β := fun _ => Option Bytes) dataFile (some created) fun _ => none

theorem createDataFile_eq {w : World Bytes} (hw : w.faults = []) (name : Bytes) :
    createDataFile name w = .returned () { w with files := Function.update w.files name (some created) } := by
  have hcreate := createFile_eq hw name
  have hsize := setSize_eq (w := { w with files := Function.update w.files name (some []) }) hw name
    (n := MEGABYTE) (by decide)
  dsimp only at hcreate hsize
  rw [change_of_some (Function.update_self ..), Function.update_idem] at hsize
  have hheader : 0 + (encode HEADER HEADER).length ≤ maxOffset := by decide
  have hwrite := write_eq (w := { w with files := Function.update w.files name (some (resize MEGABYTE [])) }) hw name
    hheader
  dsimp only at hwrite
  rw [change_of_some (Function.update_self ..), Function.update_idem] at hwrite
  rw [createDataFile, FileM.handle, bind_returned hcreate, bind_returned hsize, hwrite]
  rfl

theorem start_eq (dataFile : Bytes) : createDataFile dataFile ⟨fun _ => none, []⟩ = .returned () (start dataFile).world :=
  createDataFile_eq rfl dataFile

/-- The operations on the data file succeed. -/
def Meets (dataFile : Bytes) (s : DataState) : DataEvent H → Prop
  | .addTree tt => findTree tt.tree.root s.store.treeIndex = none →
    ∃ index w, saveTree dataFile tt.tree s.world = .returned index w
  | .getTree _ => True

/-- The first tree that was added for each root. -/
def addFirst (trees : List (CompleteTree H)) : DataEvent H → List (CompleteTree H)
  | .addTree tt => if trees.any fun t => t.tree.root = tt.tree.root then trees else trees ++ [tt]
  | .getTree _ => trees

def firstTrees (events : List (DataEvent H)) : List (CompleteTree H) := events.foldl addFirst []

/-- The first call of `addTree` with a root. -/
def firstTree (root : TTHValue) (events : List (DataEvent H)) : Option (CompleteTree H) :=
  events.findSome? fun
    | .addTree tt => if tt.tree.root = root then some tt else none
    | .getTree _ => none

/-- A tree is where its entry says. -/
structure Stored (data : Bytes) (pos : Nat) (tt : CompleteTree H) (i : TTHValue × TreeInfo) : Prop where
  root : i.1 = tt.tree.root
  size : i.2.size = tt.tree.fileSize
  blockSize : i.2.blockSize = tt.tree.blockSize
  region : tt.tree.leaves.length = 1 ∧ i.2.index = SMALL_TREE ∨
    tt.tree.leaves.length ≠ 1 ∧ ∃ p : Nat, i.2.index = p ∧ HEADER ≤ p ∧ p + (leafData tt.tree).length ≤ pos ∧
      p + (leafData tt.tree).length ≤ data.length ∧ readAt p (leafData tt.tree).length data = leafData tt.tree

/-- The end of the region of an entry. -/
def regionEnd (ti : TreeInfo) : Int := ti.index + (calcBlocks ti.size ti.blockSize * Encoder.BYTES : Nat)

/-- What holds of the store and its data file after any calls. -/
structure Intact (dataFile : Bytes) (trees : List (CompleteTree H)) (s : DataState) : Prop where
  faults : s.world.faults = []
  nodup : (trees.map fun t => t.tree.root).Nodup
  stored : ∃ data pos, s.world.files dataFile = some data ∧ Header pos data ∧
    List.Forall₂ (Stored data pos) trees s.store.treeIndex
  ordered : s.store.treeIndex.Pairwise fun i j =>
    i.2.index ≠ SMALL_TREE → j.2.index ≠ SMALL_TREE → regionEnd i.2 ≤ j.2.index

section

variable {dataFile : Bytes} {data : Bytes} {pos : Nat} {trees : List (CompleteTree H)} {s t : DataState}
  {treeIndex : List (TTHValue × TreeInfo)}

/-- An entry is found for exactly the roots of the trees, and it is the entry of the tree. -/
theorem findTree_cases (h : List.Forall₂ (Stored data pos) trees treeIndex) (root : TTHValue) :
    (trees.find? (fun t => t.tree.root = root) = none ∧ findTree root treeIndex = none) ∨
      ∃ tt i, trees.find? (fun t => t.tree.root = root) = some tt ∧ findTree root treeIndex = some i.2 ∧
        Stored data pos tt i := by
  rw [findTree]
  induction h with
  | nil => exact Or.inl ⟨rfl, rfl⟩
  | @cons tt i trees treeIndex hst _ ih =>
    by_cases hroot : tt.tree.root = root
    · have hi : i.1 = root := hst.root.trans hroot
      have htree : (tt :: trees).find? (fun t => t.tree.root = root) = some tt :=
        List.find?_cons_of_pos (decide_eq_true hroot)
      have hfind : (i :: treeIndex).find? (fun i => i.1 = root) = some i :=
        List.find?_cons_of_pos (decide_eq_true hi)
      rw [htree, hfind]
      exact Or.inr ⟨tt, i, rfl, rfl, hst⟩
    · have hi : ¬i.1 = root := fun hi => hroot (hst.root.symm.trans hi)
      have htree : (tt :: trees).find? (fun t => t.tree.root = root) = trees.find? fun t => t.tree.root = root :=
        List.find?_cons_of_neg (by simpa using hroot)
      have hfind : (i :: treeIndex).find? (fun i => i.1 = root) = treeIndex.find? fun i => i.1 = root :=
        List.find?_cons_of_neg (by simpa using hi)
      rw [htree, hfind]
      exact ih

/-- A tree that is where its entry says is read back. -/
theorem loadedTree_stored {tt : CompleteTree H} {i : TTHValue × TreeInfo} (hst : Stored data pos tt i) (cur : Nat) :
    loadedTree H data cur i.2 tt.tree.root = some tt.stored := by
  obtain ⟨-, hsize, hblock, ⟨hone, hsmall⟩ | ⟨-, p, hp, -, -, -, hread⟩⟩ := hst
  · rw [loadedTree, if_pos hsmall, hsize, hblock, tt.ofRoot_eq hone]
  · have hsmall : i.2.index ≠ SMALL_TREE := by
      rw [hp, SMALL_TREE]
      omega
    have hpos : setPos i.2.index cur = p := by
      rw [hp, setPos, if_pos (Int.natCast_nonneg p), Int.toNat_natCast]
    rw [loadedTree, if_neg hsmall, hpos, hsize, hblock, ← tt.leaves_length, ← tt.leafData_length, hread,
      tt.ofLeafData_eq, Option.filter_some]
    exact if_pos (decide_eq_true rfl)

/-- `getTree` finds the tree for its root, and nothing else changes. -/
theorem getTree_eq (h : Intact dataFile trees s) (root : TTHValue) :
    getTree H dataFile root s.store s.world =
      .returned ((trees.find? fun t => t.tree.root = root).map CompleteTree.stored) s.world := by
  obtain ⟨data, pos, hfile, -, hst⟩ := h.stored
  rw [getTree]
  obtain ⟨hnone, hfind⟩ | ⟨tt, i, htree, hfind, hst⟩ := findTree_cases hst root
  · rw [hfind, hnone]
    rfl
  · have hroot : tt.tree.root = root :=
      of_decide_eq_true (List.find?_some (p := fun t : CompleteTree H => decide (t.tree.root = root)) htree)
    rw [hfind, htree, ← hroot]
    dsimp only
    rw [getTreeOf_eq h.faults hfile, loadedTree_stored hst]
    rfl

theorem Stored.mono {data' : Bytes} {pos' : Nat} (hpos : pos ≤ pos') (hlen : data.length ≤ data'.length)
    (hkept : ∀ p n, HEADER ≤ p → p + n ≤ pos → p + n ≤ data.length → readAt p n data' = readAt p n data)
    {tt : CompleteTree H} {i : TTHValue × TreeInfo} (h : Stored data pos tt i) : Stored data' pos' tt i := by
  obtain ⟨hroot, hsize, hblock, hregion⟩ := h
  refine ⟨hroot, hsize, hblock, hregion.imp_right ?_⟩
  rintro ⟨hone, p, hp, hhead, hend, hdata, hread⟩
  exact ⟨hone, p, hp, hhead, by omega, by omega, (hkept _ _ hhead hend hdata).trans hread⟩

/-- The region of a stored tree ends before the next position. -/
theorem Stored.regionEnd_le {tt : CompleteTree H} {i : TTHValue × TreeInfo} (h : Stored data pos tt i)
    (hi : i.2.index ≠ SMALL_TREE) :
    (HEADER : Int) ≤ i.2.index ∧ regionEnd i.2 ≤ pos ∧ regionEnd i.2 ≤ data.length := by
  obtain ⟨-, hsize, hblock, ⟨-, hsmall⟩ | ⟨-, p, hp, hhead, hend, hdata, -⟩⟩ := h
  · exact absurd hsmall hi
  · have hregion : regionEnd i.2 = (p + (leafData tt.tree).length : Nat) := by
      rw [regionEnd, hp, hsize, hblock, ← tt.leaves_length, ← tt.leafData_length, Nat.cast_add]
    rw [hregion, hp]
    exact ⟨Int.ofNat_le.mpr hhead, Int.ofNat_le.mpr hend, Int.ofNat_le.mpr hdata⟩

theorem exists_of_mem (h : List.Forall₂ (Stored data pos) trees treeIndex) {i : TTHValue × TreeInfo}
    (hi : i ∈ treeIndex) : ∃ tt ∈ trees, Stored data pos tt i := by
  induction h with
  | nil => cases hi
  | @cons tt j trees treeIndex hst _ ih =>
    obtain rfl | hi := List.mem_cons.mp hi
    · exact ⟨tt, List.mem_cons_self, hst⟩
    · obtain ⟨tt, ht, hst⟩ := ih hi
      exact ⟨tt, List.mem_cons_of_mem _ ht, hst⟩

/-- One more tree has its entry at the end. -/
theorem Intact.append (h : Intact dataFile trees s)
    (hst : List.Forall₂ (Stored data pos) trees s.store.treeIndex) {data' : Bytes} {pos' : Nat} {w : World Bytes}
    (hw : w.faults = []) (hfile' : w.files dataFile = some data') (hhead : Header pos' data') (hpos : pos ≤ pos')
    (hlen : data.length ≤ data'.length)
    (hkept : ∀ p n, HEADER ≤ p → p + n ≤ pos → p + n ≤ data.length → readAt p n data' = readAt p n data)
    {tt : CompleteTree H} {ti : TreeInfo} (hnew : Stored data' pos' tt (tt.tree.root, ti))
    (hroot : ∀ t ∈ trees, t.tree.root ≠ tt.tree.root) (hindex : ti.index ≠ SMALL_TREE → ti.index = pos) :
    Intact dataFile (trees ++ [tt])
      ⟨{ s.store with treeIndex := s.store.treeIndex ++ [(tt.tree.root, ti)], dirty := true }, w⟩ where
  faults := hw
  nodup := by
    rw [List.map_append, List.nodup_append]
    refine ⟨h.nodup, List.nodup_singleton _, fun a ha b hb hab => ?_⟩
    obtain ⟨t, ht, rfl⟩ := List.mem_map.mp ha
    obtain rfl := List.mem_singleton.mp hb
    exact hroot t ht hab
  stored := ⟨data', pos', hfile', hhead,
    List.rel_append (hst.imp fun _ _ hst => hst.mono hpos hlen hkept) (List.Forall₂.cons hnew List.Forall₂.nil)⟩
  ordered := by
    refine List.pairwise_append.mpr ⟨h.ordered, List.pairwise_singleton _ _, fun i hi j hj hsi hsj => ?_⟩
    obtain rfl := List.mem_singleton.mp hj
    rw [hindex hsj]
    obtain ⟨t, -, hti⟩ := exists_of_mem hst hi
    exact (hti.regionEnd_le hsi).2.1

theorem addFirst_eq (trees : List (CompleteTree H)) (tt : CompleteTree H) :
    (trees.find? (fun t => t.tree.root = tt.tree.root) = none ∧ addFirst trees (.addTree tt) = trees ++ [tt]) ∨
      ∃ first, trees.find? (fun t => t.tree.root = tt.tree.root) = some first ∧
        addFirst trees (.addTree tt) = trees := by
  rw [addFirst]
  cases hfind : trees.find? fun t => t.tree.root = tt.tree.root with
  | none =>
    have hany : ¬(trees.any fun t => t.tree.root = tt.tree.root) = true := by
      rw [List.any_eq_true]
      exact fun ⟨t, ht, heq⟩ => List.find?_eq_none.mp hfind t ht heq
    exact Or.inl ⟨rfl, if_neg hany⟩
  | some first =>
    have hany : (trees.any fun t => t.tree.root = tt.tree.root) = true :=
      List.any_eq_true.mpr ⟨first, List.mem_of_find?_eq_some hfind,
        List.find?_some (p := fun t : CompleteTree H => decide (t.tree.root = tt.tree.root)) hfind⟩
    exact Or.inr ⟨first, rfl, if_pos hany⟩

/-- A tree that has been saved gets an entry. -/
theorem addTree_eq {store : HashStore} {w v : World Bytes} {tt : CompleteTree H} {index : Int} (hw : w.faults = [])
    (hfind : findTree tt.tree.root store.treeIndex = none) (hfile : w.files dataFile = some data)
    (hsave : saveTree dataFile tt.tree w = .returned index v) :
    addTree dataFile tt.tree store w = .returned
      { store with
        treeIndex := store.treeIndex ++ [(tt.tree.root, ⟨tt.tree.fileSize, index, tt.tree.blockSize⟩)]
        dirty := true } v := by
  have hopen := openFile_eq hw (Option.isSome_iff_exists.mpr ⟨data, hfile⟩)
  rw [addTree, hfind]
  dsimp only
  rw [FileM.noexcept, FileM.handle, bind_returned hopen, bind_returned hsave]
  rfl

/-- A tree with a new root is added. -/
theorem addTree_new (h : Intact dataFile trees s) (tt : CompleteTree H)
    (hnew : trees.find? (fun t => t.tree.root = tt.tree.root) = none)
    (hm : Meets dataFile s (.addTree tt)) (ht : step dataFile s (.addTree tt) = some t) :
    Intact dataFile (trees ++ [tt]) t := by
  obtain ⟨data, pos, hfile, hhead, hst⟩ := h.stored
  have hroot : ∀ t ∈ trees, t.tree.root ≠ tt.tree.root := fun t ht heq =>
    List.find?_eq_none.mp hnew t ht (decide_eq_true heq)
  have hfind : findTree tt.tree.root s.store.treeIndex = none := by
    obtain ⟨-, hfind⟩ | ⟨_, _, hsome, -⟩ := findTree_cases hst tt.tree.root
    · exact hfind
    · rw [hnew] at hsome
      cases hsome
  obtain ⟨index, w, hsave⟩ := hm hfind
  rw [step, addTree_eq h.faults hfind hfile hsave] at ht
  obtain rfl := Option.some.inj ht
  by_cases hone : tt.tree.leaves.length = 1
  · rw [saveTree, if_pos hone] at hsave
    cases hsave
    exact h.append hst h.faults hfile hhead (Nat.le_refl _) (Nat.le_refl _) (fun _ _ _ _ _ => rfl)
      ⟨rfl, rfl, rfl, Or.inl ⟨hone, rfl⟩⟩ hroot fun hne => absurd rfl hne
  · obtain ⟨rfl, hw, data', hfiles, hsaved⟩ := saveTree_spec tt h.faults hfile hhead hone hsave
    have hfile' : w.files dataFile = some data' := by rw [hfiles, Function.update_self]
    exact h.append hst hw hfile' hsaved.header (Nat.le_add_right _ _) hsaved.mono hsaved.kept
      ⟨rfl, rfl, rfl, Or.inr ⟨hone, pos, rfl, hhead.1, Nat.le_refl _, hsaved.length, hsaved.written⟩⟩ hroot
      fun _ => rfl

theorem step_intact (h : Intact dataFile trees s) {e : DataEvent H} (hm : Meets dataFile s e)
    (ht : step dataFile s e = some t) : Intact dataFile (addFirst trees e) t := by
  cases e with
  | addTree tt =>
    obtain ⟨hnew, hadd⟩ | ⟨first, hfirst, hadd⟩ := addFirst_eq trees tt
    · rw [hadd]
      exact addTree_new h tt hnew hm ht
    · obtain ⟨data, pos, -, -, hst⟩ := h.stored
      rw [hadd]
      obtain ⟨hnone, -⟩ | ⟨_, i, -, hfind, -⟩ := findTree_cases hst tt.tree.root
      · rw [hnone] at hfirst
        cases hfirst
      · rw [step, addTree, hfind] at ht
        obtain rfl := Option.some.inj ht
        exact h
  | getTree root =>
    rw [step, getTree_eq h] at ht
    obtain rfl := Option.some.inj ht
    exact h

end

theorem created_header : Header HEADER created := by
  have hread := readAt_writeAt 0 (encode HEADER HEADER) (resize MEGABYTE [])
  rw [encode_length] at hread
  exact ⟨Nat.le_refl _, by decide, hread⟩

theorem start_intact (dataFile : Bytes) : Intact dataFile ([] : List (CompleteTree H)) (start dataFile) where
  faults := rfl
  nodup := List.nodup_nil
  stored := ⟨created, HEADER, start_files dataFile, created_header, List.Forall₂.nil⟩
  ordered := List.Pairwise.nil

theorem run_intact (dataFile : Bytes) {events : List (DataEvent H)} {s : DataState}
    (hm : Runs.Each (step dataFile) (Meets dataFile) (start dataFile) events)
    (hs : Runs.run (step dataFile) (start dataFile) events = some s) :
    Intact dataFile (firstTrees events) s := by
  induction events using List.reverseRecOn generalizing s with
  | nil => exact Option.some.inj hs ▸ start_intact dataFile
  | append_singleton es e ih =>
    obtain ⟨hes, he⟩ := Runs.each_append_singleton hm
    rw [Runs.run_append, Option.bind_eq_some_iff] at hs
    obtain ⟨r, hr, hs⟩ := hs
    rw [Runs.run_singleton] at hs
    rw [firstTrees, List.foldl_append]
    exact step_intact (ih hes hr) (he r hr) hs

/-- The first trees are those that were added first. -/
theorem find?_firstTrees (root : TTHValue) (events : List (DataEvent H)) :
    (firstTrees events).find? (fun t => t.tree.root = root) = firstTree root events := by
  induction events using List.reverseRecOn with
  | nil => rfl
  | append_singleton es e ih =>
    rw [firstTree, List.findSome?_append, ← firstTree, ← ih, firstTrees, List.foldl_append, ← firstTrees]
    change (addFirst (firstTrees es) e).find? _ = _
    cases e with
    | getTree _ => exact (Option.or_none ..).symm
    | addTree tt =>
      rw [List.findSome?_singleton]
      dsimp only
      obtain ⟨hnone, hadd⟩ | ⟨first, hfirst, hadd⟩ := addFirst_eq (firstTrees es) tt
      · rw [hadd, List.find?_append]
        by_cases hroot : tt.tree.root = root
        · rw [if_pos hroot, ← hroot, hnone, Option.none_or, Option.none_or]
          exact List.find?_cons_of_pos (p := fun t : CompleteTree H => decide (t.tree.root = tt.tree.root))
            (decide_eq_true rfl)
        · rw [if_neg hroot]
          congr 1
          exact List.find?_cons_of_neg (by simpa using hroot)
      · rw [hadd]
        by_cases hroot : tt.tree.root = root
        · rw [← hroot, hfirst]
          rfl
        · rw [if_neg hroot]
          exact (Option.or_none ..).symm

/-- After any calls, the first tree that was added for a root is read back, the regions of the trees do
not overlap, and the next position is at or beyond the end of each. -/
theorem trees_intact (dataFile : Bytes) {events : List (DataEvent H)} {s : DataState}
    (hm : Runs.Each (step dataFile) (Meets dataFile) (start dataFile) events)
    (hs : Runs.run (step dataFile) (start dataFile) events = some s) :
    (∀ root tt, firstTree root events = some tt →
      getTree H dataFile root s.store s.world = .returned (some tt.stored) s.world) ∧
    (s.store.treeIndex.Pairwise fun i j => i.2.index ≠ SMALL_TREE → j.2.index ≠ SMALL_TREE →
      regionEnd i.2 ≤ j.2.index) ∧
    ∃ data pos, s.world.files dataFile = some data ∧ Header pos data ∧
      ∀ i ∈ s.store.treeIndex, i.2.index ≠ SMALL_TREE →
        (HEADER : Int) ≤ i.2.index ∧ regionEnd i.2 ≤ pos ∧ regionEnd i.2 ≤ data.length := by
  have h := run_intact dataFile hm hs
  obtain ⟨data, pos, hfile, hhead, hst⟩ := h.stored
  refine ⟨fun root tt hfirst => ?_, h.ordered, data, pos, hfile, hhead, fun i hi hne => ?_⟩
  · rw [getTree_eq h, find?_firstTrees, hfirst]
    rfl
  · obtain ⟨tt, -, hti⟩ := exists_of_mem hst hi
    exact hti.regionEnd_le hne

/-- A hasher that takes the left of two values. -/
def leftHasher : TreeHasher TTHValue := ⟨fun _ => default, fun a _ => a⟩

def pairTree : CompleteTree leftHasher :=
  .ofLeaves leftHasher [Vector.replicate _ 1, Vector.replicate _ 2] 2048 1024 (by decide) (by decide)

theorem trees_intact_pair : ∃ s, Runs.run (step (str "HashData.dat")) (start (str "HashData.dat"))
      [.addTree pairTree] = some s ∧
    getTree leftHasher (str "HashData.dat") pairTree.tree.root s.store s.world =
      .returned (some pairTree.stored) s.world := by
  have hlen : created.length = MEGABYTE := by
    rw [created, writeAt_length (by decide), resize_length, encode_length]
    decide
  obtain ⟨index, w, hsave⟩ := saveTree_returns pairTree rfl (start_files (str "HashData.dat")) created_header (by rw [hlen]; decide)
    (by rw [hlen]; decide) (by rw [pairTree.leafData_length]; decide)
  have hfind : findTree pairTree.tree.root (start (str "HashData.dat")).store.treeIndex = none := rfl
  have hadd := addTree_eq rfl hfind (start_files _) hsave
  obtain ⟨s, hs⟩ : ∃ s, Runs.run (step (str "HashData.dat")) (start (str "HashData.dat")) [.addTree pairTree] = some s := by
    rw [Runs.run_singleton, step, hadd]
    exact ⟨_, rfl⟩
  have hm : Runs.Each (step (str "HashData.dat")) (Meets (str "HashData.dat")) (start (str "HashData.dat"))
      [.addTree pairTree] := Runs.each_cons (fun _ => ⟨index, w, hsave⟩) fun _ _ => Runs.each_nil _ _ _
  refine ⟨_, hs, (trees_intact (str "HashData.dat") hm hs).1 _ _ ?_⟩
  rw [firstTree, List.findSome?_singleton]
  exact if_pos rfl

end DataState

end Dcpp.HashManager
