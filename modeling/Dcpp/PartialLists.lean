import Dcpp.ListContents

namespace Dcpp.DirectoryListing

open SimpleXMLReader OrderedTree

/-- A list of a part of the tree: a document with one listing. -/
structure PartialList where
  tags : Tags
  attribs : StringPairList
  content : Tags
  one : tags.listings = [(attribs, content)]

namespace PartialList

def baseOf (attribs : StringPairList) : Bytes :=
  let b := getAttrib attribs (str "Base") 2
  if b.head? = some (byte '/') ∧ b.getLast? = some (byte '/') then b else str "/"

/-- The directories on the way to the base, with the base itself last. -/
def base (p : PartialList) : List Bytes := tokens ((baseOf p.attribs).drop 1) (byte '/')

end PartialList

/-- What is done to one directory. -/
inductive Change where
  | complete (c : Bool)
  | file (f : File)

variable (less : Bytes → Bytes → Prop) [DecidableRel less]

def Change.apply : Change → DirectoryNode → DirectoryNode
  | .complete c => orComplete c
  | .file f => putFile less f

/-- Changes with the directories that they are done to. -/
abbrev Changes := List (List Bytes × Change)

def visits (cs : Changes) : List (List Bytes × (DirectoryNode → DirectoryNode)) :=
  cs.map fun c => (c.1, c.2.apply less)

def changeAll (cs : Changes) (d : Directory) : Directory := visitAll less DirectoryNode.name newNode (visits less cs) d

def Entry.toChange : Entry → Change
  | (_, .file f) => .file f
  | (_, .directory _ c) => .complete c

/-- What a list says of the tree, up to an exception: its base is complete, and it has these directories and files. -/
def PartialList.changes (p : PartialList) : Changes :=
  (p.base, .complete true) :: p.content.read.1.map fun e => (p.base ++ e.path, e.toChange)

namespace Listing

/-- The listing after an update, which may have thrown. -/
def update (list : Listing) (p : PartialList) : Listing :=
  match list.load less true p.tags.calls with
  | .returned l => l.listing
  | .threw _ l => l.listing
  | .undefined => list

def updates (list : Listing) (ps : List PartialList) : Listing := ps.foldl (update less) list

/-- What lists say of the tree; of an aborted one nothing is read. -/
def said (list : Listing) (ps : List PartialList) : Changes :=
  if list.abort then [] else ps.flatMap PartialList.changes

end Listing

/-- A directory that the set would take for one on the way has the very name. -/
def Finds : List Bytes → Directory → Prop
  | [], _ => True
  | i :: sl, d => ∀ c, child less DirectoryNode.name i d = some c → c.label.name = i ∧ Finds sl c

/-- So it is for every list in turn. -/
def AllFind : Listing → List PartialList → Prop
  | _, [] => True
  | list, p :: ps => Finds less p.base list.root ∧ AllFind (list.update less p) ps

variable {less}

@[simp] theorem name_apply (c : Change) (n : DirectoryNode) : (c.apply less n).name = n.name := by cases c <;> rfl

theorem name_visits {cs : Changes} : ∀ v ∈ visits less cs, ∀ n, (v.2 n).name = n.name := by
  intro v hv n
  obtain ⟨c, _, rfl⟩ := List.mem_map.mp hv
  exact name_apply c.2 n

theorem change_eq_apply (e : Entry) : e.change less = e.toChange.apply less := by
  obtain ⟨p, i⟩ := e
  cases i <;> rfl

theorem changeAll_append (cs cs' : Changes) (d : Directory) :
    changeAll less (cs ++ cs') d = changeAll less cs' (changeAll less cs d) := by
  rw [changeAll, visits, List.map_append, visitAll_append]
  rfl

theorem addAll_eq (es : List Entry) (d : Directory) :
    addAll less es d = changeAll less (es.map fun e => (e.path, e.toChange)) d := by
  rw [addAll, changeAll, visitAll, visits, List.map_map, List.foldl_map]
  congr 1
  funext d e
  rw [add, change_eq_apply]
  rfl

theorem alterAt_changeAll {cs : Changes} {g : Directory → Directory} (hg : ∀ d, (g d).label.name = d.label.name)
    [IsStrictWeakOrder Bytes less] (p : List Bytes) (d : Directory) :
    alterAt less DirectoryNode.name newNode (fun d => changeAll less cs (g d)) p d =
      changeAll less (cs.map fun c => (p ++ c.1, c.2)) (alterAt less DirectoryNode.name newNode g p d) := by
  change alterAt less _ newNode (fun d => visitAll less _ newNode (visits less cs) (g d)) p d = _
  rw [alterAt_visitAll name_newNode name_visits hg, changeAll, visits, visits, List.map_map, List.map_map]
  rfl

variable [IsStrictWeakOrder Bytes less]

/-- The very name is there when the set has one that ties with it. -/
theorem enterBase_eq {i : Bytes} {p : Place}
    (h : ∀ c, child less DirectoryNode.name i p.cur = some c → c.label.name = i) :
    p.enterBase less i =
      p.enter less i ((child less DirectoryNode.name i p.cur).getD (.node (newNode i) [])) := by
  have htie : ∀ d : Directory, d.label.name = i → OrderedSet.Tie less d.label.name i := fun d hd =>
    hd ▸ OrderedSet.Tie.refl _
  rw [Place.enterBase, Place.find]
  cases hc : child less DirectoryNode.name i p.cur with
  | none =>
    have hnone : p.cur.children.find? (fun j => j.label.name = i) = none := by
      refine List.find?_eq_none.mpr fun d hd hname => ?_
      have hnot := List.find?_eq_none.mp hc d hd
      exact hnot (decide_eq_true (htie d (of_decide_eq_true hname)))
    rw [hnone]
    rfl
  | some c =>
    obtain ⟨_, as, bs, hcs, has⟩ := List.find?_eq_some_iff_append.mp hc
    have hsome : p.cur.children.find? (fun j => j.label.name = i) = some c := by
      refine List.find?_eq_some_iff_append.mpr ⟨decide_eq_true (h c hc), as, bs, hcs, fun d hd => ?_⟩
      have hnot := has d hd
      simp only [Bool.not_eq_true', decide_eq_false_iff_not] at hnot ⊢
      exact fun hname => hnot (htie d hname)
    rw [hsome]
    rfl

/-- A change at the base is one at the path of the base from the root. -/
theorem root_enterBases {sl : List Bytes} {p : Place} (h : Finds less sl p.cur) (g : Directory → Directory) :
    Place.root ⟨g (p.enterBases less sl).cur, (p.enterBases less sl).parents⟩ =
      Place.root ⟨alterAt less DirectoryNode.name newNode g sl p.cur, p.parents⟩ := by
  induction sl generalizing p with
  | nil => rfl
  | cons i sl ih =>
    set d : Directory := (child less DirectoryNode.name i p.cur).getD (.node (newNode i) []) with hd
    have henter : p.enterBases less (i :: sl) = (p.enter less i d).enterBases less sl := by
      rw [Place.enterBases, List.foldl_cons, enterBase_eq fun c hc => (h c hc).1]
      rfl
    have hfinds : Finds less sl (p.enter less i d).cur := by
      change Finds less sl d
      cases hc : child less DirectoryNode.name i p.cur with
      | none =>
        rw [hd, hc, Option.getD_none]
        cases sl with
        | nil => trivial
        | cons j sl => exact fun c hc => nomatch hc
      | some c =>
        rw [hd, hc, Option.getD_some]
        exact (h c hc).2
    obtain ⟨parent, hparents, hdir⟩ : ∃ parent, (p.enter less i d).parents = parent :: p.parents ∧
        parent.directory (alterAt less DirectoryNode.name newNode g sl d) =
          putChild less DirectoryNode.name i (alterAt less DirectoryNode.name newNode g sl d) p.cur :=
      ListLoader.directory_enter i d _ p
    rw [henter, ih hfinds, alterAt, ← hd, ← hdir, hparents]
    rfl

namespace Listing

/-- What an update makes of the tree when it finds its base. -/
theorem root_loaded {list : Listing} {p : PartialList} (h : Finds less p.base list.root) (es : List Entry) :
    ((ListLoader.ofListing list true).loaded less p.attribs es).listing.root =
      alterAt less DirectoryNode.name newNode (fun d => addAll less es (setComplete d)) p.base list.root := by
  have hbase : ((ListLoader.ofListing list true).takeBase (getAttrib p.attribs (str "Base") 2)).base =
      PartialList.baseOf p.attribs := by
    rw [ListLoader.takeBase, PartialList.baseOf]
    split <;> rfl
  have hplace : ((ListLoader.ofListing list true).enterListing less p.attribs).place =
      ((Place.mk list.root []).enterBases less p.base).setComplete := by
    change Place.setComplete (Place.enterBases less (tokens (List.drop 1 (ListLoader.takeBase _ _).base) _)
      (ListLoader.takeBase _ _).place) = _
    rw [hbase, ListLoader.takeBase_place]
    rfl
  have hroot := root_enterBases (p := ⟨list.root, []⟩) h fun d => addAll less es (setComplete d)
  change Place.root ⟨addAll less es ((ListLoader.ofListing list true).enterListing less p.attribs).place.cur,
    ((ListLoader.ofListing list true).enterListing less p.attribs).place.parents⟩ = _
  rw [hplace]
  exact hroot

theorem alterAt_eq_changeAll (b : List Bytes) (es : List Entry) (d : Directory) :
    alterAt less DirectoryNode.name newNode (fun d => addAll less es (setComplete d)) b d =
      changeAll less ((b, .complete true) :: es.map fun e => (b ++ e.path, e.toChange)) d := by
  simp only [addAll_eq]
  have hset : setComplete = fun d => .node ((Change.complete true).apply less d.label) d.children := by
    funext d
    rw [Change.apply, orComplete, Bool.or_true, setComplete]
  rw [alterAt_changeAll (g := setComplete) fun _ => rfl, List.map_map, hset]
  rfl

omit [IsStrictWeakOrder Bytes less] in
theorem abort_loaded (list : Listing) (attribs : StringPairList) (es : List Entry) :
    ((ListLoader.ofListing list true).loaded less attribs es).listing.abort = list.abort := by
  change ((ListLoader.ofListing list true).enterListing less attribs).abort = _
  rw [ListLoader.abort_enterListing]
  rfl

/-- What an update leaves, whether it threw or not. -/
theorem update_eq (list : Listing) (p : PartialList) :
    list.update less p =
      if list.abort then (ListLoader.ofListing list true).listing
      else ((ListLoader.ofListing list true).loaded less p.attribs p.content.read.1).listing := by
  rw [update]
  by_cases habort : list.abort = true
  · have hthrew : list.load less true p.tags.calls = .threw "" (ListLoader.ofListing list true) :=
      ListLoader.calls_abort habort (by rw [p.one]; exact List.cons_ne_nil _ _)
    rw [hthrew, if_pos habort]
  · have hlive := Bool.not_eq_true _ ▸ habort
    rw [if_neg habort]
    cases hload : list.load less true p.tags.calls with
    | undefined => exact absurd hload (ListLoader.calls_prefix_ne_undefined p.tags _ (List.prefix_refl _))
    | returned l =>
      obtain ⟨_, rfl, _⟩ := ListLoader.calls_returned less p.one rfl hlive hload
      rfl
    | threw aError l => exact (ListLoader.calls_threw p.one rfl hlive rfl hload).2

theorem abort_update (list : Listing) (p : PartialList) : (list.update less p).abort = list.abort := by
  rw [update_eq]
  split
  next => rfl
  next => exact abort_loaded list p.attribs _

/-- One update does what its list says. -/
theorem root_update {list : Listing} {p : PartialList} (h : Finds less p.base list.root) :
    (list.update less p).root = changeAll less (list.said [p]) list.root := by
  rw [update_eq, said]
  by_cases habort : list.abort = true
  · rw [if_pos habort, if_pos habort]
    rfl
  · rw [if_neg habort, if_neg habort, root_loaded h, alterAt_eq_changeAll, List.flatMap_singleton]
    rfl

variable (less) in
theorem said_cons (list : Listing) (p : PartialList) (ps : List PartialList) :
    list.said (p :: ps) = list.said [p] ++ (list.update less p).said ps := by
  rw [said, said, said, abort_update]
  split
  next => rfl
  next => rw [List.flatMap_cons, List.flatMap_singleton]

/-- A run does what its lists say in turn. -/
theorem root_updates {list : Listing} {ps : List PartialList} (h : AllFind less list ps) :
    (list.updates less ps).root = changeAll less (list.said ps) list.root := by
  induction ps generalizing list with
  | nil =>
    rw [said, List.flatMap_nil, ite_self]
    rfl
  | cons p ps ih =>
    rw [said_cons less, changeAll_append, ← root_update h.1]
    exact ih h.2

end Listing

end Dcpp.DirectoryListing
