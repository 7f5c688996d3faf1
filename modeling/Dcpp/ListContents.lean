import Dcpp.ListLoader
import Mathlib.Data.List.Lex

namespace Dcpp.DirectoryListing

open SimpleXMLReader OrderedTree

/-- What a File or a Directory tag is about. -/
inductive Item where
  | file (f : File)
  | directory (name : Bytes) (complete : Bool)

/-- An item with the names of the Directory elements around it, the innermost last. -/
abbrev Entry := List Bytes × Item

/-- What a tag says, and whether the loader goes on after it. -/
def itemsOf (name : Bytes) (attribs : StringPairList) : List Entry × Bool :=
  if name = str "File" then ((ListLoader.fileOf attribs).toList.map fun f => ([], .file f), true)
  else if name = str "Directory" then
    if ListLoader.nameOf attribs = [] then ([], false)
    else ([([], .directory (ListLoader.nameOf attribs) (ListLoader.completeOf attribs))], true)
  else ([], true)

def under (name : Bytes) (e : Entry) : Entry := (name :: e.1, e.2)

/-- What is said inside of a tag, as the tag's parent sees it. -/
def inside (name : Bytes) (attribs : StringPairList) (es : List Entry) : List Entry :=
  if name = str "Directory" then es.map (under (ListLoader.nameOf attribs)) else es

/-- Nothing is read after an exception. -/
def andRead (x y : List Entry × Bool) : List Entry × Bool := if x.2 then (x.1 ++ y.1, y.2) else x

namespace Tags

/-- The File and Directory elements that have the attributes they must have. -/
def items : Tags → List Entry
  | nil => []
  | simple name attribs rest => (itemsOf name attribs).1 ++ rest.items
  | element name attribs ins rest => (itemsOf name attribs).1 ++ (inside name attribs ins.items ++ rest.items)

/-- Those up to the first Directory that has no name, and whether there is none. -/
def read : Tags → List Entry × Bool
  | nil => ([], true)
  | simple name attribs rest => andRead (itemsOf name attribs) rest.read
  | element name attribs ins rest =>
    andRead (andRead (itemsOf name attribs) (inside name attribs ins.read.1, ins.read.2)) rest.read

theorem andRead_all {x y : List Entry × Bool} (h : (andRead x y).2 = true) :
    x.2 = true ∧ y.2 = true ∧ (andRead x y).1 = x.1 ++ y.1 := by
  rw [andRead] at h ⊢
  by_cases hx : x.2 = true
  · rw [if_pos hx] at h ⊢
    exact ⟨hx, h, rfl⟩
  · rw [if_neg hx] at h
    exact absurd h hx

theorem read_eq_items (tags : Tags) (h : tags.read.2 = true) : tags.read.1 = tags.items := by
  induction tags with
  | nil => rfl
  | simple name attribs rest ih =>
    obtain ⟨_, hr, he⟩ := andRead_all h
    rw [read, he, ih hr, items]
  | element name attribs ins rest ihi ihr =>
    obtain ⟨h₁, hr, he⟩ := andRead_all h
    obtain ⟨_, hi, he₁⟩ := andRead_all h₁
    rw [read, he, he₁, ihr hr, items, ihi hi, List.append_assoc]

end Tags

variable (less : Bytes → Bytes → Prop) [DecidableRel less]

def putFile (f : File) (n : DirectoryNode) : DirectoryNode :=
  { n with files := OrderedSet.put less File.name f.name f n.files }

def orComplete (complete : Bool) (n : DirectoryNode) : DirectoryNode := { n with complete := n.complete || complete }

/-- The path of the directory that an entry changes. -/
def Entry.path : Entry → List Bytes
  | (p, .file _) => p
  | (p, .directory name _) => p ++ [name]

def Entry.change : Entry → DirectoryNode → DirectoryNode
  | (_, .file f) => putFile less f
  | (_, .directory _ complete) => orComplete complete

/-- The directory with an entry, which gives way to it or takes it in when it is there already. -/
def add (d : Directory) (e : Entry) : Directory := visit less DirectoryNode.name newNode (e.change less) e.path d

def addAll (es : List Entry) (d : Directory) : Directory := es.foldl (add less) d

/-- There is no such file, or directory, yet. -/
def Absent (d : Directory) : Entry → Prop
  | (p, .file f) => ∀ n, labelAt less DirectoryNode.name p d = some n →
    OrderedSet.find less File.name f.name n.files = none
  | (p, .directory name _) => look less DirectoryNode.name (p ++ [name]) d = none

/-- None of the entries is there when its turn comes. -/
def Fresh : List Entry → Directory → Prop
  | [], _ => True
  | e :: es, d => Absent less d e ∧ Fresh es (add less d e)

variable {less}

@[simp] theorem name_newNode (name : Bytes) : (newNode name).name = name := rfl

@[simp] theorem name_change (e : Entry) (n : DirectoryNode) : (e.change less n).name = n.name := by
  obtain ⟨p, i⟩ := e
  cases i <;> rfl

@[simp] theorem addAll_nil (d : Directory) : addAll less [] d = d := rfl

@[simp] theorem addAll_cons (e : Entry) (es : List Entry) (d : Directory) :
    addAll less (e :: es) d = addAll less es (add less d e) := rfl

theorem addAll_append (es es' : List Entry) (d : Directory) :
    addAll less (es ++ es') d = addAll less es' (addAll less es d) := List.foldl_append

theorem name_addAll (es : List Entry) (d : Directory) : (addAll less es d).label.name = d.label.name := by
  induction es generalizing d with
  | nil => rfl
  | cons e es ih =>
    rw [addAll_cons, ih, add]
    exact key_alterAt (fun t => name_change e t.label) _ _

theorem fresh_append (es es' : List Entry) (d : Directory) :
    Fresh less (es ++ es') d ↔ Fresh less es d ∧ Fresh less es' (addAll less es d) := by
  induction es generalizing d with
  | nil => exact (true_and _).symm ▸ Iff.rfl
  | cons e es ih => rw [List.cons_append, Fresh, Fresh, ih, addAll_cons, and_assoc]

theorem path_under (name : Bytes) (e : Entry) : (under name e).path = name :: e.path := by
  obtain ⟨p, i⟩ := e
  cases i <;> rfl

theorem change_under (name : Bytes) (e : Entry) : (under name e).change less = e.change less := by
  obtain ⟨p, i⟩ := e
  cases i <;> rfl

variable [IsStrictWeakOrder Bytes less]

/-- Entries below a directory change that directory alone. -/
theorem addAll_under (name : Bytes) (es : List Entry) {g : Directory → Directory}
    (hg : ∀ d, (g d).label.name = d.label.name) (d : Directory) :
    addAll less (es.map (under name)) (alterAt less DirectoryNode.name newNode g [name] d) =
      alterAt less DirectoryNode.name newNode (fun d => addAll less es (g d)) [name] d := by
  induction es generalizing g with
  | nil => rfl
  | cons e es ih =>
    have hadd : add less (alterAt less DirectoryNode.name newNode g [name] d) (under name e) =
        alterAt less DirectoryNode.name newNode (fun d => add less (g d) e) [name] d := by
      rw [add, path_under, change_under]
      exact alterAt_alterAt name_newNode hg [name] d
    have hname : ∀ d, (add less (g d) e).label.name = d.label.name := fun d =>
      (name_addAll [e] (g d)).trans (hg d)
    rw [List.map_cons, addAll_cons, hadd, ih hname]
    rfl

theorem look_under (name : Bytes) (p : List Bytes) {g : Directory → Directory}
    (hg : ∀ d, (g d).label.name = d.label.name) (d : Directory) :
    look less DirectoryNode.name (name :: p) (alterAt less DirectoryNode.name newNode g [name] d) =
      look less DirectoryNode.name p
        (g ((child less DirectoryNode.name name d).getD (.node (newNode name) []))) := by
  rw [look, alterAt, child_putChild (tie_alterAt name_newNode hg name [] d), if_pos (OrderedSet.Tie.refl name)]
  rfl

theorem fresh_under (name : Bytes) (es : List Entry) {g : Directory → Directory}
    (hg : ∀ d, (g d).label.name = d.label.name) (d : Directory)
    (h : Fresh less es (g ((child less DirectoryNode.name name d).getD (.node (newNode name) [])))) :
    Fresh less (es.map (under name)) (alterAt less DirectoryNode.name newNode g [name] d) := by
  induction es generalizing g with
  | nil => trivial
  | cons e es ih =>
    obtain ⟨habsent, hfresh⟩ := h
    have hname : ∀ d, (add less (g d) e).label.name = d.label.name := fun d =>
      (name_addAll [e] (g d)).trans (hg d)
    refine ⟨?_, ?_⟩
    · obtain ⟨p, i⟩ := e
      cases i with
      | file f =>
        intro n hn
        refine habsent n ?_
        rw [labelAt, ← @look_under less _ _ name p g hg d]
        exact hn
      | directory n c => exact (look_under name (p ++ [n]) hg d).trans habsent
    · have hadd : add less (alterAt less DirectoryNode.name newNode g [name] d) (under name e) =
          alterAt less DirectoryNode.name newNode (fun d => add less (g d) e) [name] d := addAll_under name [e] hg d
      exact hadd ▸ ih hname hfresh

namespace ListLoader

/-- The loader in the same directory, with another tree below it. -/
def withCur (l : ListLoader) (d : Directory) : ListLoader := { l with place := { l.place with cur := d } }

/-- How the loader goes on from a place in a listing where it is to read `x`. -/
def Reads (less : Bytes → Bytes → Prop) [DecidableRel less] (l : ListLoader) (x : List Entry × Bool) :
    Outcome ListLoader → Prop
  | .returned l' => x.2 = true ∧ l' = l.withCur (addAll less x.1 l.place.cur) ∧
    (l.updating = false → Fresh less x.1 l.place.cur)
  | .threw _ l' => l.updating = true → x.2 = false ∧ l'.listing = (l.withCur (addAll less x.1 l.place.cur)).listing
  | .undefined => False

def leaveListing (l : ListLoader) : ListLoader := { l with inListing := false }

section

omit [IsStrictWeakOrder Bytes less]

theorem reads_nil (l : ListLoader) : Reads less l ([], true) (.returned l) := ⟨rfl, rfl, fun _ => trivial⟩

/-- One thing is read after the other. -/
theorem Reads.andThen {l : ListLoader} {x y : List Entry × Bool} {r : Outcome ListLoader}
    {f : ListLoader → Outcome ListLoader} (h : Reads less l x r)
    (hf : Reads less (l.withCur (addAll less x.1 l.place.cur)) y (f (l.withCur (addAll less x.1 l.place.cur)))) :
    Reads less l (andRead x y) (r.andThen f) := by
  cases r with
  | undefined => exact h.elim
  | threw aError l' =>
    intro hup
    obtain ⟨hx, hl'⟩ := h hup
    rw [andRead, if_neg (by rw [hx]; exact Bool.false_ne_true)]
    exact ⟨hx, hl'⟩
  | returned l' =>
    obtain ⟨hx, rfl, hfresh⟩ := h
    rw [andRead, if_pos hx, Outcome.andThen_returned]
    cases hr : f (l.withCur (addAll less x.1 l.place.cur)) with
    | undefined =>
      rw [hr] at hf
      exact hf
    | threw aError l₂ =>
      rw [hr] at hf
      intro hup
      obtain ⟨hy, hl₂⟩ := hf hup
      rw [addAll_append]
      exact ⟨hy, hl₂⟩
    | returned l₂ =>
      rw [hr] at hf
      obtain ⟨hy, hl₂, hfresh₂⟩ := hf
      refine ⟨hy, ?_, fun hup => ?_⟩
      · rw [addAll_append, hl₂]
        rfl
      · exact (fresh_append _ _ _).mpr ⟨hfresh hup, hfresh₂ hup⟩

theorem startFile_reads (l : ListLoader) (attribs : StringPairList) :
    Reads less l (itemsOf (str "File") attribs) (l.startFile less attribs) := by
  rw [itemsOf, if_pos rfl, startFile]
  cases fileOf attribs with
  | none => exact reads_nil l
  | some f =>
    have hput : ({ l with place := l.place.putFile less f } : ListLoader) =
        l.withCur (addAll less [([], .file f)] l.place.cur) := rfl
    change Reads less l ([([], .file f)], true) (l.insertFile less f)
    rw [insertFile]
    cases hfind : OrderedSet.find less File.name f.name l.place.cur.label.files with
    | none =>
      refine ⟨rfl, hput, fun _ => ⟨fun n hn => ?_, trivial⟩⟩
      obtain rfl := Option.some.inj hn
      exact hfind
    | some g =>
      by_cases hup : l.updating = true
      · rw [if_pos hup]
        refine ⟨rfl, hput, fun h => ?_⟩
        rw [hup] at h
        cases h
      · rw [if_neg hup]
        exact fun h => absurd h hup

/-- The parent's set has the directory back, whatever became of it. -/
theorem directory_enter (name : Bytes) (d x : Directory) (p : Place) :
    ∃ parent, (p.enter less name d).parents = parent :: p.parents ∧
      parent.directory x = putChild less DirectoryNode.name name x p.cur := by
  refine ⟨_, rfl, ?_⟩
  rw [Parent.directory, if_pos rfl, List.append_assoc]
  rfl

def completed (complete : Bool) (d : Directory) : Directory := .node (orComplete complete d.label) d.children

theorem add_directory (name : Bytes) (complete : Bool) (d : Directory) :
    add less d ([], .directory name complete) =
      alterAt less DirectoryNode.name newNode (completed complete) [name] d := rfl

theorem insertDirectory_eq (l : ListLoader) (name : Bytes) (complete : Bool) :
    l.insertDirectory less name complete =
      if (l.place.find less name).isSome ∧ l.updating = false then .threw "Duplicate item in the file list" l
      else .returned { l with
        place := l.place.enter less name
          (completed complete ((l.place.find less name).getD (.node (newNode name) []))) } := by
  rw [insertDirectory]
  cases l.place.find less name with
  | none => simp [completed, orComplete, newNode]
  | some d =>
    cases l.updating with
    | true => rfl
    | false => rfl

theorem andThen_assoc (r : Outcome ListLoader) (f g : ListLoader → Outcome ListLoader) :
    (r.andThen f).andThen g = r.andThen fun l => (f l).andThen g := by
  cases r <;> rfl

theorem andThen_of_returned {r : Outcome ListLoader} {f : ListLoader → Outcome ListLoader}
    (h : ∀ l, f l = .returned l) : r.andThen f = r := by
  cases r with
  | returned l => exact h l
  | threw aError l => rfl
  | undefined => rfl

theorem endTag_other {name : Bytes} (hd : name ≠ str "Directory") (hf : name ≠ str "FileListing") (l : ListLoader) :
    l.endTag name = .returned l := by
  rw [endTag, if_neg hd, if_neg hf, ite_self]

theorem endTag_listing {l : ListLoader} (hin : l.inListing = true) :
    l.endTag (str "FileListing") = .returned l.leaveListing := by
  rw [endTag, if_pos hin, if_neg str_directory_ne_fileListing.symm, if_pos rfl]
  rfl

theorem endTag_outside {l : ListLoader} (hout : l.inListing = false) (name : Bytes) : l.endTag name = .returned l := by
  rw [endTag, if_neg (by rw [hout]; exact Bool.false_ne_true)]

theorem listings_of_one {tags : Tags} {attribs : StringPairList} {ins : Tags}
    (h : tags.listings = [(attribs, ins)]) : ins.listings = [] := by
  induction tags with
  | nil => cases h
  | simple name a rest ih =>
    rw [Tags.listings] at h
    split at h
    next =>
      obtain ⟨h, _⟩ := List.cons.inj h
      cases h
      rfl
    next => exact ih h
  | element name a inside rest ihi ihr =>
    rw [Tags.listings] at h
    split at h
    next =>
      obtain ⟨h, hno⟩ := List.cons.inj h
      cases h
      exact (List.append_eq_nil_iff.mp (List.append_eq_nil_iff.mp hno).2).1
    next =>
      rw [List.nil_append] at h
      rcases List.append_eq_singleton_iff.mp h with ⟨_, h⟩ | ⟨h, _⟩
      · exact ihr h
      · exact ihi h

theorem calls_cons (l : ListLoader) (c : CallBack) (cs : List CallBack) :
    l.calls less (c :: cs) = (l.call less c).andThen fun l => l.calls less cs := rfl

theorem call_startTag (l : ListLoader) (name : Bytes) (attribs : StringPairList) (simple : Bool) :
    l.call less (.startTag name attribs simple) = l.startTag less name attribs simple := rfl

theorem call_endTag (l : ListLoader) (name : Bytes) : l.call less (.endTag name) = l.endTag name := rfl

theorem startTag_listing {l : ListLoader} (hlive : l.abort = false) (hout : l.inListing = false) {name : Bytes}
    (hname : name = str "FileListing") (attribs : StringPairList) (simple : Bool) :
    l.startTag less name attribs simple = l.startListing less name attribs simple := by
  rw [startTag, if_neg (by rw [hlive]; exact Bool.false_ne_true), if_neg (by rw [hout]; exact Bool.false_ne_true),
    if_pos hname]

theorem startTag_outside {l : ListLoader} (hlive : l.abort = false) (hout : l.inListing = false) {name : Bytes}
    (hname : name ≠ str "FileListing") (attribs : StringPairList) (simple : Bool) :
    l.startTag less name attribs simple = .returned l := by
  rw [startTag, if_neg (by rw [hlive]; exact Bool.false_ne_true), if_neg (by rw [hout]; exact Bool.false_ne_true),
    if_neg hname]

/-- Outside of a listing nothing is done. -/
theorem calls_outside {l : ListLoader} (hlive : l.abort = false) (tags : Tags) (hno : tags.listings = [])
    (hout : l.inListing = false) :
    l.calls less tags.calls = .returned l := by
  induction tags with
  | nil => rfl
  | simple name attribs rest ih =>
    obtain ⟨hown, hrest⟩ := List.append_eq_nil_iff.mp hno
    have hname : name ≠ str "FileListing" := fun h => by
      rw [if_pos h] at hown
      cases hown
    rw [Tags.calls, calls, call, startTag_outside hlive hout hname, Outcome.andThen_returned, ih hrest]
  | element name attribs ins rest ihi ihr =>
    obtain ⟨hown, hno⟩ := List.append_eq_nil_iff.mp hno
    obtain ⟨hins, hrest⟩ := List.append_eq_nil_iff.mp hno
    have hname : name ≠ str "FileListing" := fun h => by
      rw [if_pos h] at hown
      cases hown
    rw [Tags.calls, calls, call, startTag_outside hlive hout hname, Outcome.andThen_returned, calls_append, ihi hins,
      Outcome.andThen_returned, calls, call, endTag_outside hout, Outcome.andThen_returned, ihr hrest]

end

section

variable (l : ListLoader) (hlive : l.abort = false) (hin : l.inListing = true)

include hin in
/-- What is read in a directory is, for the directory above it, read below the name. -/
theorem insertDirectory_reads {name : Bytes} {complete : Bool} {es : List Entry} {all : Bool}
    {f : ListLoader → Outcome ListLoader}
    (hf : ∀ l' : ListLoader, l'.inListing = true → l'.abort = l.abort → Reads less l' (es, all) (f l')) :
    Reads less l (andRead ([([], .directory name complete)], true) (es.map (under name), all))
      ((l.insertDirectory less name complete).andThen fun l =>
        (f l).andThen fun l => l.endTag (str "Directory")) := by
  rw [insertDirectory_eq]
  by_cases hdup : (l.place.find less name).isSome ∧ l.updating = false
  · rw [if_pos hdup]
    exact fun hup => nomatch hdup.2.symm.trans hup
  · rw [if_neg hdup, Outcome.andThen_returned, andRead, if_pos rfl]
    set d := completed complete ((l.place.find less name).getD (.node (newNode name) [])) with hd
    set l' : ListLoader := { l with place := l.place.enter less name d } with hl'
    have hreads := hf l' hin rfl
    obtain ⟨parent, hparents, hdir⟩ : ∃ parent,
        (l.place.enter less name d).parents = parent :: l.place.parents ∧
          parent.directory (addAll less es d) = putChild less DirectoryNode.name name (addAll less es d) l.place.cur :=
      directory_enter name d (addAll less es d) l.place
    have hall : addAll less (([], .directory name complete) :: es.map (under name)) l.place.cur =
        parent.directory (addAll less es d) := by
      rw [addAll_cons, add_directory, addAll_under (g := completed complete) name es fun _ => rfl, hdir]
      rfl
    cases hr : f l' with
    | undefined =>
      rw [hr] at hreads
      exact hreads
    | threw aError l₂ =>
      rw [hr] at hreads
      intro hup
      obtain ⟨hnot, hlist⟩ := hreads hup
      refine ⟨hnot, hlist.trans ?_⟩
      have hroot : Place.root ⟨addAll less es d, (l.place.enter less name d).parents⟩ =
          Place.root ⟨parent.directory (addAll less es d), l.place.parents⟩ := by
        rw [hparents]
        rfl
      rw [← hall] at hroot
      exact congrArg (Listing.mk _ _) hroot
    | returned l₂ =>
      rw [hr] at hreads
      obtain ⟨hyes, rfl, hfresh⟩ := hreads
      have hend : (l'.withCur (addAll less es d)).endTag (str "Directory") =
          .returned (l.withCur (parent.directory (addAll less es d))) := by
        rw [endTag, if_pos (show (l'.withCur _).inListing = true from hin), if_pos rfl, Place.leave, withCur, hl',
          hparents]
        rfl
      rw [Outcome.andThen_returned]
      change Reads less l _ ((l'.withCur (addAll less es d)).endTag (str "Directory"))
      rw [hend]
      refine ⟨hyes, ?_, fun hup => ⟨?_, ?_⟩⟩
      · rw [← hall]
        rfl
      · have hnone : l.place.find less name = none := by
          cases h : l.place.find less name with
          | none => rfl
          | some _ => exact absurd ⟨by rw [h]; rfl, hup⟩ hdup
        change (child less DirectoryNode.name name l.place.cur).bind _ = none
        rw [show child less DirectoryNode.name name l.place.cur = none from hnone]
        rfl
      · exact fresh_under (g := completed complete) name es (fun _ => rfl) l.place.cur (hfresh hup)

include hlive hin

theorem startTag_simple_reads (name : Bytes) (attribs : StringPairList) :
    Reads less l (itemsOf name attribs) (l.startTag less name attribs true) := by
  rw [startTag, if_neg (by rw [hlive]; exact Bool.false_ne_true), if_pos hin]
  by_cases hfile : name = str "File"
  · rw [if_pos hfile, hfile]
    exact startFile_reads l attribs
  · rw [if_neg hfile, itemsOf, if_neg hfile]
    by_cases hd : name = str "Directory"
    · rw [if_pos hd, if_pos hd, hd, startDirectory]
      by_cases hn : nameOf attribs = []
      · rw [if_pos hn, if_pos hn]
        exact fun _ => ⟨rfl, rfl⟩
      · rw [if_neg hn, if_neg hn]
        have hbody : ∀ l' : ListLoader, l'.inListing = true → l'.abort = l.abort →
            Reads less l' ([], true) (.returned l') := fun l' _ _ => reads_nil l'
        exact insertDirectory_reads l hin hbody
    · rw [if_neg hd, if_neg hd]
      exact reads_nil l

/-- A tag, what is in it and its end. -/
theorem element_reads (name : Bytes) (hname : name ≠ str "FileListing") (attribs : StringPairList)
    {x : List Entry × Bool} {f : ListLoader → Outcome ListLoader}
    (hf : ∀ l' : ListLoader, l'.abort = false → l'.inListing = true → Reads less l' x (f l')) :
    Reads less l (andRead (itemsOf name attribs) (inside name attribs x.1, x.2))
      ((l.startTag less name attribs false).andThen fun l => (f l).andThen fun l => l.endTag name) := by
  rw [startTag, if_neg (by rw [hlive]; exact Bool.false_ne_true), if_pos hin, inside]
  by_cases hd : name = str "Directory"
  · have hfile : name ≠ str "File" := fun h => str_file_ne_directory (h.symm.trans hd)
    rw [if_neg hfile, if_pos hd, if_pos hd, itemsOf, if_neg hfile, if_pos hd, hd, startDirectory]
    by_cases hn : nameOf attribs = []
    · rw [if_pos hn, if_pos hn]
      exact fun _ => ⟨rfl, rfl⟩
    · have hstart : ((l.insertDirectory less (nameOf attribs) (completeOf attribs)).andThen fun l =>
          if false = true then l.endTag (str "Directory") else .returned l) =
          l.insertDirectory less (nameOf attribs) (completeOf attribs) := andThen_of_returned fun _ => rfl
      rw [if_neg hn, if_neg hn, hstart]
      exact insertDirectory_reads l hin fun l' hin' hlive' => hf l' (hlive'.trans hlive) hin'
  · rw [if_neg hd, if_neg hd]
    have hend : ∀ l, (f l).andThen (fun l => l.endTag name) = f l := fun l =>
      andThen_of_returned (endTag_other hd hname)
    simp only [hend]
    by_cases hfile : name = str "File"
    · rw [if_pos hfile, hfile]
      exact (startFile_reads l attribs).andThen (hf _ hlive hin)
    · rw [if_neg hfile, itemsOf, if_neg hfile, if_neg hd]
      exact (reads_nil l).andThen (hf l hlive hin)

/-- What the loader reads in a listing. -/
theorem calls_reads (tags : Tags) (hno : tags.listings = []) : Reads less l tags.read (l.calls less tags.calls) := by
  induction tags generalizing l with
  | nil => exact reads_nil l
  | simple name attribs rest ih =>
    obtain ⟨_, hrest⟩ := List.append_eq_nil_iff.mp hno
    exact (startTag_simple_reads l hlive hin name attribs).andThen (ih _ hlive hin hrest)
  | element name attribs ins rest ihi ihr =>
    obtain ⟨hown, hno⟩ := List.append_eq_nil_iff.mp hno
    obtain ⟨hins, hrest⟩ := List.append_eq_nil_iff.mp hno
    have hname : name ≠ str "FileListing" := fun h => by
      rw [if_pos h] at hown
      cases hown
    have hcalls : l.calls less (Tags.element name attribs ins rest).calls =
        ((l.startTag less name attribs false).andThen fun l =>
          (l.calls less ins.calls).andThen fun l => l.endTag name).andThen fun l => l.calls less rest.calls := by
      rw [Tags.calls, calls, andThen_assoc]
      simp only [calls_append, andThen_assoc]
      rfl
    rw [hcalls]
    exact (element_reads l hlive hin name hname attribs fun l' hlive' hin' => ihi l' hlive' hin' hins).andThen
      (ihr _ hlive hin hrest)

end

omit [IsStrictWeakOrder Bytes less] in
theorem abort_enterListing (attribs : StringPairList) (l : ListLoader) :
    (l.enterListing less attribs).abort = l.abort := by
  rw [enterListing, takeBase]
  split <;> rfl

omit [IsStrictWeakOrder Bytes less] in
theorem updating_enterListing (attribs : StringPairList) (l : ListLoader) :
    (l.enterListing less attribs).updating = l.updating := by
  rw [enterListing, takeBase]
  split <;> rfl

/-- The end of the only listing, and what comes after it. -/
theorem andThen_rest {l : ListLoader} (hlive : l.abort = false) (attribs : StringPairList) (ins : Tags)
    (hins : ins.listings = []) {f : ListLoader → Outcome ListLoader}
    (hf : ∀ l : ListLoader, l.abort = false → l.inListing = false → f l = .returned l) :
    (((l.enterListing less attribs).calls less ins.calls).andThen fun l =>
        (l.endTag (str "FileListing")).andThen f) =
      ((l.enterListing less attribs).calls less ins.calls).andThen fun l => .returned l.leaveListing := by
  have habort : (l.enterListing less attribs).abort = false := (abort_enterListing attribs l).trans hlive
  have hreads : Reads less (l.enterListing less attribs) ins.read
      ((l.enterListing less attribs).calls less ins.calls) :=
    calls_reads _ habort rfl ins hins
  cases hr : (l.enterListing less attribs).calls less ins.calls with
  | threw aError l' => rfl
  | undefined => rfl
  | returned l' =>
    rw [hr] at hreads
    obtain ⟨_, rfl, _⟩ := hreads
    rw [Outcome.andThen_returned, Outcome.andThen_returned, endTag_listing rfl, Outcome.andThen_returned]
    exact hf _ habort rfl

theorem andThen_leave {l : ListLoader} (hlive : l.abort = false) (attribs : StringPairList) (ins : Tags)
    (hins : ins.listings = []) {f : ListLoader → Outcome ListLoader}
    (hf : ∀ l : ListLoader, l.abort = false → l.inListing = false → f l = .returned l) :
    (((l.enterListing less attribs).calls less ins.calls).andThen fun l => .returned l.leaveListing).andThen f =
      ((l.enterListing less attribs).calls less ins.calls).andThen fun l => .returned l.leaveListing := by
  conv_lhs => rw [← andThen_rest hlive attribs ins hins fun _ _ _ => rfl]
  rw [andThen_assoc]
  simp only [andThen_assoc]
  exact andThen_rest hlive attribs ins hins hf

/-- The only listing of a document is all that is read. -/
theorem calls_of_one {l : ListLoader} (hlive : l.abort = false) {tags : Tags} {attribs : StringPairList} {ins : Tags}
    (hone : tags.listings = [(attribs, ins)]) (hout : l.inListing = false) :
    l.calls less tags.calls =
      ((l.enterListing less attribs).calls less ins.calls).andThen fun l => .returned l.leaveListing := by
  induction tags with
  | nil => cases hone
  | simple name a rest ih =>
    rw [Tags.calls, calls_cons, call_startTag]
    by_cases hname : name = str "FileListing"
    · rw [Tags.listings, if_pos hname] at hone
      obtain ⟨hone, hrest⟩ := List.cons.inj hone
      cases hone
      rw [startTag_listing hlive hout hname, startListing, if_pos rfl, hname, ←
        andThen_rest (f := fun l => l.calls less rest.calls) hlive attribs .nil rfl fun l hlive hout =>
          calls_outside hlive rest hrest hout]
      rfl
    · rw [Tags.listings, if_neg hname] at hone
      rw [startTag_outside hlive hout hname, Outcome.andThen_returned]
      exact ih hone
  | element name a inside rest ihi ihr =>
    rw [Tags.calls, calls_cons, call_startTag]
    by_cases hname : name = str "FileListing"
    · rw [Tags.listings, if_pos hname] at hone
      obtain ⟨hone, hno⟩ := List.cons.inj hone
      cases hone
      obtain ⟨hins, hrest⟩ := List.append_eq_nil_iff.mp (List.append_eq_nil_iff.mp hno).2
      rw [startTag_listing hlive hout hname, startListing, if_neg Bool.false_ne_true, Outcome.andThen_returned,
        calls_append, hname, ←
        andThen_rest (f := fun l => l.calls less rest.calls) hlive attribs ins hins fun l hlive hout =>
          calls_outside hlive rest hrest hout]
      rfl
    · rw [Tags.listings, if_neg hname, List.nil_append] at hone
      rw [startTag_outside hlive hout hname, Outcome.andThen_returned, calls_append]
      have hafter : ∀ l : ListLoader, l.abort = false → l.inListing = false →
          l.calls less (.endTag name :: rest.calls) = l.calls less rest.calls := fun l _ hout => by
        rw [calls_cons, call_endTag, endTag_outside hout, Outcome.andThen_returned]
      rcases List.append_eq_singleton_iff.mp hone with ⟨hins, hrest⟩ | ⟨hins, hrest⟩
      · rw [calls_outside hlive inside hins hout, Outcome.andThen_returned, hafter l hlive hout]
        exact ihr hrest
      · have hend : ∀ l : ListLoader, l.abort = false → l.inListing = false →
            l.calls less (.endTag name :: rest.calls) = .returned l := fun l hlive hout => by
          rw [hafter l hlive hout, calls_outside hlive rest hrest hout]
        rw [ihi hins]
        exact andThen_leave hlive attribs ins (listings_of_one hins) hend

/-- What the loader makes of a document with one listing. -/
def loaded (less : Bytes → Bytes → Prop) [DecidableRel less] (l : ListLoader) (attribs : StringPairList)
    (es : List Entry) : ListLoader :=
  ((l.enterListing less attribs).withCur (addAll less es (l.enterListing less attribs).place.cur)).leaveListing

variable (less) in
/-- After a document with one listing the loader is at the base, with what the list says in it. -/
theorem calls_returned {l l' : ListLoader} {tags : Tags} {attribs : StringPairList} {ins : Tags}
    (hone : tags.listings = [(attribs, ins)]) (hout : l.inListing = false) (hlive : l.abort = false)
    (h : l.calls less tags.calls = .returned l') :
    ins.read.2 = true ∧ l' = l.loaded less attribs ins.read.1 ∧
      (l.updating = false → Fresh less ins.read.1 (l.enterListing less attribs).place.cur) := by
  have hreads : Reads less (l.enterListing less attribs) ins.read
      ((l.enterListing less attribs).calls less ins.calls) :=
    calls_reads _ ((abort_enterListing attribs l).trans hlive) rfl ins (listings_of_one hone)
  rw [calls_of_one hlive hone hout] at h
  cases hr : (l.enterListing less attribs).calls less ins.calls with
  | threw aError l₂ =>
    rw [hr] at h
    cases h
  | undefined =>
    rw [hr] at h
    cases h
  | returned l₂ =>
    rw [hr] at h hreads
    obtain ⟨hall, rfl, hfresh⟩ := hreads
    rw [Outcome.andThen_returned] at h
    cases h
    exact ⟨hall, rfl, fun hup => hfresh ((updating_enterListing attribs l).trans hup)⟩

/-- With the exception of a list that is no list of an update. -/
theorem calls_threw {l l' : ListLoader} {aError : String} {tags : Tags} {attribs : StringPairList} {ins : Tags}
    (hone : tags.listings = [(attribs, ins)]) (hout : l.inListing = false) (hlive : l.abort = false)
    (hup : l.updating = true) (h : l.calls less tags.calls = .threw aError l') :
    ins.read.2 = false ∧ l'.listing = (l.loaded less attribs ins.read.1).listing := by
  have hreads : Reads less (l.enterListing less attribs) ins.read
      ((l.enterListing less attribs).calls less ins.calls) :=
    calls_reads _ ((abort_enterListing attribs l).trans hlive) rfl ins (listings_of_one hone)
  rw [calls_of_one hlive hone hout] at h
  cases hr : (l.enterListing less attribs).calls less ins.calls with
  | threw aError l₂ =>
    rw [hr] at h hreads
    cases h
    exact hreads ((updating_enterListing attribs l).trans hup)
  | undefined =>
    rw [hr] at h
    cases h
  | returned l₂ =>
    rw [hr] at h
    cases h

omit [IsStrictWeakOrder Bytes less] in
/-- An aborted list throws at its first tag. -/
theorem calls_abort {l : ListLoader} (habort : l.abort = true) {tags : Tags} (hne : tags.listings ≠ []) :
    l.calls less tags.calls = .threw "" l := by
  cases tags with
  | nil => exact absurd rfl hne
  | simple name attribs rest =>
    rw [Tags.calls, calls_cons, call_startTag, startTag, if_pos habort, Outcome.andThen_threw]
  | element name attribs ins rest =>
    rw [Tags.calls, calls_cons, call_startTag, startTag, if_pos habort, Outcome.andThen_threw]

end ListLoader

/-- The loader always has a current directory, at or below the root, whatever the tags. A document with one
listing leaves it at the base of that listing, where every file and directory of the document is put into the
directory of the Directory elements around it; one that is not an update has none of them twice. -/
theorem load_spec (list : Listing) (updating : Bool) (tags : Tags) :
    (∀ cs, cs <+: tags.calls → list.load less updating cs ≠ .undefined) ∧
      ∀ attribs ins l, tags.listings = [(attribs, ins)] → list.load less updating tags.calls = .returned l →
        let base := ((ListLoader.ofListing list updating).enterListing less attribs).place
        l.inListing = false ∧ l.place = ⟨addAll less ins.items base.cur, base.parents⟩ ∧
          (updating = false → Fresh less ins.items base.cur) := by
  refine ⟨fun cs hcs => ListLoader.calls_prefix_ne_undefined tags _ hcs, fun attribs ins l hone h => ?_⟩
  have hlive : list.abort = false := by
    by_contra habort
    have hthrew : list.load less updating tags.calls = .threw "" (ListLoader.ofListing list updating) :=
      ListLoader.calls_abort (Bool.not_eq_false _ ▸ habort) (by rw [hone]; exact List.cons_ne_nil _ _)
    rw [hthrew] at h
    cases h
  obtain ⟨hall, rfl, hfresh⟩ := ListLoader.calls_returned less hone rfl hlive h
  rw [ins.read_eq_items hall] at hfresh ⊢
  exact ⟨rfl, rfl, hfresh⟩

/-- The order of the bytes, by what stands for each. -/
def lessBy (f : UInt8 → Nat) (a b : Bytes) : Prop := a.map f < b.map f

instance (f : UInt8 → Nat) : DecidableRel (lessBy f) := fun a b => inferInstanceAs (Decidable (a.map f < b.map f))

instance (f : UInt8 → Nat) : IsStrictWeakOrder Bytes (lessBy f) where
  irrefl a := lt_irrefl (a.map f)
  trans _ _ _ := lt_trans
  incomp_trans _ _ _ hab hbc := by
    have h := le_antisymm (not_lt.mp hab.2) (not_lt.mp hab.1)
    rw [lessBy, lessBy, h]
    exact hbc

theorem load_spec_nested :
    ∃ l, (Listing.mk [] false (.node ⟨[], false, []⟩ [])).load (lessBy UInt8.toNat) false
        (Tags.element (str "FileListing") []
          (.element (str "Directory") [(str "Name", str "a")] (.simple (str "Directory") [(str "Name", str "b")] .nil)
            .nil)
          .nil).calls = .returned l ∧
      l.place = ⟨.node ⟨[], true, []⟩ [.node ⟨str "a", true, []⟩ [.node ⟨str "b", true, []⟩ []]], []⟩ := by
  obtain ⟨l, hl⟩ : ∃ l, (Listing.mk [] false (.node ⟨[], false, []⟩ [])).load (lessBy UInt8.toNat) false
      (Tags.element (str "FileListing") []
        (.element (str "Directory") [(str "Name", str "a")] (.simple (str "Directory") [(str "Name", str "b")] .nil)
          .nil)
        .nil).calls = .returned l := ⟨_, rfl⟩
  refine ⟨l, hl, ?_⟩
  obtain ⟨_, hplace, _⟩ := (load_spec _ _ _).2 _ _ l rfl hl
  exact hplace

end Dcpp.DirectoryListing
