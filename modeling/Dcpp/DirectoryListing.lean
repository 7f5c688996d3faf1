import Dcpp.Library.OrderedTree
import Dcpp.SimpleXMLReader
import Dcpp.Streams
import Dcpp.Encoder
import Dcpp.Util

namespace Dcpp.DirectoryListing

open Encoder SimpleXMLReader

structure File where
  name : Bytes
  size : Int64
  tth : Encoder.HashValue
deriving DecidableEq

/-- A `Directory` but for the directories in it. -/
structure DirectoryNode where
  name : Bytes
  complete : Bool
  files : List File
deriving DecidableEq

/-- The sets of directories and of files are lists in the order of the names. -/
abbrev Directory := Tree DirectoryNode

/-- A directory that the loader makes on its way to the base. -/
def newNode (name : Bytes) : DirectoryNode := ⟨name, false, []⟩

def setComplete (d : Directory) : Directory := .node { d.label with complete := true } d.children

/-- The tokens of `StringTokenizer`; there is none after the last separator when nothing follows it. -/
def tokens (aString : Bytes) (aToken : UInt8) : List Bytes :=
  let pieces := aString.splitOn aToken
  if pieces.getLast? = some [] then pieces.dropLast else pieces

/-- A parent, with the directories around the current one. That one may not be in the set: a directory that
the set did not take in still has its parent. -/
structure Parent where
  label : DirectoryNode
  before : List Directory
  after : List Directory
  inSet : Bool

def Parent.directory (p : Parent) (d : Directory) : Directory :=
  .node p.label (p.before ++ (if p.inSet then [d] else []) ++ p.after)

/-- The current directory with its parents, the nearest first. -/
structure Place where
  cur : Directory
  parents : List Parent

namespace Place

def leave (p : Place) : Option Place :=
  match p.parents with
  | [] => none
  | parent :: parents => some ⟨parent.directory p.cur, parents⟩

def root (p : Place) : Directory := p.parents.foldl (fun d parent => parent.directory d) p.cur

end Place

structure Listing where
  base : Bytes
  abort : Bool
  root : Directory

/-- The loader with the `base` and the `abort` of its list. -/
structure ListLoader where
  listBase : Bytes
  abort : Bool
  place : Place
  base : Bytes
  inListing : Bool
  updating : Bool

-- `compare(a, b) < 0`, which is about the locale.
variable (less : Bytes → Bytes → Prop) [DecidableRel less]

namespace Place

/-- Goes to a directory in the set, or to a new one that the set takes in. -/
def enter (name : Bytes) (d : Directory) (p : Place) : Place :=
  ⟨d, ⟨p.cur.label, OrderedSet.before less (fun d : Directory => d.label.name) name p.cur.children,
    OrderedSet.after less (fun d : Directory => d.label.name) name p.cur.children, true⟩ :: p.parents⟩

/-- Goes to a new directory that the set does not take in. -/
def enterOutside (d : Directory) (p : Place) : Place := ⟨d, ⟨p.cur.label, p.cur.children, [], false⟩ :: p.parents⟩

def find (name : Bytes) (p : Place) : Option Directory := OrderedTree.child less DirectoryNode.name name p.cur

/-- One step on the way to the base, which looks for the very name. -/
def enterBase (i : Bytes) (p : Place) : Place :=
  match p.cur.children.find? fun j => j.label.name = i with
  | some d => p.enter less i d
  | none =>
    match p.find less i with
    | none => p.enter less i (.node (newNode i) [])
    | some _ => p.enterOutside (.node (newNode i) [])

def enterBases (sl : List Bytes) (p : Place) : Place := sl.foldl (fun p i => p.enterBase less i) p

def setComplete (p : Place) : Place := { p with cur := DirectoryListing.setComplete p.cur }

/-- A file gives way to one with its name; its place in the set stays. -/
def putFile (f : File) (p : Place) : Place :=
  { p with
    cur := .node { p.cur.label with files := OrderedSet.put less File.name f.name f p.cur.label.files } p.cur.children }

end Place

namespace ListLoader

def insertFile (f : File) (l : ListLoader) : Outcome ListLoader :=
  match OrderedSet.find less File.name f.name l.place.cur.label.files with
  | none => .returned { l with place := l.place.putFile less f }
  | some _ =>
    if l.updating then .returned { l with place := l.place.putFile less f }
    else .threw "Duplicate item in the file list" l

def insertDirectory (name : Bytes) (complete : Bool) (l : ListLoader) : Outcome ListLoader :=
  match l.place.find less name with
  | none => .returned { l with place := l.place.enter less name (.node ⟨name, complete, []⟩ []) }
  | some d =>
    if l.updating then
      let d : Directory := .node { d.label with complete := d.label.complete || complete } d.children
      .returned { l with place := l.place.enter less name d }
    else .threw "Duplicate item in the file list" l

/-- The root has no parent; the loader goes nowhere from there. -/
def endTag (name : Bytes) (l : ListLoader) : Outcome ListLoader :=
  if l.inListing then
    if name = str "Directory" then
      match l.place.leave with
      | none => .undefined
      | some place => .returned { l with place := place }
    else if name = str "FileListing" then .returned { l with inListing := false }
    else .returned l
  else .returned l

/-- The file of a tag that has all that a file has. -/
def fileOf (attribs : StringPairList) : Option File :=
  let n := getAttrib attribs (str "Name") 0
  let s := getAttrib attribs (str "Size") 1
  let h := getAttrib attribs (str "TTH") 2
  if n = [] ∨ s = [] ∨ h = [] then none
  else some ⟨n, Int64.ofInt (Util.toInt64 s), Encoder.HashValue.ofBase32 h⟩

def startFile (attribs : StringPairList) (l : ListLoader) : Outcome ListLoader :=
  match fileOf attribs with
  | none => .returned l
  | some f => l.insertFile less f

def nameOf (attribs : StringPairList) : Bytes := getAttrib attribs (str "Name") 0

def completeOf (attribs : StringPairList) : Bool := !decide (getAttrib attribs (str "Incomplete") 1 = str "1")

def startDirectory (name : Bytes) (attribs : StringPairList) (simple : Bool) (l : ListLoader) : Outcome ListLoader :=
  if nameOf attribs = [] then .threw "Directory missing name attribute" l
  else
    (l.insertDirectory less (nameOf attribs) (completeOf attribs)).andThen fun l =>
      if simple then l.endTag name else .returned l

/-- The base of a list, and what the base of the listing is with it. -/
def takeBase (b : Bytes) (l : ListLoader) : ListLoader :=
  if b.head? = some (byte '/') ∧ b.getLast? = some (byte '/') then
    { l with
      base := b
      listBase := if l.listBase = [] ∨ b.length < l.listBase.length then b else l.listBase }
  else l

def enterListing (attribs : StringPairList) (l : ListLoader) : ListLoader :=
  let l := l.takeBase (getAttrib attribs (str "Base") 2)
  { l with
    place := (l.place.enterBases less (tokens (l.base.drop 1) (byte '/'))).setComplete
    inListing := true }

def startListing (name : Bytes) (attribs : StringPairList) (simple : Bool) (l : ListLoader) : Outcome ListLoader :=
  if simple then (l.enterListing less attribs).endTag name else .returned (l.enterListing less attribs)

def startTag (name : Bytes) (attribs : StringPairList) (simple : Bool) (l : ListLoader) : Outcome ListLoader :=
  if l.abort then .threw "" l
  else if l.inListing then
    if name = str "File" then l.startFile less attribs
    else if name = str "Directory" then l.startDirectory less name attribs simple
    else .returned l
  else if name = str "FileListing" then l.startListing less name attribs simple
  else .returned l

def call (l : ListLoader) : CallBack → Outcome ListLoader
  | .startTag name attribs simple => l.startTag less name attribs simple
  | .data _ => .returned l
  | .endTag name => l.endTag name

def calls (l : ListLoader) : List CallBack → Outcome ListLoader
  | [] => .returned l
  | c :: cs => (l.call less c).andThen fun l => calls l cs

def ofListing (list : Listing) (updating : Bool) : ListLoader :=
  ⟨list.base, list.abort, ⟨list.root, []⟩, str "/", false, updating⟩

/-- What the loader leaves of its list, whose base may still be missing. -/
def listing (l : ListLoader) : Listing := ⟨if l.listBase = [] then l.base else l.listBase, l.abort, l.place.root⟩

end ListLoader

/-- The list after the calls of the reader. -/
def Listing.load (list : Listing) (updating : Bool) (calls : List CallBack) : Outcome ListLoader :=
  (ListLoader.ofListing list updating).calls less calls

/-- `loadXML` of what the reads of a stream give, with the base that it returns; `updateXML` is one with `updating`. -/
def loadXML (cfg : Config) (fuel maxSize : Nat) (list : Listing) (updating : Bool) (chunks : List Bytes) :
    Option (Outcome (Bytes × Listing)) :=
  (readStream cfg fuel maxSize 0 start [] chunks).map fun (r, thrown) =>
    ((list.load less updating r.calls).andThen fun l =>
      match thrown with
      | some message => .threw message l
      | none => .returned l).map fun l => (l.base, l.listing)

end Dcpp.DirectoryListing
