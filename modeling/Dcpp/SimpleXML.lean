import Dcpp.Library.Tree
import Dcpp.SimpleXMLReader

namespace Dcpp.SimpleXML

open SimpleXMLReader

def utf8Header : Bytes := str "<?xml version=\"1.0\" encoding=\"utf-8\" standalone=\"yes\"?>\r\n"

/-- The characters that `escape` looks for when it writes. -/
def special (aAttrib : Bool) (c : UInt8) : Bool :=
  c = byte '<' || c = byte '&' || c = byte '>' || (aAttrib && (c = byte '\'' || c = byte '"'))

/-- What it puts in the place of a character. -/
def escapeChar (aAttrib : Bool) (c : UInt8) : Bytes :=
  if !special aAttrib c then [c]
  else if c = byte '<' then str "&lt;"
  else if c = byte '&' then str "&amp;"
  else if c = byte '>' then str "&gt;"
  else if c = byte '\'' then str "&apos;"
  else str "&quot;"

/-- `escape` as the writers call it, with nothing to load and in UTF-8. -/
def escape (aString : Bytes) (aAttrib : Bool) : Bytes := aString.flatMap (escapeChar aAttrib)

def needsEscape (aString : Bytes) (aAttrib : Bool) : Bool := aString.any (special aAttrib)

/-- A `Tag` but for its children. -/
structure TagNode where
  name : Bytes
  attribs : StringPairList
  data : Bytes
deriving DecidableEq

abbrev Tag := Tree TagNode

def appendAttribString (attribs : StringPairList) (tmp : Bytes) : Bytes :=
  (tmp ++ attribs.flatMap fun (first, second) =>
    first ++ str "=\"" ++ (if needsEscape second true then escape second true else second) ++ str "\" ").dropLast

def tabs (indent : Nat) : Bytes := List.replicate indent (byte '\t')

mutual

def Tag.toXML (indent : Nat) : Tag → Bytes
  | .node tag [] =>
    let tmp := appendAttribString tag.attribs (tabs indent ++ [byte '<'] ++ tag.name ++ [byte ' '])
    if tag.data = [] then tmp ++ str "/>\r\n"
    else
      tmp ++ [byte '>'] ++ (if needsEscape tag.data false then escape tag.data false else tag.data) ++
        str "</" ++ tag.name ++ str ">\r\n"
  | .node tag (c :: cs) =>
    appendAttribString tag.attribs (tabs indent ++ [byte '<'] ++ tag.name ++ [byte ' ']) ++ str ">\r\n" ++
      Tag.listToXML (indent + 1) (c :: cs) ++ tabs indent ++ str "</" ++ tag.name ++ str ">\r\n"

def Tag.listToXML (indent : Nat) : List Tag → Bytes
  | [] => []
  | c :: cs => Tag.toXML indent c ++ Tag.listToXML indent cs

end

namespace TagReader

/-- The callbacks; `cur` is the current tag. -/
def startTag (name : Bytes) (attribs : StringPairList) (simple : Bool) (cur : Tree.Place TagNode) :
    Tree.Place TagNode :=
  let tag : Tag := .node ⟨name, attribs, []⟩ []
  if simple then cur.add tag else cur.enter tag

def data (data : Bytes) (cur : Tree.Place TagNode) : Tree.Place TagNode :=
  { cur with cur := .node { cur.cur.label with data := cur.cur.label.data ++ data } cur.cur.children }

def endTag (cur : Tree.Place TagNode) : Except String (Tree.Place TagNode) :=
  match cur.leave with
  | none => .error "Invalid end tag"
  | some cur => .ok cur

def call (cur : Tree.Place TagNode) : CallBack → Except String (Tree.Place TagNode)
  | .startTag name attribs simple => .ok (startTag name attribs simple cur)
  | .data d => .ok (data d cur)
  | .endTag _ => endTag cur

def calls (cur : Tree.Place TagNode) (cs : List CallBack) : Except String (Tree.Place TagNode) := cs.foldlM call cur

end TagReader

/-- The tree below `root`; the callbacks that were made before the reader throws come first. -/
def fromXML (cfg : Config) (fuel : Nat) (root : Tag) (aXML : Bytes) : Option (Except String Tag) :=
  let t : Tree.Place TagNode := ⟨.node root.label [], []⟩
  match parse cfg fuel start [] [aXML] with
  | some (.done _ r _) => some do
    let cur ← TagReader.calls t r.calls
    if cur.root.children.length ≠ 1 then .error "Invalid XML file, missing or multiple root tags"
    else .ok cur.root
  | some (.error r _ message) => some do
    let _ ← TagReader.calls t r.calls
    .error message
  | some (.next _ _) => none
  | none => none

def toXML (root : Tag) : Bytes :=
  match root.children with
  | [] => []
  | t :: _ => Tag.toXML 0 t

end Dcpp.SimpleXML
