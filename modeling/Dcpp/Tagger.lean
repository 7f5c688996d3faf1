import Dcpp.Library.Edit
import Dcpp.Library.Markup
import Dcpp.SimpleXML

-- The tags that are put into a text.
namespace Dcpp.Tagger

/-- A tag with its position. `number` tells which call has added it; the other tag is the one with the same number, and
what is read of it stands here too. -/
structure Tag where
  pos : Nat
  s : Bytes
  opening : Bool
  number : Nat
  otherPos : Nat
  otherS : Bytes
deriving DecidableEq

/-- A call of `add`. -/
structure Added where
  start : Nat
  stop : Nat
  id : Bytes
  attributes : Bytes
deriving DecidableEq

namespace Added

def openingS (a : Added) : Bytes := str "<" ++ a.id ++ str " " ++ a.attributes ++ str ">"

def closingS (a : Added) : Bytes := str "</" ++ a.id ++ str ">"

def openingTag (a : Added) (number : Nat) : Tag := ⟨a.start, a.openingS, true, number, a.stop, a.closingS⟩

def closingTag (a : Added) (number : Nat) : Tag := ⟨a.stop, a.closingS, false, number, a.start, a.openingS⟩

end Added

def add (tags : List Tag) (a : Added) : List Tag :=
  tags ++ [a.openingTag (tags.length / 2), a.closingTag (tags.length / 2)]

/-- What the loop of `merge` has: the string that it returns, the position in the text and the tags that are open. -/
structure Merging where
  ret : Bytes
  pos : Nat
  openTags : List Tag
deriving DecidableEq

/-- The tags of the loop that closes a tag which is not the last one. -/
def entangled (tag : Tag) (openTags : List Tag) : List Tag := openTags.filter fun openTag => openTag.pos ≥ tag.otherPos

/-- A round of the loop; it is undefined to ask for the last open tag where there is none. -/
def mergeTag (text : Bytes) (m : Merging) (tag : Tag) : Option Merging := do
  let part ← Edit.substr text m.pos (tag.pos - m.pos)
  let ret := m.ret ++ SimpleXML.escape part false
  if tag.opening then
    some ⟨ret ++ tag.s, tag.pos, m.openTags ++ [tag]⟩
  else
    let back ← m.openTags.getLast?
    if back.number = tag.number then
      -- common case: no entangled tag; just write the closing tag.
      some ⟨ret ++ tag.s, tag.pos, m.openTags.dropLast⟩
    else
      -- there are entangled tags: write closing & opening tags of currently open tags.
      let closings := (entangled tag m.openTags).reverse.flatMap fun openTag => openTag.otherS
      let openTags := m.openTags.filter fun openTag => openTag.number ≠ tag.number
      let openings := (entangled tag openTags).flatMap fun openTag => openTag.s
      some ⟨ret ++ closings ++ openings, tag.pos, openTags⟩

def merge (text : Bytes) (tags : List Tag) : Option Bytes := do
  let m ← (tags.mergeSort fun a b => a.pos ≤ b.pos).foldlM (mergeTag text) ⟨[], 0, []⟩
  if m.pos ≠ text.length then
    let part ← Edit.substr text m.pos (text.length - m.pos)
    some (m.ret ++ SimpleXML.escape part false)
  else some m.ret

end Dcpp.Tagger
