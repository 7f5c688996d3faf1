import Dcpp.SdExEscape
import Dcpp.SdExFull
import Dcpp.SdExScanning

-- The reading of a pattern: its parts, their tags, and the values of these.
namespace Dcpp.SdExFull

open Bdcpp Correctness

/-- What the functions have as `cmd`. -/
def Function.cmd : Function → Bytes
  | .consists => str "consists"
  | .contains => str "contains"
  | .data => str "data"
  | .find => str "find"
  | .ifelse => str "ifelse"
  | .length => str "length"
  | .number32 => str "number"
  | .number64 => str "number64"
  | .pattern => str "pattern"
  | .validate => str "validate"
  | .append => str "append"
  | .copy => str "copy"
  | .deletedata => str "delete"
  | .delimit => str "delimit"
  | .format => str "format"
  | .insert => str "insert"
  | .replace => str "replace"
  | .resize => str "resize"
  | .split => str "split"
  | .strip => str "strip"

def Function.cmdshort : Function → Bytes
  | .consists => str "cs"
  | .contains => str "ct"
  | .data => str "d"
  | .find => str "f"
  | .ifelse => str "if"
  | .length => str "l"
  | .number32 => str "n32"
  | .number64 => str "n64"
  | .pattern => str "p"
  | .validate => str "vd"
  | .append => str "ap"
  | .copy => str "cp"
  | .deletedata => str "del"
  | .delimit => str "de"
  | .format => str "fmt"
  | .insert => str "ins"
  | .replace => str "r"
  | .resize => str "rs"
  | .split => str "spl"
  | .strip => str "str"

def functions : List Function :=
  [.consists, .contains, .data, .find, .ifelse, .length, .number32, .number64, .pattern, .validate,
    .append, .copy, .deletedata, .delimit, .format, .insert, .replace, .resize, .split, .strip]

def getSdExFunction (name : Bytes) (shortcmd : Bool) : Option Function :=
  functions.find? fun f => streql name (if shortcmd then f.cmdshort else f.cmd)

/-- The operators of a modifier, none of one that is unknown. -/
def modifierOps (mod : Bytes) : Nat :=
  if mod ∈ [str "a", str "and", str "all"] then OP_AND
  else if mod ∈ [str "o", str "or"] then OP_OR
  else if mod ∈ [str "x", str "xor"] then OP_XOR
  else if mod ∈ [str "xn", str "xnor"] then OP_XNOR
  else if mod ∈ [str "n", str "not"] then OP_NOT
  else if mod ∈ [str "na", str "nand"] then OP_AND ||| OP_NOT
  else if mod ∈ [str "no", str "nor"] then OP_OR ||| OP_NOT
  else if mod ∈ [str "nx", str "nxor"] then OP_XOR ||| OP_NOT
  else if mod ∈ [str "nxn", str "nxnor"] then OP_XNOR ||| OP_NOT
  else if mod ∈ [str "nc", str "nocase"] then OP_NOCASE
  else if mod ∈ [str "fc", str "forcecase"] then OP_FORCECASE
  else 0

/-- `ops & ~OP_OR | OP_AND`. -/
def andOps (ops : Nat) : Nat := (ops ^^^ (ops &&& OP_OR)) ||| OP_AND

/-- The names of legacy tags, with the `cmd` that they stand for. -/
def legacyTags : List (List Bytes × Bytes) :=
  [([str "char", str "c"], str "char"), ([str "consists", str "cs"], str "consists"),
    ([str "contains", str "ct"], str "contains"), ([str "find", str "f"], str "find"),
    ([str "pattern", str "p"], str "pattern"), ([str "testparam", str "tp"], str "validate"),
    ([str "delete", str "del"], str "delete"), ([str "delimit", str "de"], str "delimit"),
    ([str "replace", str "r"], str "replace"), ([str "split", str "s"], str "split"),
    ([str "strip", str "str"], str "strip"), ([str "data", str "d"], str "data"),
    ([str "len", str "l"], str "length"), ([str "size", str "sz"], str "length")]

/-- The case in which a legacy tag is read, which stands behind its name. -/
def legacyCase (s : Bytes) (ops : Nat) : Bytes × Nat :=
  if s.length > 2 ∧ s.getLast? = some (byte 'c') then
    if s[s.length - 2]? = some (byte 'f') then (s.take (s.length - 2), ops ||| OP_FORCECASE)
    else if s[s.length - 2]? = some (byte 'n') then (s.take (s.length - 2), ops ||| OP_NOCASE)
    else (s, ops)
  else (s, ops)

/-- The `all` behind the name of a legacy tag; `data` is the one exception. -/
def legacyAll (s : Bytes) (ops : Nat) : Bytes × Nat :=
  if s = str "data" then (s, ops)
  else if s.length > 1 then
    if s.length > 3 ∧ s.drop (s.length - 3) = str "all" then (s.take (s.length - 3), andOps ops)
    else if s.getLast? = some (byte 'a') then (s.take (s.length - 1), andOps ops)
    else (s, ops)
  else (s, ops)

/-- The surroundings of the parser: the characters that can be read, `Text::toLower`, and what comes of the shift by 32
bits or more that a component behind the fourth is shifted by. -/
structure Source where
  buf : Bytes
  toLower : Bytes → Bytes
  farShift : Nat → Nat → Nat

variable (src : Source)

/-- A range that is in order; the searches of `Bdcpp` read nothing outside of it. -/
def Source.range (pbegin pend : Nat) : Bytes := (src.buf.take pend).drop pbegin

/-- The ends of the range that whitespace is stripped off. -/
def Source.strip (pbegin pend : Nat) : Nat × Nat :=
  let ends := stripWhitespace (src.range pbegin pend)
  (pbegin + ends.1, pbegin + ends.2)

def Source.get_data (pbegin pend : Nat) (nocase readescapes strip : Bool) : Except Fault Bytes := do
  let data ← copy src.buf pbegin pend
  return SdExBase.get_data src.toLower data nocase readescapes strip

def getInt32 (pbegin pend : Nat) : Except Fault Int32 := do
  let d ← src.get_data pbegin pend false true true
  return Int32.ofInt (Util.toInt (d.filter (· ∈ digitsnumbers)))

def getInt64 (pbegin pend : Nat) : Except Fault Int64 := do
  let d ← src.get_data pbegin pend false true true
  return Int64.ofInt (Util.strtoll (d.filter (· ∈ digitsnumbers)))

/-- A loop over the parts of a range that a separator divides, which are counted. -/
def eachPart {σ : Type} (separator : UInt8) (pend : Nat) (body : σ → Nat → Nat → Nat → Except Fault σ)
    (pbegin index : Nat) (s : σ) : Except Fault σ :=
  match _hphi : findSeparator src.buf pbegin pend separator with
  | .error f => .error f
  | .ok phi => do
    let s ← body s index pbegin phi
    if _hne : phi = pend then return s else eachPart separator pend body (phi + 1) (index + 1) s
termination_by src.buf.length - pbegin
decreasing_by
  have hphi := findSeparator_le phi _hphi
  omega

/-- The loop over the modifiers of a tag; an empty one changes nothing. -/
def readModifiers (dbegin dend : Nat) : Except Fault Nat :=
  eachPart src (byte ',') dend (fun ops _ pbegin pend => do
    let mod ← src.get_data pbegin pend true false true
    return ops ||| modifierOps mod) dbegin 0 0

def readLegacyTag (pbegin pend aOps : Nat) : Except Fault (Option Tag) :=
  match src.buf[pbegin]? with
  | none => .error .read
  | some c =>
    let negated := c = byte 'n'
    let (s, ops) := legacyCase (src.range (if negated then pbegin + 1 else pbegin) pend)
      (aOps ||| OP_OR ||| if negated then OP_NOT else 0)
    let (s, ops) := legacyAll s ops
    match legacyTags.find? fun tag => s ∈ tag.1 with
    | none => .ok none
    | some tag =>
      let ops := if tag.2 ∈ [str "data", str "length"] ∧ hasFlag ops OP_NOT then andOps ops else ops
      .ok (some ⟨getSdExFunction tag.2 false, ops⟩)

/-- Where the name of a tag ends, which modifiers may stand behind. -/
def Source.nameEnd (pbegin pend : Nat) : Nat :=
  ((Bdcpp.strfnd (src.range pbegin pend) (str "(")).map (pbegin + ·)).getD pend

/-- Where the modifiers end. -/
def Source.modifiersEnd (dbegin pend : Nat) : Nat :=
  ((Bdcpp.strfnd (src.range dbegin pend) (str ")")).map (dbegin + ·)).getD pend

/-- The tag of a function by its short name, its full name, or a legacy name. -/
def readTagName (ops pbegin pend : Nat) : Except Fault (Option Tag) :=
  match getSdExFunction (src.range pbegin pend) true with
  | some f => .ok (some ⟨some f, ops⟩)
  | none =>
    match getSdExFunction (src.range pbegin pend) false with
    | some f => .ok (some ⟨some f, ops⟩)
    | none => do
      match ← readLegacyTag src pbegin pend ops with
      | none => return none
      | some tag => return if tag.function.isSome then some tag else none

/-- The operators of the modifiers, if there are any. -/
def readOps (pbegin pend : Nat) : Except Fault Nat :=
  let dbegin := src.nameEnd pbegin pend
  if dbegin = pend then .ok 0 else readModifiers src (dbegin + 1) (src.modifiersEnd (dbegin + 1) pend)

/-- Reads a tag, unless it is not supported. -/
def readTag (pbegin pend : Nat) : Except Fault (Option Tag) := do
  let ops ← readOps src pbegin pend
  let (pbegin, pend) := src.strip pbegin (src.nameEnd pbegin pend)
  readTagName src ops pbegin pend

variable {α : Type} (nested : Bool → Nat → Nat → Except Fault α)

/-- Whether the component of a value with the flags is without case. -/
def nocaseAt (ops index : Nat) : Bool := (index > 3 || !hasFlag (ops >>> (12 + index)) 1) && hasFlag ops OP_NOCASE

def Value.isNocaseAt (v : Value α) (index : Nat) : Bool := nocaseAt v.ops index

/-- The type of a component. -/
def Source.componentType (ops index : Nat) : Nat :=
  if index ≤ 3 then (ops >>> (16 + index * 4)) &&& 0xF else src.farShift ops index &&& 0xF

/-- Adds a component to a value. -/
def addComponent (aOps : Nat) (sdv : Value α) (index pbegin pend : Nat) : Except Fault (Value α) := do
  let sw := src.componentType aOps index
  if sw = CPNT_INT32 then return { sdv with int32s := sdv.int32s ++ [← getInt32 src pbegin pend] }
  else if sw = CPNT_INT64 then return { sdv with int64s := sdv.int64s ++ [← getInt64 src pbegin pend] }
  else if sw = CPNT_SDEX then
    return { sdv with sdexs := sdv.sdexs ++ [← nested (sdv.isNocaseAt index) pbegin pend] }
  else return { sdv with strings := sdv.strings ++ [← src.get_data pbegin pend (sdv.isNocaseAt index) true true] }

/-- What `addValue` adds. -/
def addValue (pbegin pend aOps : Nat) : Except Fault (Value α) :=
  eachPart src (byte ',') pend (addComponent src nested aOps) pbegin 0 ⟨[], [], [], [], aOps⟩

/-- The flags that the tokenizer passes on. -/
def tokenizerOps (ops : Nat) (partNocase : Bool) : Nat :=
  if (partNocase || hasFlag ops OP_NOCASE) && !hasFlag ops OP_FORCECASE then ops ||| OP_NOCASE else ops

/-- What is not empty and not just whitespace. -/
def Source.filled (pbegin pend : Nat) : Bool := (strfndfstnof (src.range pbegin pend) whitespace).isSome

/-- The tokens of a `Tokenizer`. -/
def tokenizer (pbegin pend ops : Nat) (partNocase : Bool) : Except Fault (List (Value α)) :=
  eachPart src (byte ';') pend (fun tokens _ pbegin phi =>
    if src.filled pbegin phi then do
      return tokens ++ [← addValue src nested pbegin phi (tokenizerOps ops partNocase)]
    else .ok tokens) pbegin 0 []

/-- A tag: where its name begins and ends, and where its values begin. -/
structure TagPlace where
  dbegin : Nat
  dend : Nat
  pbegin : Nat

/-- What stands between the braces of a tag: a system tag with the place of its value, or another tag. -/
inductive TagText
  | sdexversion (pbegin : Nat)
  | paramlengthfixed (pbegin : Nat)
  | paramlengthmin (pbegin : Nat)
  | tag (t : TagPlace)

def Source.tagText (pbegin phi : Nat) : TagText :=
  match strfndfstof (src.range pbegin phi) (str "=:") with
  | none => .tag ⟨pbegin, phi, phi⟩
  | some i =>
    let dend := pbegin + i
    if src.buf[dend]? = some (byte ':') then -- legacy operation or system tag
      let name := stripped (src.range pbegin dend)
      let values := if dend + 1 ≠ phi ∧ src.buf[dend + 1]? = some (byte '=') then dend + 2 else dend + 1
      if name = str "sdexversion" ∨ name = str "sdv" then .sdexversion values
      else if name = str "paramlengthfixed" ∨ name = str "plf" then .paramlengthfixed values
      else if name = str "paramlengthmin" ∨ name = str "plm" then .paramlengthmin values
      else .tag ⟨pbegin, dend, values⟩
    else .tag ⟨pbegin, dend, dend + 1⟩

/-- Adds a tag to the part, the values of which go up to `phi`. -/
def addTag (t : TagPlace) (phi : Nat) (part : Part α) : Except Fault (Part α) := do
  match ← readTag src t.dbegin t.dend with
  | none => return part
  | some tag => return { part with tags := part.tags ++ [(tag, ← tokenizer src nested t.pbegin phi tag.getOps part.nocase)] }

/-- `abs(atoi(...))` of data, as a length. -/
def getLength (pbegin pend : Nat) : Except Fault Nat := do
  let data ← src.get_data pbegin pend false true true
  return size_t (Int32.ofInt (Util.toInt data)).abs

/-- Reads what stands between the braces of a tag; one that is empty only has a warning. -/
def readTagText (pbegin phi : Nat) (part : Part α) : Except Fault (Part α) :=
  if pbegin = phi then .ok part
  else
  match src.tagText pbegin phi with
  | .sdexversion values => do
    let _ ← src.get_data values phi false true true
    return part
  | .paramlengthfixed values => do return { part with paramlenfixed := some (← getLength src values phi) }
  | .paramlengthmin values => do return { part with paramlenmin := some (← getLength src values phi) }
  | .tag t => addTag src nested t phi part

/-- Gives the part its name, if it has none yet. -/
def readName (readescapes : Bool) (part : Part α) (name : Bool) (pbegin pend : Nat) : Except Fault (Part α) :=
  if name then .ok part
  else do
    let (dbegin, dend) := src.strip pbegin pend
    return { part with text := ← src.get_data dbegin dend false readescapes false }

/-- The loop of the constructor of a parameter, which has its name from the first turn. -/
def partLoop (readescapes : Bool) (pend : Nat) (part : Part α) (name : Bool) (pbegin : Nat) : Except Fault (Part α) :=
  match _hphi : findTagBegin src.buf pbegin pend readescapes with
  | .error f => .error f
  | .ok phi => do
    let part ← readName src readescapes part name pbegin phi
    if _hne : phi = pend then return part
    else
      match _he : findTagEnd src.buf (phi + 1) pend readescapes with
      | .error f => .error f
      | .ok e => do
        let part ← readTagText src nested (phi + 1) e part
        if behind e pend = pend then return part else partLoop readescapes pend part true (behind e pend)
termination_by src.buf.length - pbegin
decreasing_by
  have hphi := (findTagBegin_lt phi _hphi).resolve_left _hne
  have he : phi + 1 ≤ e := findTagEnd_le e _he
  rw [behind]
  split <;> omega

/-- The constructor of a part that is a parameter. -/
def readParam (nocase readescapes : Bool) (pbegin pend : Nat) : Except Fault (Part α) :=
  partLoop src nested readescapes pend (Part.ofParam [] nocase) false pbegin

/-- Adds the part for the text in front of a parameter, if there is any. -/
def addText (nocase readescapes : Bool) (parts : List (Part α)) (pbegin pend : Nat) : Except Fault (List (Part α)) :=
  if pend = pbegin then .ok parts
  else do return parts ++ [Part.ofText (← src.get_data pbegin pend nocase readescapes false) nocase]

/-- The loop of `append`. -/
def appendLoop (nocase readescapes : Bool) (pend : Nat) (parts : List (Part α)) (pbegin : Nat) :
    Except Fault (List (Part α)) :=
  match _hphi : findParamBegin src.buf pbegin pend readescapes with
  | .error f => .error f
  | .ok phi => do
    let parts ← addText src nocase readescapes parts pbegin phi
    if _hne : phi = pend then return parts
    else
      match _he : findParamEnd src.buf (phi + 2) pend true with -- always read escapes in a param
      | .error f => .error f
      | .ok e => do
        let part ← readParam src nested nocase readescapes (phi + 2) e
        if behind e pend = pend then return parts ++ [part]
        else appendLoop nocase readescapes pend (parts ++ [part]) (behind e pend)
termination_by src.buf.length - pbegin
decreasing_by
  have hphi := (findParamBegin_lt phi _hphi).resolve_left _hne
  have he : phi + 2 ≤ e := findParamEnd_le e _he
  rw [behind]
  split <;> omega

def append (nocase readescapes : Bool) (pbegin pend : Nat) : Except Fault (List (Part α)) :=
  if pbegin = pend then .ok [] else appendLoop src nested nocase readescapes pend [] pbegin

/-- `assign`, for patterns in values up to a depth. Those always read escapes. -/
def SdEx.assign : (n : Nat) → Bool → Bool → Nat → Nat → Except Fault (SdEx n)
  | 0, _, _, _, _ => .error .endless
  | n + 1, nocase, readescapes, pbegin, pend =>
    append src (fun nocase pbegin pend => SdEx.assign n nocase true pbegin pend) nocase readescapes pbegin pend

end Dcpp.SdExFull
