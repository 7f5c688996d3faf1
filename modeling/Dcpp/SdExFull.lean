import Mathlib.Algebra.GroupWithZero.Nat
import Dcpp.Util
import Dcpp.Bdcpp

-- The patterns of `SdExFull`: what they are read into, the functions of their tags, and their matching.
namespace Dcpp.SdExFull

open Bdcpp

/-- The second of a `ParamMap`, a string or a function that gives one. -/
inductive Param
  | string (s : Bytes)
  | function (f : Unit → Bytes)

def Param.getString : Param → Bytes
  | .string s => s
  | .function f => f ()

abbrev ParamMap := Bytes → Option Param

def ParamMap.set (params : ParamMap) (name : Bytes) (p : Param) : ParamMap := Function.update params name (some p)

def ParamMap.erase (params : ParamMap) (name : Bytes) : ParamMap := Function.update params name none

/-- A string with its position in a larger string. -/
structure SdExString where
  data : Bytes
  ipos : Nat
  ilen : Nat
  param : Bool
  name : Bytes
  deriving DecidableEq, Repr

namespace SdExString

def make (aData : Bytes) (aInitialPos : Nat) (aParam : Bool) (aName : Bytes) : SdExString :=
  ⟨aData, aInitialPos, aData.length, aParam, aName⟩

/-- A part of the string, with the positions that it had in the larger one. -/
def cut (s : SdExString) (addPos newLength : Nat) : SdExString :=
  { s with data := (s.data.drop addPos).take newLength, ipos := s.ipos + addPos, ilen := newLength }

end SdExString

def OP_AND : Nat := 0x001
def OP_OR : Nat := 0x002
def OP_XOR : Nat := 0x004
def OP_XNOR : Nat := 0x008
def OP_NOT : Nat := 0x010
def OP_NOCASE : Nat := 0x020
def OP_FORCECASE : Nat := 0x040

def CPNT_INT32 : Nat := 1
def CPNT_INT64 : Nat := 2
def CPNT_SDEX : Nat := 4

def CPNT1234_KEEPCASE : Nat := 0xF <<< 12
def CPNT12_INT32 : Nat := CPNT_INT32 <<< 16 ||| CPNT_INT32 <<< 20
def CPNT1234_SDEX : Nat := CPNT_SDEX <<< 16 ||| CPNT_SDEX <<< 20 ||| CPNT_SDEX <<< 24 ||| CPNT_SDEX <<< 28
def CPNT_INSERT : Nat := 1 <<< 12 ||| CPNT_INT32 <<< 20 ||| 1 <<< 14 ||| 1 <<< 15
def CPNT_SPLIT : Nat := CPNT_SDEX <<< 16 ||| CPNT_SDEX <<< 20 ||| CPNT_INT32 <<< 24
def CPNT_VALIDATE : Nat := 1 <<< 12 ||| CPNT_SDEX <<< 20 ||| CPNT_SDEX <<< 24 ||| CPNT_SDEX <<< 28

def hasFlag (ops op : Nat) : Bool := ops &&& op ≠ 0

inductive Function
  | consists | contains | data | find | ifelse | length | number32 | number64 | pattern | validate
  | append | copy | deletedata | delimit | format | insert | replace | resize | split | strip
  deriving DecidableEq, Repr

def Function.components : Function → Nat
  | .consists | .contains | .data | .deletedata | .strip => 0
  | .find | .delimit => CPNT_INT32 <<< 20
  | .ifelse => CPNT_SDEX <<< 16 ||| CPNT_SDEX <<< 20 ||| CPNT_SDEX <<< 24
  | .length | .number32 | .resize => CPNT12_INT32
  | .number64 => CPNT_INT64 <<< 16 ||| CPNT_INT64 <<< 20
  | .pattern | .format => CPNT1234_SDEX
  | .validate => CPNT_VALIDATE
  | .append | .insert => CPNT_INSERT
  | .copy | .replace => CPNT1234_KEEPCASE
  | .split => CPNT_SPLIT

/-- A value of a tag; `α` is what the patterns in it are. -/
structure Value (α : Type) where
  int32s : List Int32
  int64s : List Int64
  strings : List Bytes
  sdexs : List α
  ops : Nat

def Value.isNocase {α : Type} (v : Value α) : Bool := hasFlag v.ops OP_NOCASE

structure Tag where
  function : Option Function
  ops : Nat

def Tag.getOps (t : Tag) : Nat :=
  match t.function with
  | some f => f.components ||| t.ops
  | none => t.ops

structure Part (α : Type) where
  text : Bytes
  tags : List (Tag × List (Value α))
  paramlenfixed : Option Nat
  paramlenmin : Option Nat
  param : Bool
  nocase : Bool

def Part.ofText {α : Type} (text : Bytes) (nocase : Bool) : Part α := ⟨text, [], none, none, false, nocase⟩

/-- A parameter that has no tags yet. -/
def Part.ofParam {α : Type} (name : Bytes) (nocase : Bool) : Part α := ⟨name, [], none, none, true, nocase⟩

/-- What the tags' functions do with the patterns in values. -/
structure Nested (α : Type) where
  check : α → Bytes → ParamMap → Option (Bool × ParamMap)
  format : α → ParamMap → Option (Bytes × ParamMap)

/-- What a tag's function returns, and the string and the parameters after it. It is `none` when an exception is raised,
when what is read is no part of a string, and when the function does not end. -/
abbrev Outcome := Option (Bool × SdExString × ParamMap)

/-- An `int` as a `size_t`. -/
def size_t (i : Int32) : Nat := (i.toInt % 2 ^ 64).toNat

/-- The position that a value gives in a string of a size: from the end when it is negative. -/
def position (int32s : List Int32) (size : Nat) : Nat :=
  let i := int32s.headD 0
  if i > Int32.ofNat size then size
  else if i < 0 then size_t (Int32.ofNat size + i)
  else size_t i

/-- A range from the beginning of a buffer, which has a NUL behind its characters. -/
def bufferRange (buf : Bytes) (len : Nat) : Option Bytes :=
  if len ≤ buf.length + 1 then some ((buf ++ [0]).take len) else none

def DELIMIT_EQUALS : Int32 := 0x01
def DELIMIT_CONTAINS : Int32 := 0x02
def DELIMIT_ONLY : Int32 := 0x04
def DELIMIT_STARTS : Int32 := 0x08
def DELIMIT_ENDS : Int32 := 0x10
def DELIMIT_NOCASE : Int32 := 0x20

/-- The loop that erases `n` characters wherever `find` finds something: in the string itself, or in `d` where that is
another string. -/
def eraseLoop (find : Bytes → Nat → Option Nat) (n : Nat) (d : Option Bytes) : Nat → Nat → Bytes → Option Bytes
  | 0, _, _ => none
  | fuel + 1, i, data =>
    match find (d.getD data) i with
    | none => some data
    | some i => if i > data.length then none else eraseLoop find n d fuel i (data.take i ++ data.drop (i + n))

/-- A loop that has not ended after as many rounds never does. -/
def eraseAll (find : Bytes → Nat → Option Nat) (n : Nat) (d : Option Bytes) (data : Bytes) : Option Bytes :=
  eraseLoop find n d (data.length + 1) 0 data

namespace Function

section

variable (toLower : Bytes → Bytes) {α : Type} (nested : Nested α)

/-- The data that the values are compared with. -/
def compared (v : Value α) (data : Bytes) : Bytes := if v.isNocase then toLower data else data

def runConsists (v : Value α) (s : SdExString) (params : ParamMap) : Outcome :=
  some (v.strings.all fun si => strfndfstnof (compared toLower v s.data) si = none, s, params)

def runContains (v : Value α) (s : SdExString) (params : ParamMap) : Outcome :=
  some (v.strings.any fun si => strfndfstof (compared toLower v s.data) si ≠ none, s, params)

def runData (v : Value α) (s : SdExString) (params : ParamMap) : Outcome :=
  some (v.strings.any fun si => compared toLower v s.data = si, s, params)

def runFind (v : Value α) (s : SdExString) (params : ParamMap) : Outcome :=
  let d := compared toLower v s.data
  some (v.strings.any fun si => fromPos strfnd d si (position v.int32s d.length) ≠ none, s, params)

def runIfelse (v : Value α) (s : SdExString) (params : ParamMap) : Outcome :=
  let d := compared toLower v s.data
  match v.sdexs with
  | condition :: yes :: rest => do
    let (b, params) ← nested.check condition d params
    if b then
      let (b, params) ← nested.check yes d params
      return (b, s, params)
    match rest with
    | [] => return (false, s, params)
    | no :: _ =>
      let (b, params) ← nested.check no d params
      return (b, s, params)
  | _ => some (false, s, params)

def runLength (v : Value α) (s : SdExString) (params : ParamMap) : Outcome :=
  match v.int32s with
  | [] => some (false, s, params)
  | i :: rest =>
    let first := size_t i
    let second := size_t (rest.headD 0)
    let size := s.data.length
    if second = 0 then some (size = first, s, params) -- equals
    else if first > second then some (size ≥ first || size ≤ second, s, params) -- NOT range
    else some (size ≥ first && size ≤ second, s, params) -- range

/-- The comparison of a number, as `number32` and `number64` make it. -/
def compareNumber (first second num : Int) : Bool :=
  if second = 0 then num = first
  else if first > second then num ≥ first || num ≤ second
  else num ≥ first && num ≤ second

def runNumber32 (v : Value α) (s : SdExString) (params : ParamMap) : Outcome :=
  match v.int32s with
  | [] => some (false, s, params)
  | first :: rest => some (compareNumber first.toInt (rest.headD 0).toInt (Util.toInt s.data), s, params)

def runNumber64 (v : Value α) (s : SdExString) (params : ParamMap) : Outcome :=
  match v.int64s with
  | [] => some (false, s, params)
  | first :: rest => some (compareNumber first.toInt (rest.headD 0).toInt (Util.toInt64 s.data), s, params)

/-- The first of the patterns that matches. -/
def checkAny (d : Bytes) : List α → ParamMap → Option (Bool × ParamMap)
  | [], params => some (false, params)
  | psi :: sdexs, params => do
    let (b, params) ← nested.check psi d params
    if b then return (true, params)
    checkAny d sdexs params

def runPattern (v : Value α) (s : SdExString) (params : ParamMap) : Outcome := do
  let (b, params) ← checkAny nested (compared toLower v s.data) v.sdexs params
  return (b, s, params)

def runValidate (v : Value α) (s : SdExString) (params : ParamMap) : Outcome :=
  match v.strings with
  | [] => some (false, s, params)
  | name :: _ =>
    match params name with
    | none => some (false, s, params)
    | some p => do
      let (b, params) ← checkAny nested (compared toLower v p.getString) v.sdexs params
      return (b, s, params)

def runInsert (v : Value α) (s : SdExString) (params : ParamMap) : Outcome :=
  match v.strings with
  | [] => some (true, s, params)
  | ins :: _ =>
    let pos := position v.int32s s.data.length
    if pos > s.data.length then none -- out of range
    else some (true, { s with data := s.data.take pos ++ ins ++ s.data.drop pos }, params)

/-- Same functionality as `insert`. -/
def runAppend (v : Value α) (s : SdExString) (params : ParamMap) : Outcome := runInsert v s params

def runCopy (v : Value α) (s : SdExString) (params : ParamMap) : Outcome :=
  some (true, s, v.strings.foldl (fun params si => if si = [] then params else params.set si (.string s.data)) params)

def runDeletedata (v : Value α) (s : SdExString) (params : ParamMap) : Outcome := do
  let d := if v.isNocase then some (toLower s.data) else none
  let data ← v.strings.foldlM (fun data si =>
    if si = [] then some data else eraseAll (fun d i => fromPos strfnd d si i) si.length d data) s.data
  return (true, { s with data }, params)

/-- The position of the element that is to be delimited. -/
def delimitFind (v : Value α) (type : Int32) (data element : Bytes) : Option (Option Nat) :=
  if v.isNocase || type &&& DELIMIT_NOCASE ≠ 0 then do
    let line ← bufferRange (toLower data) data.length
    let element ← if type &&& DELIMIT_NOCASE ≠ 0 then bufferRange (toLower element) element.length else some element
    return strfnd line element
  else some (strfnd data element)

def runDelimit (v : Value α) (s : SdExString) (params : ParamMap) : Outcome :=
  match v.strings with
  | [] => some (false, s, params)
  | element :: delimiters =>
    if element = [] then some (false, s, params)
    else do
      let elen := element.length
      let type := v.int32s.headD DELIMIT_ONLY
      match ← delimitFind toLower v type s.data element with
      | none => return (false, s, params)
      | some e =>
        let delimleft := delimiters.headD []
        let delimright := delimiters.getD 1 delimleft
        if type &&& DELIMIT_ONLY ≠ 0 || (delimleft = [] && delimright = []) then
          return (true, s.cut e elen, params)
        let i := if delimleft = [] then e else
          match strfndlstof (s.data.take e) delimleft with
          | none => 0 -- no delimiter found, start pos is beginning of data
          | some i => i + 1 -- we don't add the found delimiter
        let len := if delimright = [] then elen else
          match strfndfstof (s.data.drop (e + elen)) delimright with
          | none => s.data.length - i -- no delimiter found, end pos is end of data
          | some len => len + (e + elen - i)
        let valid := type &&& DELIMIT_CONTAINS ≠ 0 ||
          (type &&& DELIMIT_EQUALS ≠ 0 && i = e && len = elen) ||
          (type &&& DELIMIT_STARTS ≠ 0 && i = e) ||
          (type &&& DELIMIT_ENDS ≠ 0 && i + len = e + elen)
        if valid then return (true, s.cut i len, params)
        return (false, s, params)

def runFormat (v : Value α) (s : SdExString) (params : ParamMap) : Outcome :=
  match v.sdexs with
  | [] => some (true, s, params)
  | fmt :: _ =>
    if s.name ≠ [] then none -- the pointer to the string is itself taken for a string
    else do
      let (d, params) ← nested.format fmt params
      return (true, { s with data := d }, params)

def runReplace (v : Value α) (s : SdExString) (params : ParamMap) : Outcome :=
  some (true, { s with data := v.strings.getLastD s.data }, params)

def runResize (v : Value α) (s : SdExString) (params : ParamMap) : Outcome :=
  let pos := position v.int32s s.data.length
  if pos > s.data.length then none -- out of range
  else
    let len := match v.int32s.tail with
      | [] => s.data.length - pos
      | l :: _ => if l = -1 then s.data.length - pos else min (size_t l) (s.data.length - pos)
    some (true, { s with data := (s.data.drop pos).take len }, params)

/-- The two strings that `split` splits the data into, if it does. -/
def splitData (v : Value α) (data : Bytes) : Option (Option (Bytes × Bytes)) :=
  let pos := position v.int32s data.length
  if pos > data.length then some none -- do not act on positions out of scope
  else
    let token := v.strings.headD []
    if token = [] then some (some (data.take pos, data.drop pos))
    else
      match fromPos strfnd (compared toLower v data) token pos with
      | none => some none -- not found, not valid
      | some pos =>
        if pos + token.length > data.length then none -- a range whose end is before its beginning
        else some (some (data.take pos, data.drop (pos + token.length)))

def runSplit (v : Value α) (s : SdExString) (params : ParamMap) : Outcome :=
  match v.sdexs with
  | part1 :: part2 :: _ => do
    match ← splitData toLower v s.data with
    | none => return (false, s, params)
    | some (one, two) =>
      let (b, tmpParams) ← nested.check part1 one params
      if !b then return (false, s, params)
      let (b, tmpParams) ← nested.check part2 two tmpParams
      if !b then return (false, s, params)
      return (true, s, tmpParams)
  | _ => some (false, s, params)

def runStrip (v : Value α) (s : SdExString) (params : ParamMap) : Outcome := do
  let d := if v.isNocase then some (toLower s.data) else none
  let data ← v.strings.foldlM (fun data si =>
    let si := if si = [] then whitespace else si -- default is whitespace
    eraseAll (fun d i => fromPos strfndfstof d si i) 1 d data) s.data
  return (true, { s with data }, params)

def runFunction : Function → Value α → SdExString → ParamMap → Outcome
  | .consists => runConsists toLower
  | .contains => runContains toLower
  | .data => runData toLower
  | .find => runFind toLower
  | .ifelse => runIfelse toLower nested
  | .length => runLength
  | .number32 => runNumber32
  | .number64 => runNumber64
  | .pattern => runPattern toLower nested
  | .validate => runValidate toLower nested
  | .append => runAppend
  | .copy => runCopy
  | .deletedata => runDeletedata toLower
  | .delimit => runDelimit toLower
  | .format => runFormat nested
  | .insert => runInsert
  | .replace => runReplace
  | .resize => runResize
  | .split => runSplit toLower nested
  | .strip => runStrip toLower

end

end Function

section

variable (toLower : Bytes → Bytes) {α : Type} (nested : Nested α)

def Tag.check (t : Tag) (v : Value α) (s : SdExString) (params : ParamMap) : Outcome :=
  match t.function with
  | some f => f.runFunction toLower nested v s params
  | none => some (false, s, params)

end

section

variable {α : Type} (tagCheck : Tag → Value α → SdExString → ParamMap → Outcome)

/-- The test behind the loop over the values: whether the last one was valid or there was one before. -/
def valuesEnd (valid : Bool) (prev : Int) (s : SdExString) (params : ParamMap) : Outcome :=
  some (!(!valid && prev = -1), s, params)

/-- The loop over the values of a tag, with the result of the last one and the memory `prev` of the ones before. -/
def valuesLoop (t : Tag) : List (Value α) → Bool → Int → SdExString → ParamMap → Outcome
  | [], valid, prev, s, params => valuesEnd valid prev s params
  | vi :: values, _, prev, s, params => do
    let (valid, s, params) ← tagCheck t vi s params
    let valid := if hasFlag t.getOps OP_NOT then !valid else valid
    if hasFlag t.getOps OP_AND then -- AND: all should be valid
      if !valid then return (false, s, params)
      valuesLoop t values valid prev s params
    else if hasFlag t.getOps OP_OR then -- OR: any should be valid
      if valid then valuesEnd valid prev s params
      else valuesLoop t values valid prev s params
    else if hasFlag t.getOps OP_XOR then -- XOR: only one should be valid
      if valid then
        if prev = 1 then return (false, s, params)
        valuesLoop t values valid 1 s params
      else valuesLoop t values valid prev s params
    else if hasFlag t.getOps OP_XNOR then -- XNOR: either all or none should be valid
      if prev ≠ -1 && prev ≠ valid.toInt then return (false, s, params)
      valuesLoop t values valid valid.toInt s params
    else if valid then valuesEnd valid prev s params -- assume OR by default
    else valuesLoop t values valid prev s params

def checkTags : List (Tag × List (Value α)) → SdExString → ParamMap → Outcome
  | [], s, params => some (true, s, params)
  | (t, values) :: tags, s, params =>
    if values = [] then checkTags tags s params
    else do
      let (b, s, params) ← valuesLoop tagCheck t values false (-1) s params
      if !b then return (false, s, params)
      checkTags tags s params

end

section

variable (toLower : Bytes → Bytes)

/-- On nocase, the text is already lowered. -/
def strcmp (p d : Bytes) (nocase : Bool) : Bool := Bdcpp.strcmp (if nocase then toLower p else p) d

def strfnd (p d : Bytes) (nocase : Bool) : Option Nat := Bdcpp.strfnd (if nocase then toLower p else p) d

variable {α : Type} (tagCheck : Tag → Value α → SdExString → ParamMap → Outcome)

/-- The minimum length of all consecutive parameters combined. -/
def combinedLength (run : List (Part α)) : Nat :=
  (run.map fun pi => pi.paramlenfixed.getD 0 + pi.paramlenmin.getD 0).sum

/-- Whether the consecutive parameters have a fixed length. -/
def fixedLength (run : List (Part α)) : Bool := run.all fun pi => pi.paramlenfixed.isSome && pi.paramlenmin.isNone

/-- The matching so far: the position in the line, the pieces and the parameters. -/
structure Matching where
  phi : Nat
  sdstrings : List SdExString
  tmpParams : ParamMap

variable (line : Bytes) (keep : Bool)

/-- A piece of the line that is no parameter's data. -/
def piece (first last : Nat) : List SdExString :=
  if first = last then [] else [.make ((line.take last).drop first) first false []]

/-- Checks the parameters next to each other, whose data ends at `dend`; the first one's begins at `tmpbegin`. Data that
has been skipped or cut off is a piece of its own. `keep` tells whether there are parameters to be set. -/
def checkRun (dend : Nat) : List (Part α) → Nat → Matching → Option (Bool × Matching)
  | [], _, m => some (true, m)
  | cur :: run, tmpbegin, m => do
    let tmpend := cur.paramlenfixed.elim dend (tmpbegin + ·)
    let sdstring := SdExString.make ((line.take tmpend).drop tmpbegin) tmpbegin true cur.text
    let (b, sdstring, tmpParams) ← checkTags tagCheck cur.tags sdstring m.tmpParams
    if !b then return (false, { m with tmpParams })
    let ibegin := sdstring.ipos
    let iend := ibegin + sdstring.ilen
    if iend > tmpend then none -- a range whose end is before its beginning
    else
      checkRun dend run (if cur.paramlenfixed.isSome then tmpend else tmpbegin)
        { m with
          sdstrings := m.sdstrings ++ piece line tmpbegin ibegin ++ sdstring :: piece line iend tmpend
          tmpParams :=
            if keep && sdstring.name ≠ [] then tmpParams.set sdstring.name (.string sdstring.data) else tmpParams }

/-- Where a text behind parameters is. -/
def findText (run : List (Part α)) (pi : Part α) (phi : Nat) : Option Nat :=
  if fixedLength run then if strcmp toLower (line.drop phi) pi.text pi.nocase then some phi else none
  else (strfnd toLower (line.drop phi) pi.text pi.nocase).map (phi + ·)

/-- The loop over the parts; `run` are the parameters since the last text. -/
def checkParts : List (Part α) → List (Part α) → Matching → Option (Bool × Matching)
  | [], [], m => some (m.phi = line.length, m) -- is there more data than we checked?
  | [], cur :: run, m => -- no text part found
    if combinedLength (cur :: run) > line.length - m.phi then some (false, m)
    else if fixedLength (cur :: run) && combinedLength (cur :: run) ≠ line.length - m.phi then some (false, m)
    else checkRun tagCheck line keep line.length (cur :: run) m.phi { m with phi := line.length }
  | pi :: parts, run, m =>
    if pi.param then checkParts parts (run ++ [pi]) m
    else match run with
    | [] => -- the texts until the first following param
      if !strcmp toLower (line.drop m.phi) pi.text pi.nocase then some (false, m)
      else if m.phi + pi.text.length > line.length then none -- a pointer behind the line
      else checkParts parts []
        { m with
          phi := m.phi + pi.text.length
          sdstrings := m.sdstrings ++ [.make pi.text m.phi false []] }
    | cur :: run =>
      if combinedLength (cur :: run) > line.length - m.phi then some (false, m)
      else
        match findText toLower line (cur :: run) pi (m.phi + combinedLength (cur :: run)) with
        | none => some (false, m)
        | some dend =>
          let phi := dend + pi.text.length
          if phi > line.length then none
          else do
            let (b, m) ← checkRun tagCheck line keep dend (cur :: run) m.phi { m with phi }
            if !b then return (false, m)
            checkParts parts [] { m with sdstrings := m.sdstrings ++ [.make pi.text m.phi false []] }

/-- The result of `check`, the pieces, and the parameters after it. -/
def check (parts : List (Part α)) (line : Bytes) (params : Option ParamMap) :
    Option (Bool × List SdExString × Option ParamMap) := do
  let (b, m) ← checkParts toLower tagCheck line params.isSome parts [] ⟨0, [], params.getD fun _ => none⟩
  return (b, m.sdstrings, if b then params.map fun _ => m.tmpParams else params)

def formatLoop (ignoreparamfind ignoretags removeparam : Bool) :
    List (Part α) → List SdExString → ParamMap → Option (Bool × List SdExString × ParamMap)
  | [], sdstrings, tmpParams => some (true, sdstrings, tmpParams)
  | pi :: parts, sdstrings, tmpParams =>
    if !pi.param then
      formatLoop ignoreparamfind ignoretags removeparam parts (sdstrings ++ [.make pi.text 0 false []]) tmpParams
    else if pi.text ≠ [] && (tmpParams pi.text).isNone && !ignoreparamfind then some (false, sdstrings, tmpParams)
    else do
      let (sdstring, tmpParams) := match if pi.text = [] then none else tmpParams pi.text with
        | none => (SdExString.make [] 0 false [], tmpParams)
        | some p => (.make p.getString 0 true pi.text, if removeparam then tmpParams.erase pi.text else tmpParams)
      let (b, sdstring, tmpParams) ← checkTags tagCheck pi.tags sdstring tmpParams
      if !b && !ignoretags then return (false, sdstrings, tmpParams)
      formatLoop ignoreparamfind ignoretags removeparam parts (sdstrings ++ [sdstring]) tmpParams

def format (parts : List (Part α)) (params : ParamMap) (ignoreparamfind ignoretags removeparam : Bool) :
    Option (Bool × List SdExString × ParamMap) := do
  let (b, sdstrings, tmpParams) ←
    formatLoop tagCheck ignoreparamfind ignoretags removeparam parts [] params
  return (b, sdstrings, if b then tmpParams else params)

/-- The overloads that a pattern in a value is used by. -/
def overloads : Nested (List (Part α)) where
  check parts aLine params := do
    let (b, _, params) ← check toLower tagCheck parts aLine (some params)
    return (b, params.getD fun _ => none)
  format parts params := do
    let (_, sdstrings, params) ← format tagCheck parts params true false false
    return (sdstrings.flatMap SdExString.data, params)

end

/-- The patterns whose values have patterns less than `n` deep. -/
def SdEx : Nat → Type
  | 0 => Empty
  | n + 1 => List (Part (SdEx n))

def SdEx.parts {n : Nat} (e : SdEx (n + 1)) : List (Part (SdEx n)) := e

/-- What is called of a pattern with patterns in its values, from how a tag checks a value. -/
def SdEx.baseWith (toLower : Bytes → Bytes)
    (tagCheck : (α : Type) → Nested α → Tag → Value α → SdExString → ParamMap → Outcome) : (n : Nat) → Nested (SdEx n)
  | 0 => ⟨Empty.elim, Empty.elim⟩
  | n + 1 => overloads toLower (tagCheck (SdEx n) (SdEx.baseWith toLower tagCheck n))

def SdEx.base (toLower : Bytes → Bytes) : (n : Nat) → Nested (SdEx n) :=
  SdEx.baseWith toLower fun _ nested => Tag.check toLower nested

end Dcpp.SdExFull
