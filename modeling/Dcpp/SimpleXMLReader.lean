import Mathlib.Tactic.Common
import Dcpp.Text

namespace Dcpp.SimpleXMLReader

def MAX_NAME_SIZE : Nat := 256
def MAX_VALUE_SIZE : Nat := 64 * 1024
def MAX_NESTING : Nat := 32

inductive ParseState where
  | START
  | DECL_VERSION | DECL_VERSION_EQ | DECL_VERSION_NUM
  | DECL_ENCODING | DECL_ENCODING_EQ | DECL_ENCODING_NAME | DECL_ENCODING_NAME_APOS
  | DECL_ENCODING_NAME_QUOT
  | DECL_STANDALONE | DECL_STANDALONE_EQ | DECL_STANDALONE_YES
  | DECL_END
  | ELEMENT_NAME
  | ELEMENT_ATTR | ELEMENT_ATTR_NAME | ELEMENT_ATTR_EQ | ELEMENT_ATTR_VALUE
  | ELEMENT_ATTR_VALUE_QUOT | ELEMENT_ATTR_VALUE_APOS
  | ELEMENT_END_SIMPLE | ELEMENT_END | ELEMENT_END_END
  | COMMENT | CONTENT | CDATA
  | END
deriving DecidableEq, Repr

abbrev StringPairList := List (Bytes × Bytes)

inductive CallBack where
  | startTag (name : Bytes) (attribs : StringPairList) (simple : Bool)
  | data (data : Bytes)
  | endTag (name : Bytes)
deriving DecidableEq

/-- What the reader keeps besides its buffer. The innermost element comes first in `elements`, the
last attribute first in `attribs`, and `calls` are the callbacks made so far. -/
structure Reader where
  attribs : StringPairList
  value : Bytes
  encoding : Bytes
  state : ParseState
  elements : List Bytes
  calls : List CallBack
deriving DecidableEq

/-- A parser returns whether it applies, with what is left of the buffer, or throws. -/
inductive Result where
  | ret (applies : Bool) (r : Reader) (buf : Bytes)
  | error (r : Reader) (buf : Bytes) (message : String)
deriving DecidableEq

/-- The `||` of the parsers. -/
def Result.or (x : Result) (f : Reader → Bytes → Result) : Result :=
  match x with
  | .ret false r buf => f r buf
  | x => x

def isSpace (c : UInt8) : Bool := c = 0x20 || c = 0x09 || c = 0x0d || c = 0x0a

def inRange (c a b : UInt8) : Bool := a ≤ c && c ≤ b

def isNameStartChar (c : UInt8) : Bool :=
  c = byte ':' || inRange c (byte 'A') (byte 'Z') || c = byte '_' || inRange c (byte 'a') (byte 'z')

def isNameChar (c : UInt8) : Bool :=
  isNameStartChar c || c = byte '-' || c = byte '.' || inRange c (byte '0') (byte '9')

def isDigit (c : UInt8) : Bool := inRange c (byte '0') (byte '9')

def isXDigit (c : UInt8) : Bool :=
  isDigit c || inRange c (byte 'a') (byte 'f') || inRange c (byte 'A') (byte 'F')

/-- A NUL follows the last byte. -/
def charAt (buf : Bytes) (n : Nat) : UInt8 := buf.getD n 0

def needChars (buf : Bytes) (n : Nat) : Bool := n ≤ buf.length

/-- `append`, which throws beyond the limit. -/
def append (str : Bytes) (maxLen : Nat) (c : Bytes) : Option Bytes :=
  if str.length + c.length > maxLen then none else some (str ++ c)

def literal (lit : Bytes) (withSpace : Bool) (newState : ParseState) (r : Reader) (buf : Bytes) : Result :=
  if (lit.zip buf).all fun p => p.1 = p.2 then
    if lit.length ≤ buf.length then
      if withSpace then
        if buf.length = lit.length then .ret true r buf
        else if !isSpace (charAt buf lit.length) then .ret false r buf
        else .ret true { r with state := newState } (buf.drop (lit.length + 1))
      else .ret true { r with state := newState } (buf.drop lit.length)
    else .ret true r buf
  else .ret false r buf

def character (c : UInt8) (newState : ParseState) (r : Reader) (buf : Bytes) : Result :=
  match buf with
  | [] => .ret true r []
  | c' :: rest => if c' = c then .ret true { r with state := newState } rest else .ret false r buf

/-- The loop of `skipSpace`. -/
def skipLoop (store : Bool) (skipped : Bool) (r : Reader) : Bytes → Result
  | [] => .ret skipped r []
  | c :: buf =>
    if isSpace c then
      if store then
        match append r.value MAX_VALUE_SIZE [c] with
        | none => .error r (c :: buf) "Buffer overflow"
        | some value => skipLoop store true { r with value := value } buf
      else skipLoop store true r buf
    else .ret skipped r (c :: buf)

def skipSpace (store : Bool) (r : Reader) (buf : Bytes) : Result :=
  if buf = [] then .ret true r [] else skipLoop store false r buf

def error (message : String) (r : Reader) (buf : Bytes) : Result := .error r buf message

def spaceOrError (message : String) (r : Reader) (buf : Bytes) : Result :=
  (skipSpace false r buf).or (error message)

def element (r : Reader) (buf : Bytes) : Result :=
  match buf with
  | c₀ :: c :: rest =>
    if c₀ = byte '<' && isNameStartChar c then
      if r.elements.length ≥ MAX_NESTING then .error r buf "Max nesting exceeded"
      else .ret true { r with state := .ELEMENT_NAME, elements := [c] :: r.elements } rest
    else .ret false r buf
  | _ => .ret true r buf

/-- The callback for an element that begins. -/
def startTag (simple : Bool) (r : Reader) : List CallBack :=
  r.calls ++ [.startTag (r.elements.headD []) r.attribs.reverse simple]

/-- The name of the innermost element goes on; without one, `back` is undefined. -/
def elementName (r : Reader) (buf : Bytes) : Result :=
  match r.elements with
  | [] => .error r buf "No element"
  | top :: elements =>
    match buf.dropWhile isNameChar with
    | [] =>
      match append top MAX_NAME_SIZE (buf.takeWhile isNameChar) with
      | none => .error r buf "Buffer overflow"
      | some top => .ret true { r with elements := top :: elements } []
    | c :: rest =>
      if isSpace c || c = byte '/' || c = byte '>' then
        match append top MAX_NAME_SIZE (buf.takeWhile isNameChar) with
        | none => .error r buf "Buffer overflow"
        | some top =>
          let r := { r with elements := top :: elements }
          if isSpace c then .ret true { r with state := .ELEMENT_ATTR } rest
          else if c = byte '/' then .ret true { r with state := .ELEMENT_END_SIMPLE } rest
          else .ret true { r with calls := startTag false r, attribs := [], state := .CONTENT } rest
      else .ret false r buf

def elementAttr (r : Reader) (buf : Bytes) : Result :=
  match buf with
  | [] => .ret true r []
  | c :: rest =>
    if isNameStartChar c then
      .ret true { r with attribs := ([c], []) :: r.attribs, state := .ELEMENT_ATTR_NAME } rest
    else .ret false r buf

def elementAttrName (r : Reader) (buf : Bytes) : Result :=
  match r.attribs with
  | [] => .error r buf "No attribute"
  | (first, second) :: attribs =>
    match buf.dropWhile isNameChar with
    | [] =>
      match append first MAX_NAME_SIZE (buf.takeWhile isNameChar) with
      | none => .error r buf "Buffer overflow"
      | some first => .ret true { r with attribs := (first, second) :: attribs } []
    | c :: rest =>
      if isSpace c || c = byte '=' then
        match append first MAX_NAME_SIZE (buf.takeWhile isNameChar) with
        | none => .error r buf "Buffer overflow"
        | some first =>
          .ret true { r with
            attribs := (first, second) :: attribs
            state := if isSpace c then .ELEMENT_ATTR_EQ else .ELEMENT_ATTR_VALUE } rest
      else .ret false r buf

/-- What the characters after an ampersand may be, in the order in which they are tried, and what
they stand for. -/
def references : List (List (UInt8 → Bool) × Bytes) :=
  let is (c : Char) : UInt8 → Bool := fun b => b = byte c
  let x : UInt8 → Bool := fun b => b = byte 'x' || b = byte 'X'
  [([is 'l', is 't', is ';'], [byte '<']),
    ([is 'g', is 't', is ';'], [byte '>']),
    ([is 'a', is 'm', is 'p', is ';'], [byte '&']),
    ([is 'q', is 'u', is 'o', is 't', is ';'], [byte '"']),
    ([is 'a', is 'p', is 'o', is 's', is ';'], [byte '\'']),
    ([is '#', isDigit, is ';'], []),
    ([is '#', isDigit, isDigit, is ';'], []),
    ([is '#', isDigit, isDigit, isDigit, is ';'], []),
    ([is '#', isDigit, isDigit, isDigit, isDigit, is ';'], []),
    ([is '#', isDigit, isDigit, isDigit, isDigit, isDigit, is ';'], []),
    ([is '#', x, isXDigit, is ';'], []),
    ([is '#', x, isXDigit, isXDigit, is ';'], []),
    ([is '#', x, isXDigit, isXDigit, isXDigit, is ';'], []),
    ([is '#', x, isXDigit, isXDigit, isXDigit, isXDigit, is ';'], [])]

/-- The characters from the first one on are as the pattern wants them. -/
def matchesRef : List (UInt8 → Bool) → Bytes → Bool
  | [], _ => true
  | p :: ps, buf => p (buf.headD 0) && matchesRef ps buf.tail

inductive EntRef where
  | overflow
  | no
  | yes (d buf : Bytes)
deriving DecidableEq

def entref (d : Bytes) (buf : Bytes) : EntRef :=
  if d.length + 1 ≥ MAX_VALUE_SIZE then .overflow
  else if buf.length > 6 then
    match references.find? fun ref => matchesRef ref.1 buf.tail with
    | some (pattern, c) => .yes (d ++ c) (buf.drop (pattern.length + 1))
    | none => .no
  else .yes d buf

/-- `replaceInvalid` is the flag `FLAG_REPLACE_INVALID_UTF8`. -/
structure Config where
  platform : Text.Platform
  replaceInvalid : Bool

/-- The text of a value or of an attribute in UTF-8, or none when it is malformed. -/
def decodeString (cfg : Config) (encoding str : Bytes) : Option Bytes :=
  if encoding ≠ [] ∧ encoding ≠ Text.utf8 then some (cfg.platform.toUtf8 str encoding)
  else if Text.validateUtf8 cfg.platform.wcharBits str then some str
  else if cfg.replaceInvalid then some (cfg.platform.sanitizeUtf8 str)
  else none

def quote : ParseState → UInt8
  | .ELEMENT_ATTR_VALUE_APOS | .DECL_ENCODING_NAME_APOS => byte '\''
  | _ => byte '"'

def elementAttrValue (cfg : Config) (r : Reader) (buf : Bytes) : Result :=
  match r.attribs with
  | [] => .error r buf "No attribute"
  | (first, second) :: attribs =>
    let stop (c : UInt8) : Bool := c = quote r.state || c = byte '&'
    match append second MAX_VALUE_SIZE (buf.takeWhile fun c => !stop c) with
    | none => .error r buf "Buffer overflow"
    | some second =>
      match buf.dropWhile fun c => !stop c with
      | [] => .ret true { r with attribs := (first, second) :: attribs } []
      | c :: rest =>
        if c = quote r.state then
          match decodeString cfg r.encoding second with
          | none => .error r buf "Malformed UTF-8 data"
          | some second => .ret true { r with attribs := (first, second) :: attribs, state := .ELEMENT_ATTR } rest
        else
          match entref second (c :: rest) with
          | .overflow => .error { r with attribs := (first, second) :: attribs } (c :: rest) "Buffer overflow"
          | .no => .ret false { r with attribs := (first, second) :: attribs } (c :: rest)
          | .yes second buf => .ret true { r with attribs := (first, second) :: attribs } buf

def elementEndSimple (r : Reader) (buf : Bytes) : Result :=
  match buf with
  | [] => .ret true r []
  | c :: rest =>
    if c = byte '>' then
      .ret true { r with
        calls := startTag true r
        elements := r.elements.tail
        attribs := []
        state := .CONTENT } rest
    else .ret false r buf

def elementEndComplex (r : Reader) (buf : Bytes) : Result :=
  match buf with
  | [] => .ret true r []
  | c :: rest =>
    if c = byte '>' then
      .ret true { r with calls := startTag false r, attribs := [], state := .CONTENT } rest
    else .ret false r buf

/-- The digits that follow the first one after the point; a digit is compared with 0 and 9. -/
def versionDigits (sep : UInt8) (r : Reader) (whole : Bytes) : Bytes → Result
  | [] => .ret true r whole
  | c :: buf =>
    if c = sep then .ret true { r with state := .DECL_ENCODING } buf
    else if !inRange c 0 9 then .ret false r whole
    else versionDigits sep r whole buf

def declVersionNum (r : Reader) (buf : Bytes) : Result :=
  if !needChars buf 5 then .ret true r buf
  else
    let sep := charAt buf 0
    if (sep = byte '"' || sep = byte '\'') && charAt buf 1 = byte '1' && charAt buf 2 = byte '.' then
      if !isDigit (charAt buf 3) then .ret false r buf
      else versionDigits sep r buf (buf.drop 4)
    else .ret false r buf

/-- The loop of `declEncodingValue`, in at most as many rounds as there is fuel. -/
def declEncodingValue (cfg : Config) : Nat → Reader → Bytes → Option Result
  | 0, _, _ => none
  | _ + 1, r, [] => some (.ret true r [])
  | fuel + 1, r, c :: rest =>
    if c = quote r.state then
      some (.ret true { r with encoding := cfg.platform.toLower r.encoding, state := .DECL_STANDALONE } rest)
    else if c = byte '&' then
      match entref r.encoding (c :: rest) with
      | .overflow => some (.error r (c :: rest) "Buffer overflow")
      | .no => some (.ret false r (c :: rest))
      | .yes encoding buf => declEncodingValue cfg fuel { r with encoding := encoding } buf
    else
      match append r.encoding MAX_VALUE_SIZE [c] with
      | none => some (.error r (c :: rest) "Buffer overflow")
      | some encoding => declEncodingValue cfg fuel { r with encoding := encoding } rest

def comment (r : Reader) : Bytes → Result
  | [] => .ret true r []
  | c :: buf =>
    if c = byte '-' then
      match buf with
      | c₁ :: c₂ :: rest =>
        if c₁ = byte '-' && c₂ = byte '>' then .ret true { r with state := .CONTENT } rest
        else comment r buf
      | _ => .ret true r (c :: buf)
    else comment r buf

def cdata (r : Reader) : Bytes → Result
  | [] => .ret true r []
  | c :: buf =>
    let store :=
      match append r.value MAX_VALUE_SIZE [c] with
      | none => .error r (c :: buf) "Buffer overflow"
      | some value => cdata { r with value := value } buf
    if c = byte ']' then
      match buf with
      | c₁ :: c₂ :: rest =>
        if c₁ = byte ']' && c₂ = byte '>' then .ret true { r with state := .CONTENT } rest else store
      | _ => .ret true r (c :: buf)
    else store

def content (r : Reader) (buf : Bytes) : Result :=
  match buf with
  | [] => .ret true r []
  | c :: rest =>
    if c = byte '&' then
      match entref r.value buf with
      | .overflow => .error r buf "Buffer overflow"
      | .no => .ret false r buf
      | .yes value buf => .ret true { r with value := value } buf
    else
      match append r.value MAX_VALUE_SIZE [c] with
      | none => .error r buf "Buffer overflow"
      | some value => .ret true { r with value := value } rest

def elementEnd (r : Reader) (buf : Bytes) : Result :=
  match r.elements with
  | [] => .ret false r buf
  | top :: _ =>
    if !needChars buf top.length then .ret true r buf
    else if buf.take top.length = top then
      .ret true { r with state := .ELEMENT_END_END } (buf.drop top.length)
    else .ret false r buf

def elementEndEnd (r : Reader) (buf : Bytes) : Result :=
  match buf with
  | [] => .ret true r []
  | c :: rest =>
    if c = byte '>' then
      .ret true { r with
        calls := r.calls ++ [.endTag (r.elements.headD [])]
        elements := r.elements.tail
        state := .CONTENT } rest
    else .ret false r buf

/-- The byte order mark. -/
def byteOrderMark : Bytes := [0xef, 0xbb, 0xbf]

def standalone (r : Reader) (buf : Bytes) : Result :=
  (((literal (str "standalone") false .DECL_STANDALONE_EQ r buf).or
    (literal (str "?>") false .CONTENT)).or
    (spaceOrError "Expecting standalone | ?>"))

/-- The cases of `process`, but those of the encoding's name. -/
def simpleCase (cfg : Config) (r : Reader) (buf : Bytes) : Result :=
  match r.state with
  | .START =>
    ((((literal byteOrderMark false .START r buf).or
      (literal (str "<?xml") true .DECL_VERSION)).or
      (literal (str "<!--") false .COMMENT)).or
      element).or
      (spaceOrError "Expecting XML declaration, element or comment")
  | .DECL_VERSION =>
    ((skipSpace false r buf).or
      (literal (str "version") false .DECL_VERSION_EQ)).or
      (spaceOrError "Expecting version")
  | .DECL_VERSION_EQ =>
    (character (byte '=') .DECL_VERSION_NUM r buf).or (spaceOrError "Expecting =")
  | .DECL_VERSION_NUM => (declVersionNum r buf).or (spaceOrError "Expecting version number")
  | .DECL_ENCODING =>
    (((literal (str "encoding") false .DECL_ENCODING_EQ r buf).or
      (literal (str "standalone") false .DECL_STANDALONE_EQ)).or
      (literal (str "?>") false .CONTENT)).or
      (spaceOrError "Expecting encoding | standalone | ?>")
  | .DECL_ENCODING_EQ =>
    (character (byte '=') .DECL_ENCODING_NAME r buf).or (spaceOrError "Expecting =")
  | .DECL_ENCODING_NAME =>
    ((character (byte '\'') .DECL_ENCODING_NAME_APOS r buf).or
      (character (byte '"') .DECL_ENCODING_NAME_QUOT)).or
      (spaceOrError "Expecting encoding name start")
  | .DECL_STANDALONE => standalone r buf
  | .DECL_STANDALONE_EQ =>
    (character (byte '=') .DECL_STANDALONE_YES r buf).or (spaceOrError "Expecting =")
  | .DECL_STANDALONE_YES =>
    ((literal (str "\"yes\"") false .DECL_END r buf).or
      (literal (str "'yes'") false .DECL_END)).or
      (spaceOrError "Expecting standalone=yes")
  | .DECL_END => (literal (str "?>") false .CONTENT r buf).or (spaceOrError "Expecting ?>")
  | .ELEMENT_NAME => (elementName r buf).or (error "Error while parsing element start")
  | .ELEMENT_END_SIMPLE => (elementEndSimple r buf).or (error "Expecting >")
  | .ELEMENT_END => (elementEnd r buf).or (spaceOrError "Expecting element end")
  | .ELEMENT_END_END => (elementEndEnd r buf).or (spaceOrError "Expecting >")
  | .ELEMENT_ATTR =>
    (((elementAttr r buf).or
      elementEndComplex).or
      (character (byte '/') .ELEMENT_END_SIMPLE)).or
      (spaceOrError "Expecting attribute | /> | >")
  | .ELEMENT_ATTR_NAME => (elementAttrName r buf).or (error "Expecting attribute name")
  | .ELEMENT_ATTR_EQ =>
    (character (byte '=') .ELEMENT_ATTR_VALUE r buf).or (spaceOrError "Expecting attribute =")
  | .ELEMENT_ATTR_VALUE =>
    ((character (byte '\'') .ELEMENT_ATTR_VALUE_APOS r buf).or
      (character (byte '"') .ELEMENT_ATTR_VALUE_QUOT)).or
      (spaceOrError "Expecting attribute value start")
  | .ELEMENT_ATTR_VALUE_APOS | .ELEMENT_ATTR_VALUE_QUOT =>
    (elementAttrValue cfg r buf).or (error "Expecting attribute value")
  | .COMMENT => (comment r buf).or (error "Error while parsing comment")
  | .CDATA => (cdata r buf).or (error "Error while parsing CDATA")
  | .CONTENT =>
    (((((skipSpace true r buf).or
      (literal (str "<!--") false .COMMENT)).or
      (literal (str "<![CDATA[") false .CDATA)).or
      element).or
      (literal (str "</") false .ELEMENT_END)).or
      content |>.or
      (error "Expecting content, element or comment")
  | .DECL_ENCODING_NAME_APOS | .DECL_ENCODING_NAME_QUOT | .END => .error r buf "Unexpected state"

/-- The `switch` of `process`. After the encoding's name it goes on with the next case. -/
def switch (cfg : Config) (fuel : Nat) (r : Reader) (buf : Bytes) : Option Result :=
  if r.state = .DECL_ENCODING_NAME_APOS ∨ r.state = .DECL_ENCODING_NAME_QUOT then
    (declEncodingValue cfg fuel r buf).map fun x =>
      match x.or (spaceOrError "Expecting encoding value") with
      | .ret _ r buf => standalone r buf
      | x => x
  else some (simpleCase cfg r buf)

/-- What a round of the loop of `process` does: it returns, goes on, or throws. -/
inductive Round where
  | done (more : Bool) (r : Reader) (buf : Bytes)
  | next (r : Reader) (buf : Bytes)
  | error (r : Reader) (buf : Bytes) (message : String)
deriving DecidableEq

/-- The end of a round, once the `switch` is left. -/
def roundEnd (cfg : Config) (old : Reader) (oldBuf : Bytes) : Result → Round
  | .error r buf message => .error r buf message
  | .ret _ r buf =>
    if r.state = old.state ∧ buf.length = oldBuf.length then .done true r buf
    else if old.state = .CONTENT ∧ r.state ≠ .CONTENT ∧ r.value ≠ [] then
      match decodeString cfg r.encoding r.value with
      | none => .error r buf "Malformed UTF-8 data"
      | some value => .next { r with calls := r.calls ++ [.data value], value := [] } buf
    else .next r buf

def round (cfg : Config) (fuel : Nat) (r : Reader) (buf : Bytes) : Option Round :=
  if r.state = .END then some (.done false r [])
  else (switch cfg fuel r buf).map (roundEnd cfg r buf)

/-- `process`, in at most as many rounds as there is fuel. -/
def process (cfg : Config) : Nat → Reader → Bytes → Option Round
  | 0, _, _ => none
  | fuel + 1, r, buf =>
    match round cfg fuel r buf with
    | some (.next r buf) => process cfg fuel r buf
    | x => x

def start : Reader := ⟨[], [], [], .START, [], []⟩

/-- `parse` of one buffer after another. -/
def parse (cfg : Config) (fuel : Nat) : Reader → Bytes → List Bytes → Option Round
  | r, buf, [] => some (.done true r buf)
  | r, buf, data :: chunks =>
    match process cfg fuel r (buf ++ data) with
    | some (.done true r buf) => parse cfg fuel r buf chunks
    | x => x

/-- `parse` of a stream, with what its reads give until there is no more. -/
def parseStream (cfg : Config) (fuel maxSize : Nat) :
    Nat → Reader → Bytes → List Bytes → Option (Except String Reader)
  | _, r, _, [] => some (if r.elements = [] then .ok r else .error "Unexpected end of stream")
  | bytesRead, r, buf, data :: chunks =>
    if maxSize > 0 ∧ bytesRead + data.length > maxSize then
      some (.error "Greater than maximum allowed size")
    else
      match process cfg fuel r (buf ++ data) with
      | some (.done true r buf) => parseStream cfg fuel maxSize (bytesRead + data.length) r buf chunks
      | some (.done false r _) => some (.ok r)
      | some (.error _ _ message) => some (.error message)
      | _ => none

/-- `parse` of a stream with the reader that it leaves, which has made its callbacks, and what it threw. -/
def readStream (cfg : Config) (fuel maxSize : Nat) :
    Nat → Reader → Bytes → List Bytes → Option (Reader × Option String)
  | _, r, _, [] => some (r, if r.elements = [] then none else some "Unexpected end of stream")
  | bytesRead, r, buf, data :: chunks =>
    if maxSize > 0 ∧ bytesRead + data.length > maxSize then
      some (r, some "Greater than maximum allowed size")
    else
      match process cfg fuel r (buf ++ data) with
      | some (.done true r buf) => readStream cfg fuel maxSize (bytesRead + data.length) r buf chunks
      | some (.done false r _) => some (r, none)
      | some (.error r _ message) => some (r, some message)
      | _ => none

/-- It throws where `parseStream` does. -/
theorem parseStream_eq (cfg : Config) (fuel maxSize bytesRead : Nat) (r : Reader) (buf : Bytes) (chunks : List Bytes) :
    parseStream cfg fuel maxSize bytesRead r buf chunks =
      (readStream cfg fuel maxSize bytesRead r buf chunks).map fun (r, thrown) =>
        match thrown with
        | none => .ok r
        | some message => .error message := by
  induction chunks generalizing bytesRead r buf with
  | nil =>
    rw [parseStream, readStream, Option.map_some]
    split <;> rfl
  | cons data chunks ih =>
    rw [parseStream, readStream]
    split
    next => rfl
    next =>
      cases process cfg fuel r (buf ++ data) with
      | none => rfl
      | some x =>
        cases x with
        | done more r' buf' =>
          cases more with
          | true => exact ih _ _ _
          | false => rfl
        | next _ _ => rfl
        | error _ _ _ => rfl

/-- `getAttrib`, which looks from the hint on and then before it. -/
def getAttrib (attribs : StringPairList) (name : Bytes) (hint : Nat) : Bytes :=
  let hint := min hint attribs.length
  match (attribs.drop hint).find? fun a => a.1 = name with
  | some a => a.2
  | none =>
    match (attribs.take hint).find? fun a => a.1 = name with
    | some a => a.2
    | none => []

end Dcpp.SimpleXMLReader
