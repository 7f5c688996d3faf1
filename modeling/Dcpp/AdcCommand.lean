import Mathlib.Data.List.Basic
import Mathlib.Tactic.Common
import Dcpp.Bytes

namespace Dcpp

/-- `TYPE_BROADCAST` and so on, the letters that a message can begin with. -/
inductive AdcType where
  | BROADCAST | CLIENT | DIRECT | ECHO | FEATURE | INFO | HUB | UDP
deriving DecidableEq, Repr

namespace AdcType

def toChar : AdcType → UInt8
  | BROADCAST => byte 'B'
  | CLIENT => byte 'C'
  | DIRECT => byte 'D'
  | ECHO => byte 'E'
  | FEATURE => byte 'F'
  | INFO => byte 'I'
  | HUB => byte 'H'
  | UDP => byte 'U'

def ofChar (c : UInt8) : Option AdcType :=
  [BROADCAST, CLIENT, DIRECT, ECHO, FEATURE, INFO, HUB, UDP].find? fun t => t.toChar == c

theorem ofChar_toChar (t : AdcType) : ofChar t.toChar = some t := by
  cases t <;> rfl

/-- The types whose header has the SID of the sender. -/
def hasFrom : AdcType → Bool
  | BROADCAST | DIRECT | ECHO | FEATURE => true
  | _ => false

/-- The types whose header has the SID of the receiver. -/
def hasTo : AdcType → Bool
  | DIRECT | ECHO => true
  | _ => false

end AdcType

/-- An `AdcCommand`. `cmd` holds the first three characters of `cmdChar`; the last one is zero. -/
structure AdcCommand where
  cmd : UInt8 × UInt8 × UInt8
  type : AdcType
  «from» : UInt32
  «to» : UInt32
  features : Bytes
  parameters : List Bytes
deriving DecidableEq

namespace AdcCommand

def HUB_SID : UInt32 := 0xffffffff

/-- The bytes of a SID, read as a number. -/
def toSID (aSID : Bytes) : UInt32 := UInt32.ofNat (aSID.foldr (fun b n => b.toNat + 256 * n) 0)

def fromSID (aSID : UInt32) : Bytes :=
  [UInt8.ofNat aSID.toNat, UInt8.ofNat (aSID.toNat / 256), UInt8.ofNat (aSID.toNat / 65536),
    UInt8.ofNat (aSID.toNat / 16777216)]

theorem toSID_fromSID (aSID : UInt32) : toSID (fromSID aSID) = aSID := by
  have hlt := aSID.toNat_lt
  apply UInt32.toNat_inj.mp
  simp only [toSID, fromSID, List.foldr_cons, List.foldr_nil, UInt8.toNat_ofNat', UInt32.toNat_ofNat']
  omega

/-- What `parse` knows besides the command itself. -/
structure Parsing where
  command : AdcCommand
  toSet : Bool
  featureSet : Bool
  fromSet : Bool

/-- What happens to a token when it is complete. -/
def newParameter (p : Parsing) (cur : Bytes) : Except String Parsing :=
  if p.command.type.hasFrom && !p.fromSet then
    if cur.length ≠ 4 then .error "Invalid SID length"
    else .ok { p with command := { p.command with «from» := toSID cur }, fromSet := true }
  else if p.command.type.hasTo && !p.toSet then
    if cur.length ≠ 4 then .error "Invalid SID length"
    else .ok { p with command := { p.command with «to» := toSID cur }, toSet := true }
  else if decide (p.command.type = .FEATURE) && !p.featureSet then
    if cur.length % 5 ≠ 0 then .error "Invalid feature length"
    else .ok { p with featureSet := true }
  else .ok { p with command := { p.command with parameters := p.command.parameters ++ [cur] } }

/-- The loop of `parse` over the rest of the line. -/
def parseLoop (nmdc : Bool) : Bytes → Bytes → Parsing → Except String (Bytes × Parsing)
  | [], cur, p => .ok (cur, p)
  | c :: buf, cur, p =>
    if c = byte '\\' then
      match buf with
      | [] => .error "Escape at eol"
      | e :: buf =>
        if e = byte 's' then parseLoop nmdc buf (cur ++ [byte ' ']) p
        else if e = byte 'n' then parseLoop nmdc buf (cur ++ [byte '\n']) p
        else if e = byte '\\' then parseLoop nmdc buf (cur ++ [byte '\\']) p
        else if e = byte ' ' ∧ nmdc = true then parseLoop nmdc buf (cur ++ [byte ' ']) p
        else .error "Unknown escape"
    else if c = byte ' ' then (newParameter p cur).bind (parseLoop nmdc buf [])
    else parseLoop nmdc buf (cur ++ [c]) p

/-- What `parse` does after the loop. -/
def parseEnd (cur : Bytes) (p : Parsing) : Except String AdcCommand :=
  (if cur ≠ [] then newParameter p cur else .ok p).bind fun p =>
    if p.command.type.hasFrom && !p.fromSet then .error "Missing from_sid"
    else if decide (p.command.type = .FEATURE) && !p.featureSet then .error "Missing feature"
    else if p.command.type.hasTo && !p.toSet then .error "Missing to_sid"
    else .ok p.command

/-- `parse` after the first characters: the type and the command, and where the parameters begin. -/
def parseFrom (c : AdcCommand) (nmdc : Bool) (type : AdcType) (cmd : UInt8 × UInt8 × UInt8) (buf : Bytes) :
    Except String AdcCommand :=
  let c := { c with type := type, cmd := cmd, «from» := if type = .INFO then HUB_SID else c.from }
  (parseLoop nmdc buf [] ⟨c, false, false, nmdc⟩).bind fun r => parseEnd r.1 r.2

/-- `parse`, of an object whose members have some value already. -/
def parse (c : AdcCommand) (aLine : Bytes) (nmdc : Bool) : Except String AdcCommand :=
  if nmdc then
    match aLine with
    | _ :: _ :: _ :: _ :: c₀ :: c₁ :: c₂ :: _ =>
      parseFrom c nmdc .CLIENT (c₀, c₁, c₂) (aLine.drop 8)
    | _ => .error "Too short"
  else
    match aLine with
    | t :: c₀ :: c₁ :: c₂ :: _ =>
      match AdcType.ofChar t with
      | none => .error "Invalid type"
      | some type => parseFrom c nmdc type (c₀, c₁, c₂) (aLine.drop 5)
    | _ => .error "Too short"

/-- The constructor that parses a line; it leaves `from` and `to` as they are in memory. -/
def ofLine (aLine : Bytes) (nmdc : Bool) («from» «to» : UInt32) : Except String AdcCommand :=
  parse ⟨(0, 0, 0), .CLIENT, «from», «to», [], []⟩ aLine nmdc

/-- The loop of `escape` over the characters. -/
def escape (str : Bytes) (old : Bool) : Bytes :=
  str.flatMap fun c =>
    if c = byte ' ' ∨ c = byte '\n' ∨ c = byte '\\' then
      if old then [byte '\\', c]
      else if c = byte ' ' then [byte '\\', byte 's']
      else if c = byte '\n' then [byte '\\', byte 'n']
      else [byte '\\', byte '\\']
    else [c]

/-- `cmdChar` as a C string. -/
def cmdChar (c : AdcCommand) : Bytes := [c.cmd.1, c.cmd.2.1, c.cmd.2.2].takeWhile fun b => b != 0

def getHeaderString (c : AdcCommand) (sid : UInt32) (nmdc : Bool) : Bytes :=
  (if nmdc then str "$ADC" else [c.type.toChar]) ++ c.cmdChar ++
    (if c.type.hasFrom then byte ' ' :: fromSID sid else []) ++
    (if c.type.hasTo then byte ' ' :: fromSID c.to else []) ++
    (if c.type = .FEATURE then byte ' ' :: c.features else [])

def getParamString (c : AdcCommand) (nmdc : Bool) : Bytes :=
  (c.parameters.flatMap fun i => byte ' ' :: escape i nmdc) ++
    (if nmdc then [byte '|'] else [byte '\n'])

def toString (c : AdcCommand) (sid : UInt32) (nmdc : Bool) : Bytes :=
  c.getHeaderString sid nmdc ++ c.getParamString nmdc

/-- The first parameter from `start` on that begins with the two letters of its name. -/
def getParam (c : AdcCommand) (name : Bytes) (start : Nat) : Option Bytes :=
  ((c.parameters.drop start).find? fun p => p.take 2 = name).map fun p => p.drop 2

def hasFlag (c : AdcCommand) (name : Bytes) (start : Nat) : Bool :=
  (c.parameters.drop start).any fun p => p = name ++ [byte '1']

end AdcCommand

end Dcpp
