import Dcpp.Bdcpp
import Dcpp.EncodeURI

-- The escapes of SdEx: a backslash before its format characters, and `#FF#` for those that are hard to read.
namespace Dcpp.Bdcpp

/-- `%X` of a `char`, of which at most eight characters are written; a negative one is printed as an `int`. -/
def printHex (c : UInt8) : Bytes :=
  if c ≥ 0x80 then str "FFFFFF" ++ [Util.hexDigit (c.toNat / 16), Util.hexDigit (c.toNat % 16)]
  else if c < 16 then [Util.hexDigit c.toNat]
  else [Util.hexDigit (c.toNat / 16), Util.hexDigit (c.toNat % 16)]

/-- Always keeps two digits. -/
def charToHex (c : UInt8) : Bytes :=
  let buf := printHex c
  if buf.length = 1 then byte '0' :: buf else buf.take 2

/-- `sscanf` reads the digits with `%x`. -/
def hexToChar (hex : Bytes) : UInt8 := Util.fromHexEscape hex

/-- The characters that `escape` does not leave as they are. -/
def unreadable (c : UInt8) : Bool := c = byte '#' || !(0x1f < c && c < 0x7f)

/-- The loop of `escape`. -/
def escapeLoop : Bytes → Bytes
  | [] => []
  | c :: s =>
    if c = byte '\\' then
      -- ignore backslash escaped characters
      match s with
      | [] => [c]
      | c' :: s => c :: c' :: escapeLoop s
    else if unreadable c then
      byte '#' :: (charToHex c ++ (s.takeWhile unreadable).flatMap charToHex ++
        byte '#' :: escapeLoop (s.dropWhile unreadable))
    else c :: escapeLoop s
termination_by s => s.length
decreasing_by
  all_goals
    have := (List.dropWhile_suffix (l := s) unreadable).length_le
    simp_all
    try omega

def escape (line : Bytes) : Bytes := if line = [] then line else escapeLoop line

/-- A character is added unless it is 0. -/
def addChar (c : UInt8) : Bytes := if c ≠ 0 then [c] else []

/-- What a run of digits stands for. -/
def readHex : Bytes → Bytes
  | [] => []
  | [a] => addChar (hexToChar [a])
  | [a, b] => addChar (hexToChar [a, b])
  | a :: b :: c :: s => addChar (hexToChar [a, b]) ++ readHex (c :: s)

def isHex (c : UInt8) : Bool := c ∈ digitshex

/-- The loop of `checkEscape`. -/
def checkEscapeLoop : Bytes → Bytes
  | [] => []
  | c :: s =>
    if c = byte '\\' then
      match s with
      | [] => [c]
      | c' :: s => c :: c' :: checkEscapeLoop s
    else if c = byte '#' then
      let hex := s.takeWhile isHex
      match _h : s.dropWhile isHex with
      | [] => c :: hex -- no ending '#', add the remainder to the buf
      | d :: rest =>
        if d ≠ byte '#' then c :: (hex ++ d :: checkEscapeLoop rest) -- assume faulty format
        else if hex = [] then c :: checkEscapeLoop (d :: rest) -- no value, check from '#'
        else readHex hex ++ checkEscapeLoop rest
    else c :: checkEscapeLoop s
termination_by s => s.length
decreasing_by
  all_goals
    have hlen := (List.dropWhile_suffix (l := s) isHex).length_le
    simp_all
    try omega

/-- The bare minimum is `#F#`. -/
def checkEscape (line : Bytes) : Bytes := if line.length < 3 then line else checkEscapeLoop line

end Dcpp.Bdcpp

namespace Dcpp.SdExBase

open Bdcpp

/-- Takes the backslashes away. -/
def readEscapes : Bytes → Bytes
  | [] => []
  | c :: s =>
    if c = byte '\\' then
      match s with
      | [] => [] -- skip the escape char
      | c' :: s => c' :: readEscapes s
    else c :: readEscapes s

/-- `toLower` is that of `Text`. -/
def get_data (toLower : Bytes → Bytes) (p : Bytes) (nocase readescapes strip : Bool) : Bytes :=
  let p := if strip then stripped p else p
  let d := if readescapes then checkEscape (readEscapes p) else p
  if nocase then toLower d else d

/-- The characters that always get a backslash. -/
def formatCharacters : Bytes := str "\x7b\x7d,;[]\\"

/-- Escapes the format characters. Because of whitespace stripping, data beginning or ending with whitespace should have
escapes; `first` tells whether this is the beginning. -/
def escapeFormat (first : Bool) : Bytes → Bytes
  | [] => []
  | c :: s =>
    if c ∈ whitespace then
      if !first && s ≠ [] then c :: escapeFormat false s else byte '\\' :: c :: escapeFormat false s
    else if c ∈ formatCharacters then byte '\\' :: c :: escapeFormat false s
    else c :: escapeFormat false s

def escape_data (data : Bytes) : Bytes := if data = [] then data else escape (escapeFormat true data)

end Dcpp.SdExBase
