import Dcpp.Bytes

namespace Dcpp.Text

/-- The bytes of a character that follow the first one; `i` of them have been read. -/
def continuation (wcharBits : Nat) (c : Nat) (i : Nat) : Nat → Bytes → Int × Nat
  | 0, _ => (i, c)
  | left + 1, str =>
    let ci := (str.headD 0).toNat
    if ci &&& 0xc0 ≠ 0x80 then (-(i : Int), c)
    else continuation wcharBits (((c <<< 6) ||| (ci &&& 0x3f)) % 2 ^ wcharBits) (i + 1) left str.tail

/-- The length of the first character and its code point; the length is negative when the character
is invalid. A NUL follows the last byte, and `wcharBits` is the width of `wchar_t`. -/
def utf8ToWc (wcharBits : Nat) (str : Bytes) : Int × Nat :=
  let c₀ := (str.headD 0).toNat
  let bytes := 2 + (if c₀ &&& 0x20 ≠ 0 then 1 else 0) + if c₀ &&& 0x30 = 0x30 then 1 else 0
  if c₀ &&& 0xc0 = 0xc0 then
    let checkBit := 1 <<< (7 - bytes)
    if c₀ &&& checkBit ≠ 0 then (-1, 0)
    else
      let (n, c) := continuation wcharBits ((checkBit - 1) &&& c₀) 1 (bytes - 1) str.tail
      if n < 0 then (n, c)
      else if c > 0x10ffff ∨ (c ≥ 0xd800 ∧ c ≤ 0xdfff) then (-(bytes : Int), 0xfffd)
      else (bytes, c)
  else if c₀ &&& 0x80 = 0 then (1, c₀)
  else (-1, 0)

/-- The loop of `validateUtf8`; each character takes at least one byte. -/
def validateLoop (wcharBits : Nat) : Nat → Bytes → Bool
  | 0, str => str.isEmpty
  | fuel + 1, str =>
    if str.isEmpty then true
    else
      let j := (utf8ToWc wcharBits str).1
      if j < 0 then false else validateLoop wcharBits fuel (str.drop j.toNat)

def validateUtf8 (wcharBits : Nat) (str : Bytes) : Bool := validateLoop wcharBits str.length str

def utf8 : Bytes := str "utf-8"

/-- What the reader uses of the platform: the width of `wchar_t`, the lower case of a string, the
conversion from another encoding, and the replacement of what is not UTF-8. -/
structure Platform where
  wcharBits : Nat
  toLower : Bytes → Bytes
  toUtf8 : Bytes → Bytes → Bytes
  sanitizeUtf8 : Bytes → Bytes

end Dcpp.Text
