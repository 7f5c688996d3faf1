import Mathlib.Algebra.Group.Int.Defs
import Mathlib.Algebra.Group.Nat.Defs

namespace Dcpp

/-- The source's `string`. -/
abbrev Bytes := List UInt8

instance lawfulBEqBytes : LawfulBEq Bytes := inferInstance

/-- The character literals of the source. -/
def byte (c : Char) : UInt8 := c.toUInt8

/-- The string literals of the source. -/
def str (s : String) : Bytes := s.toList.map byte

/-- A literal by its characters; a proof that evaluates one rewrites with this first. -/
theorem str_ofList (cs : List Char) : str (String.ofList cs) = cs.map byte :=
  congrArg (List.map byte) String.toList_ofList

end Dcpp
