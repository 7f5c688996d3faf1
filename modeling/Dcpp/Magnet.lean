import Dcpp.DirectoryListing
import Dcpp.EncodeURI
import Dcpp.NoCaseString

-- Magnet links.
namespace Dcpp

open Util Text

/-- The loop of `strnicmp`, with the number of bytes that are still compared; both strings go up to the NUL behind them.
It is undefined to read behind that. -/
def Util.strnicmpLoop (l : Util.Locale) (a b : Bytes) (n : Nat) : Option Int :=
  if _h : a = [] ∨ b = [] then none
  else
    let ra := utf8ToWc l.wcharBits a
    let rb := utf8ToWc l.wcharBits b
    if n = 0 then some 0
    else if a.headD 0 = 0 ∨ l.toLower ra.2 ≠ l.toLower rb.2 then some ((l.toLower ra.2 : Int) - l.toLower rb.2)
    else strnicmpLoop l (a.drop ra.1.natAbs) (b.drop rb.1.natAbs) (n - ra.1.natAbs)
termination_by a.length
decreasing_by exact length_drop_utf8ToWc l.wcharBits fun ha => _h (Or.inl ha)

def Util.strnicmp (l : Util.Locale) (a b : Bytes) (n : Nat) : Option Int := strnicmpLoop l (a ++ [0]) (b ++ [0]) n

/-- What `parseUri` gives of a magnet. -/
structure Magnet where
  hash : Bytes
  name : Bytes
  key : Bytes
deriving DecidableEq

namespace Magnet

/-- What the loop of `parseUri` has: the hashes by their types, the name and the key. -/
structure Parsing where
  hashes : Bytes → Option Bytes
  name : Bytes
  key : Bytes

/-- Whether a parameter of the size begins like the text. -/
def isHash (l : Util.Locale) (param : Bytes) (size : Nat) (urn : String) : Bool :=
  param.length = size && strnicmp l param (str urn) (str urn).length = some 0

def Parsing.setHash (p : Parsing) (type hash : Bytes) : Parsing :=
  { p with hashes := Function.update p.hashes type (some hash) }

/-- Extracts what is of value of a pair. -/
def parsePair (l : Util.Locale) (toLower : Bytes → Bytes) (p : Parsing) (idx : Bytes) : Parsing :=
  let decode (s : Bytes) := (encodeURI s true).getD []
  let paired := byte '=' ∈ idx
  let type := decode (idx.takeWhile (· ≠ byte '='))
  let type := if paired then toLower type else type
  let param := if paired then decode ((idx.dropWhile (· ≠ byte '=')).drop 1) else []
  if isHash l param 85 "urn:bitprint:" then p.setHash type (param.drop 46)
  else if isHash l param 54 "urn:tree:tiger:" then p.setHash type (param.drop 15)
  else if isHash l param 55 "urn:tree:tiger/:" then p.setHash type (param.drop 16)
  else if isHash l param 59 "urn:tree:tiger/1024:" then p.setHash type (param.drop 20)
  else if isHash l type 2 "dn" then { p with name := param }
  else if isHash l type 2 "kt" then { p with key := param }
  else p

/-- The most authoritative of the hashes. -/
def Parsing.hash (p : Parsing) : Bytes :=
  ((p.hashes (str "xt")).or ((p.hashes (str "xs")).or (p.hashes (str "as")))).getD []

/-- `toLower` is that of `Text`. The magnet is `none` where there is neither a hash nor a key. -/
def parseUri (l : Util.Locale) (toLower : Bytes → Bytes) (uri : Bytes) : Option Magnet :=
  if strnicmp l uri (str "magnet:?") 8 ≠ some 0 then none
  else
    let p := (DirectoryListing.tokens (uri.drop 8) (byte '&')).foldl (parsePair l toLower) ⟨fun _ => none, [], []⟩
    if p.hash ≠ [] ∨ p.key ≠ [] then some ⟨p.hash, p.name, p.key⟩ else none

end Magnet

end Dcpp
