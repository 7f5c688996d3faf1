import Dcpp.SimpleXML
import Dcpp.VirtualPath

namespace Dcpp.ShareManager

open Encoder SimpleXML

def maxLevel : Int := 2
def maxItemsPerLevel : List Nat := [16, 4]

def fileToXml (indent : Bytes) (f : File) : Bytes :=
  match f.tth with
  | none => []
  | some tth =>
    indent ++ str "<File Name=\"" ++ escape f.name true ++ str "\" Size=\"" ++ Util.toString f.size.toInt ++
      str "\" TTH=\"" ++ tth.toBase32 ++ str "\"/>\r\n"

def filesToXml (indent : Bytes) (files : List File) : Bytes := files.flatMap (fileToXml indent)

mutual

def Directory.toXml (indent : Bytes) (level : Int) : Directory → Bytes
  | .node d directories =>
    indent ++ str "<Directory Name=\"" ++ escape d.name true ++
      if level < 0 ∨ level < maxLevel ∧
          directories.length + d.files.length ≤ maxItemsPerLevel.getD level.toNat 0 then
        str "\">\r\n" ++
          Directory.listToXml (indent ++ [byte '\t']) (if level ≥ 0 then level + 1 else level) directories ++
          filesToXml (indent ++ [byte '\t']) d.files ++ indent ++ str "</Directory>\r\n"
      else if directories.isEmpty && d.files.isEmpty then str "\" />\r\n"
      else str "\" Incomplete=\"1\" />\r\n"

def Directory.listToXml (indent : Bytes) (level : Int) : List Directory → Bytes
  | [] => []
  | d :: directories => Directory.toXml indent level d ++ Directory.listToXml indent level directories

end

/-- The tag of the list; `cid` is the own one. -/
def fileListing (cid : Encoder.HashValue) (dir : Bytes) : Bytes :=
  str "<FileListing Version=\"1\" CID=\"" ++ cid.toBase32 ++ str "\" Base=\"" ++ escape dir true ++
    str "\" Generator=\"BDC++ 0.8813\">\r\n"

/-- What `generateXmlList` writes, before it is compressed. -/
def generateXmlList (cid : Encoder.HashValue) (directories : List Directory) : Bytes :=
  utf8Header ++ fileListing cid (str "/") ++ Directory.listToXml [] (-1) directories ++ str "</FileListing>"

/-- The names between the slashes; empty ones are skipped. -/
def pathNames (dir : Bytes) : List Bytes := (dir.splitOn (byte '/')).filter (· ≠ [])

/-- The directory that the loop over the names ends at; there is no value when a comparison is undefined. -/
def walk (l : Util.Locale) (bucket : Virtual.Buckets) : List Bytes → List Directory → Option (Option Directory)
  | [], _ => some none
  | [name], directories => Virtual.findDirectory l bucket name directories
  | name :: name' :: names, directories =>
    match Virtual.findDirectory l bucket name directories with
    | none => none
    | some none => some none
    | some (some d) => walk l bucket (name' :: names) d.children

/-- The list of a directory, before anything is compressed, or none when there is no such directory. -/
def generatePartialList (l : Util.Locale) (bucket : Virtual.Buckets) (cid : Encoder.HashValue) (dir : Bytes) (recurse : Bool)
    (directories : List Directory) : Option (Option Bytes) :=
  if dir.head? ≠ some (byte '/') ∨ dir.getLast? ≠ some (byte '/') then some none
  else
    let level := if recurse then -1 else 0
    let list (directories : List Directory) (files : List File) :=
      utf8Header ++ fileListing cid dir ++ Directory.listToXml (str "\t") level directories ++
        filesToXml (str "\t") files ++ str "</FileListing>"
    if dir = str "/" then some (some (list directories []))
    else (walk l bucket (pathNames dir) directories).map fun root => root.map fun root => list root.children root.label.files

end Dcpp.ShareManager
