import Dcpp.ShareIndex
import Dcpp.StringSearch

-- The searches in the share.
namespace Dcpp.ShareManager

open Directory

namespace SearchManager

inductive SizeModes where
  | SIZE_DONTCARE
  | SIZE_ATLEAST
  | SIZE_ATMOST
deriving DecidableEq

inductive TypeModes where
  | TYPE_ANY
  | TYPE_AUDIO
  | TYPE_COMPRESSED
  | TYPE_DOCUMENT
  | TYPE_EXECUTABLE
  | TYPE_PICTURE
  | TYPE_VIDEO
  | TYPE_DIRECTORY
  | TYPE_TTH
deriving DecidableEq

end SearchManager

/-- The types of results. -/
inductive Types where
  | TYPE_FILE
  | TYPE_DIRECTORY
deriving DecidableEq

structure SearchResult where
  type : Types
  size : Int64
  file : Bytes
  tth : Encoder.HashValue
deriving DecidableEq

structure SearchQuery where
  includeInit : List StringSearch
  exclude : List StringSearch
  ext : List Bytes
  noExt : List Bytes
  gt : Int64
  lt : Int64
  root : Option Encoder.HashValue
  isDirectory : Bool
deriving DecidableEq

def searchExts : List (List Bytes) :=
  [["ape", "flac", "m4a", "mid", "mp3", "mpc", "ogg", "ra", "wav", "wma"],
    ["7z", "ace", "arj", "bz2", "gz", "lha", "lzh", "rar", "tar", "z", "zip"],
    ["doc", "docx", "htm", "html", "nfo", "odf", "odp", "ods", "odt", "pdf", "ppt", "pptx", "rtf", "txt", "xls", "xlsx",
      "xml", "xps"],
    ["app", "bat", "cmd", "com", "dll", "exe", "jar", "msi", "ps1", "vbs", "wsf"],
    ["bmp", "cdr", "eps", "gif", "ico", "img", "jpeg", "jpg", "png", "ps", "psd", "sfw", "tga", "tif", "webp"],
    ["3gp", "asf", "asx", "avi", "divx", "flv", "mkv", "mov", "mp4", "mpeg", "mpg", "ogm", "pxp", "qt", "rm", "rmvb",
      "swf", "vob", "webm", "wmv"]].map (List.map str)

/-- The later groups come first. -/
def parseSearchExts (flag : Int) : List Bytes :=
  (searchExts.mapIdx fun i exts => if flag / 2 ^ i % 2 = 1 then exts else []).reverse.flatten

variable (p : Platform)

namespace SearchQuery

def empty : SearchQuery := ⟨[], [], [], [], 0, Int64.ofInt (2 ^ 63 - 1), none, false⟩

def adcParam (q : SearchQuery) (param : Bytes) : SearchQuery :=
  let cmd := param.take 2
  let value := param.drop 2
  if cmd = str "AN" then { q with includeInit := q.includeInit ++ [StringSearch.new p.toLower value] }
  else if cmd = str "NO" then { q with exclude := q.exclude ++ [StringSearch.new p.toLower value] }
  else if cmd = str "EX" then { q with ext := q.ext ++ [p.toLower value] }
  else if cmd = str "GR" then { q with ext := parseSearchExts (Util.toInt value) ++ q.ext }
  else if cmd = str "RX" then { q with noExt := q.noExt ++ [p.toLower value] }
  else if cmd = str "GE" then { q with gt := Int64.ofInt (Util.toInt64 value) }
  else if cmd = str "LE" then { q with lt := Int64.ofInt (Util.toInt64 value) }
  else if cmd = str "EQ" then
    { q with lt := Int64.ofInt (Util.toInt64 value), gt := Int64.ofInt (Util.toInt64 value) }
  else if cmd = str "TY" then { q with isDirectory := value.head? = some (byte '2') }
  else q

/-- The query of an ADC search; a root ends it. -/
def ofAdc : SearchQuery → List Bytes → SearchQuery
  | q, [] => q
  | q, param :: adcParams =>
    if param.length ≤ 2 then ofAdc q adcParams
    else if param.take 2 = str "TR" then { q with root := some (Encoder.HashValue.ofBase32 (param.drop 2)) }
    else ofAdc (adcParam p q param) adcParams

/-- The tokens of a string; an empty one is left out at its end. -/
def tokens (c : UInt8) (s : Bytes) : List Bytes :=
  let all := s.splitOn c
  if all.getLast? = some [] then all.dropLast else all

/-- The query of a search in the older protocol. -/
def ofNmdc (nmdcString : Bytes) (searchType : SearchManager.SizeModes) (size : Int64)
    (fileType : SearchManager.TypeModes) : SearchQuery :=
  if fileType = .TYPE_TTH ∧ nmdcString.take 4 = str "TTH:" then
    { empty with root := some (Encoder.HashValue.ofBase32 (nmdcString.drop 4)) }
  else
    { empty with
      includeInit :=
        ((tokens (byte '$') (p.toLower nmdcString)).filter (· ≠ [])).map (StringSearch.new p.toLower)
      gt := if searchType = .SIZE_ATLEAST then size else empty.gt
      lt := if searchType = .SIZE_ATMOST then size else empty.lt
      ext :=
        match fileType with
        | SearchManager.TypeModes.TYPE_AUDIO => parseSearchExts (2 ^ 0)
        | .TYPE_COMPRESSED => parseSearchExts (2 ^ 1)
        | .TYPE_DOCUMENT => parseSearchExts (2 ^ 2)
        | .TYPE_EXECUTABLE => parseSearchExts (2 ^ 3)
        | .TYPE_PICTURE => parseSearchExts (2 ^ 4)
        | .TYPE_VIDEO => parseSearchExts (2 ^ 5)
        | _ => []
      isDirectory := fileType = .TYPE_DIRECTORY }

def isExcluded (q : SearchQuery) (s : Bytes) : Bool := q.exclude.any fun i => i.match p.toLower s

/-- `set_difference`, of sorted lists. -/
def setDifference : List Bytes → List Bytes → List Bytes
  | [], _ => []
  | as, [] => as
  | a :: as, b :: bs =>
    if a < b then a :: setDifference as (b :: bs)
    else if b < a then setDifference (a :: as) bs
    else setDifference as bs
termination_by as bs => as.length + bs.length

/-- The first name takes out the extensions that are not wanted. -/
def hasExt (q : SearchQuery) (name : Bytes) : Bool × SearchQuery :=
  if q.ext = [] then (true, q)
  else
    let q := if q.noExt = [] then q else { q with ext := setDifference q.ext q.noExt, noExt := [] }
    let fileExt := getExt name
    (fileExt ≠ [] ∧ p.toLower (fileExt.drop 1) ∈ q.ext, q)

end SearchQuery

namespace Directory

mutual

def getSize : Directory → Int64
  | .node d directories => d.size + getSizes directories

def getSizes : List Directory → Int64
  | [] => 0
  | d :: directories => getSize d + getSizes directories

end

/-- The terms that are left below a directory. -/
def newTerms (incl : List StringSearch) (name : Bytes) : List StringSearch :=
  incl.foldl (fun terms term => if term.match p.toLower name then terms.filter (· ≠ term) else terms) incl

/-- Whether a file is a result, with the query as it is then. -/
def matchFile (incl : List StringSearch) (query : SearchQuery) (i : File) : Option Encoder.HashValue × SearchQuery :=
  match i.tth with
  | none => (none, query)
  | some tth =>
    if ¬i.size ≥ query.gt then (none, query)
    else if ¬i.size ≤ query.lt then (none, query)
    else if query.isExcluded p i.name then (none, query)
    else if !incl.all fun j => j.match p.toLower i.name then (none, query)
    else
      let r := query.hasExt p i.name
      (if r.1 then some tth else none, r.2)

/-- The loop over the files; the last component says that it has ended the search. -/
def searchFiles (maxResults : Nat) (fullName : Bytes) (incl : List StringSearch) :
    List SearchResult → SearchQuery → List File → List SearchResult × SearchQuery × Bool
  | results, query, [] => (results, query, false)
  | results, query, i :: files =>
    match matchFile p incl query i with
    | (none, query) => searchFiles maxResults fullName incl results query files
    | (some tth, query) =>
      let results := results ++ [⟨.TYPE_FILE, i.size, fullName ++ i.name, tth⟩]
      if results.length ≥ maxResults then (results, query, true)
      else searchFiles maxResults fullName incl results query files

mutual

/-- `parent` is the full name of the parent, and `incl` are the terms that are left above. -/
def search (maxResults : Nat) (parent : Bytes) (incl : List StringSearch) (results : List SearchResult)
    (query : SearchQuery) : Directory → List SearchResult × SearchQuery
  | .node d directories =>
    if query.isExcluded p d.name then (results, query)
    else
      let incl := newTerms p incl d.name
      let fullName := parent ++ d.name ++ [byte '\\']
      let results :=
        if incl = [] ∧ query.ext = [] ∧ query.gt = 0 then
          results ++ [⟨.TYPE_DIRECTORY, getSize (.node d directories), fullName,
            Encoder.HashValue.ofBase32 (List.replicate 39 (byte 'A'))⟩]
        else results
      let r :=
        if query.isDirectory then (results, query, false)
        else searchFiles p maxResults fullName incl results query d.files
      if r.2.2 then (r.1, r.2.1) else searchDirectories maxResults fullName incl r.1 r.2.1 directories

def searchDirectories (maxResults : Nat) (parent : Bytes) (incl : List StringSearch) (results : List SearchResult)
    (query : SearchQuery) : List Directory → List SearchResult × SearchQuery
  | [] => (results, query)
  | d :: directories =>
    let r := search maxResults parent incl results query d
    if r.1.length ≥ maxResults then r else searchDirectories maxResults parent incl r.1 r.2 directories

end

mutual

/-- The files with their full names. -/
def fullNames (parent : Bytes) : Directory → List (File × Bytes)
  | .node d directories =>
    fullNamesOf (parent ++ d.name ++ [byte '\\']) directories ++
      d.files.map fun f => (f, parent ++ d.name ++ [byte '\\'] ++ f.name)

def fullNamesOf (parent : Bytes) : List Directory → List (File × Bytes)
  | [] => []
  | d :: directories => fullNames parent d ++ fullNamesOf parent directories

end

end Directory

/-- `search`, with a test that the terms have to pass first. -/
def searchWith (test : Bytes → Bool) (s : Share) (query : SearchQuery) (maxResults : Nat) : List SearchResult :=
  match query.root with
  | some root =>
    (((lookup s.indices.tthIndex root).bind fun id => (fullNamesOf [] s.directories).find? fun i => i.1.id = id).bind
      fun i => i.1.tth.map fun tth => ⟨.TYPE_FILE, i.1.size, i.2, tth⟩).toList
  | none =>
    if query.includeInit.all fun i => test i.pattern then
      (searchDirectories p maxResults [] query.includeInit [] query s.directories).1
    else []

def search (s : Share) : SearchQuery → Nat → List SearchResult := searchWith p (s.indices.bloom.match BLOOM) s

end Dcpp.ShareManager
