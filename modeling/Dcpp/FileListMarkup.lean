import Dcpp.Base32
import Dcpp.ShareList
import Dcpp.WrittenDocuments

-- The tags of the file lists that the share writes.
namespace Dcpp.ShareManager

open SimpleXML SimpleXMLReader

/-- The files that have been hashed; only these are listed. -/
def hashed (files : List File) : List (File × Encoder.HashValue) :=
  files.filterMap fun f => f.tth.map fun tth => (f, tth)

def fileAttribs (f : File × Encoder.HashValue) : StringPairList :=
  [(str "Name", f.1.name), (str "Size", Util.toString f.1.size.toInt), (str "TTH", f.2.toBase32)]

def filesMarkup (indent : Bytes) (files : List File) : Markup :=
  .leaves (crlf ++ indent) (str "File") fileAttribs (hashed files) .nil

/-- The directory is written with what is in it. -/
def Expands (level : Int) (d : DirectoryNode) (directories : List Directory) : Prop :=
  level < 0 ∨ level < maxLevel ∧ directories.length + d.files.length ≤ maxItemsPerLevel.getD level.toNat 0

instance (level : Int) (d : DirectoryNode) (directories : List Directory) : Decidable (Expands level d directories) :=
  inferInstanceAs (Decidable (_ ∨ _))

def nextLevel (level : Int) : Int := if level ≥ 0 then level + 1 else level

/-- The attributes of a directory that is written without what is in it. -/
def closedAttribs (d : DirectoryNode) (directories : List Directory) : StringPairList :=
  if directories.isEmpty && d.files.isEmpty then [(str "Name", d.name)]
  else [(str "Name", d.name), (str "Incomplete", str "1")]

mutual

def Directory.markup (indent : Bytes) (level : Int) (rest : Markup) : Directory → Markup
  | .node d directories =>
    if Expands level d directories then
      .element (crlf ++ indent) (str "Directory") [(str "Name", d.name)]
        (Directory.listMarkup (indent ++ [byte '\t']) (nextLevel level) (filesMarkup (indent ++ [byte '\t']) d.files)
          directories)
        (crlf ++ indent) rest
    else .simple (crlf ++ indent) (str "Directory") (closedAttribs d directories) true rest

def Directory.listMarkup (indent : Bytes) (level : Int) (rest : Markup) : List Directory → Markup
  | [] => rest
  | d :: directories => Directory.markup indent level (Directory.listMarkup indent level rest directories) d

end

theorem flatMap_fileToXml (indent : Bytes) (files : List File) :
    filesToXml indent files =
      (hashed files).flatMap fun f => indent ++ (tagText (str "File") (texts (fileAttribs f)) ++ str "/>") ++ crlf := by
  induction files with
  | nil => rfl
  | cons f files ih =>
    rw [filesToXml] at ih ⊢
    have hhashed : hashed (f :: files) = (f.tth.map fun tth => (f, tth)).toList ++ hashed files := by
      rw [hashed, List.filterMap_cons, hashed]
      cases f.tth <;> rfl
    rw [List.flatMap_cons, ih, hhashed, List.flatMap_append, fileToXml]
    congr 1
    cases f.tth with
    | none => rfl
    | some tth =>
      have hroot : escape tth.toBase32 true = tth.toBase32 := (plain_toBase32 tth.data).escape_eq
      rw [Option.map_some, Option.toList_some, List.flatMap_singleton]
      simp only [fileAttribs, texts, List.map_cons, List.map_nil, (plain_toString _).escape_eq, hroot]
      simp [tagText, attrText, str, crlf]

theorem text_filesMarkup (indent : Bytes) (files : List File) {t tail : Bytes} (h : t = crlf ++ tail) :
    (filesMarkup indent files).text ++ t = crlf ++ (filesToXml indent files ++ tail) := by
  rw [flatMap_fileToXml]
  exact text_leaves_lines indent (str "File") fileAttribs (hashed files) h

/-- The tags of a directory are its text, the end of a line being before each of them and not after it. -/
def WrittenAs (d : Directory) : Prop :=
  ∀ (indent : Bytes) (level : Int) (rest : Markup) (t tail : Bytes), rest.text ++ t = crlf ++ tail →
    (d.markup indent level rest).text ++ t = crlf ++ (d.toXml indent level ++ tail)

theorem text_listMarkup {directories : List Directory} (h : ∀ d ∈ directories, WrittenAs d) (indent : Bytes) (level : Int)
    (rest : Markup) (t tail : Bytes) (hrest : rest.text ++ t = crlf ++ tail) :
    (Directory.listMarkup indent level rest directories).text ++ t =
      crlf ++ (Directory.listToXml indent level directories ++ tail) := by
  induction directories with
  | nil => exact hrest
  | cons d directories ih =>
    rw [Directory.listMarkup, Directory.listToXml, List.append_assoc]
    exact h d List.mem_cons_self indent level _ t _ (ih fun d hd => h d (List.mem_cons_of_mem _ hd))

theorem toXml_node (indent : Bytes) (level : Int) (d : DirectoryNode) (directories : List Directory) :
    Directory.toXml indent level (.node d directories) = indent ++ str "<Directory Name=\"" ++ escape d.name true ++
      if Expands level d directories then
        str "\">\r\n" ++ Directory.listToXml (indent ++ [byte '\t']) (nextLevel level) directories ++
          filesToXml (indent ++ [byte '\t']) d.files ++ indent ++ str "</Directory>\r\n"
      else if directories.isEmpty && d.files.isEmpty then str "\" />\r\n"
      else str "\" Incomplete=\"1\" />\r\n" := by
  rw [Directory.toXml]
  rfl

theorem text_markup (d : Directory) : WrittenAs d := by
  induction d using Tree.induction with
  | h d directories ih =>
    intro indent level rest t tail hrest
    have hname : escape (str "1") true = str "1" := by decide
    rw [Directory.markup, toXml_node]
    by_cases hexpands : Expands level d directories
    next =>
      have hclose : crlf ++ indent ++ (str "</" ++ str "Directory" ++ [byte '>']) ++ (rest.text ++ t) =
          crlf ++ (indent ++ str "</Directory>\r\n" ++ tail) := by
        rw [hrest]
        simp [str, crlf]
      have hinside := text_listMarkup ih (indent ++ [byte '\t']) (nextLevel level) _ _ _
        (text_filesMarkup (indent ++ [byte '\t']) d.files hclose)
      have hopen : crlf ++ indent ++ str "<Directory Name=\"" ++ escape d.name true ++ str "\">\r\n" =
          crlf ++ indent ++ (tagText (str "Directory") (texts [(str "Name", d.name)]) ++ [byte '>']) ++ crlf := by
        simp [tagText, attrText, texts, str, crlf]
      rw [if_pos hexpands, if_pos hexpands, Markup.text]
      simp only [List.append_assoc] at hinside hopen ⊢
      rw [hinside, ← List.append_assoc (str "\">\r\n")]
      simp only [← List.append_assoc] at hopen ⊢
      rw [hopen]
    next =>
      rw [if_neg hexpands, if_neg hexpands, Markup.text, closedAttribs]
      split
      next =>
        have hline : indent ++ str "<Directory Name=\"" ++ escape d.name true ++ str "\" />\r\n" =
            indent ++ (tagText (str "Directory") (texts [(str "Name", d.name)]) ++ [byte ' '] ++ str "/>") ++ crlf := by
          simp [tagText, attrText, texts, str, crlf]
        rw [if_pos rfl, hline, List.append_assoc _ rest.text, hrest]
        simp only [List.append_assoc]
      next =>
        have hline : indent ++ str "<Directory Name=\"" ++ escape d.name true ++ str "\" Incomplete=\"1\" />\r\n" =
            indent ++ (tagText (str "Directory") (texts [(str "Name", d.name), (str "Incomplete", str "1")]) ++ [byte ' '] ++
              str "/>") ++ crlf := by
          simp only [texts, List.map_cons, List.map_nil, hname]
          simp [tagText, attrText, str, crlf]
        rw [if_pos rfl, hline, List.append_assoc _ rest.text, hrest]
        simp only [List.append_assoc]

/-- The attributes of the list itself. -/
def listingAttribs (cid : Encoder.HashValue) (dir : Bytes) : StringPairList :=
  [(str "Version", str "1"), (str "CID", cid.toBase32), (str "Base", dir), (str "Generator", str "BDC++ 0.8813")]

/-- The tags of a list, of which the base is `dir`. -/
def listingMarkup (cid : Encoder.HashValue) (dir indent : Bytes) (level : Int) (directories : List Directory)
    (files : List File) : Markup :=
  .element crlf (str "FileListing") (listingAttribs cid dir)
    (Directory.listMarkup indent level (filesMarkup indent files) directories) crlf .nil

theorem text_listingMarkup (cid : Encoder.HashValue) (dir indent : Bytes) (level : Int) (directories : List Directory)
    (files : List File) :
    utf8Header ++ fileListing cid dir ++ Directory.listToXml indent level directories ++ filesToXml indent files ++
        str "</FileListing>" =
      xmlDeclaration ++ (listingMarkup cid dir indent level directories files).text := by
  have hclose : crlf ++ (str "</" ++ str "FileListing" ++ [byte '>']) = crlf ++ str "</FileListing>" := by decide
  have hinside := @text_listMarkup directories (fun d _ => text_markup d) indent level _ _ _
    (text_filesMarkup indent files hclose)
  have hcid : escape cid.toBase32 true = cid.toBase32 := (plain_toBase32 cid.data).escape_eq
  have hversion : escape (str "1") true = str "1" := by decide
  have hgenerator : escape (str "BDC++ 0.8813") true = str "BDC++ 0.8813" := by decide
  have hopen : fileListing cid dir = tagText (str "FileListing") (texts (listingAttribs cid dir)) ++ [byte '>'] ++ crlf := by
    simp only [listingAttribs, texts, List.map_cons, List.map_nil, hcid, hversion, hgenerator]
    simp [fileListing, tagText, attrText, str, crlf]
  rw [listingMarkup, Markup.text, Markup.text, utf8Header_eq, hopen]
  simp only [List.append_assoc, List.append_nil] at hinside ⊢
  rw [hinside]

section Reading

/-- A name that can be read again. -/
structure Legible (wcharBits : Nat) (name : Bytes) : Prop where
  nonempty : name ≠ []
  utf8 : Text.validateUtf8 wcharBits name = true
  limit : name.length < MAX_VALUE_SIZE

/-- All names in a directory can be read again. -/
def Directory.LegibleIn (wcharBits : Nat) (d : Directory) : Prop :=
  d.All fun n _ => Legible wcharBits n.name ∧ ∀ f ∈ n.files, Legible wcharBits f.name

variable {wcharBits : Nat}

theorem mem_hashed {f : File × Encoder.HashValue} {files : List File} (h : f ∈ hashed files) : f.1 ∈ files := by
  obtain ⟨g, hg, hf⟩ := List.mem_filterMap.mp h
  obtain ⟨tth, _, rfl⟩ := Option.map_eq_some_iff.mp hf
  exact hg

theorem Legible.takes {name : Bytes} (h : Legible wcharBits name) : Takes wcharBits (str "Name", name) := by
  have hname : IsName (str "Name") := by decide
  exact ⟨hname, h.utf8, h.limit⟩

theorem takes_hash (wcharBits : Nat) {name : Bytes} (hname : IsName name) (h : Encoder.HashValue) :
    Takes wcharBits (name, h.toBase32) := takes_toBase32 wcharBits hname h.size.le

theorem takes_fileAttribs {f : File × Encoder.HashValue} (h : Legible wcharBits f.1.name) :
    ∀ a ∈ fileAttribs f, Takes wcharBits a := by
  have hmax : Int64.maxValue.toInt = 2 ^ 63 - 1 := by decide
  have hmin : Int64.minValue.toInt = -2 ^ 63 := by decide
  have hle := Int64.toInt_le f.1.size
  have hge := Int64.le_toInt f.1.size
  have hsize : Takes wcharBits (str "Size", Util.toString f.1.size.toInt) := takes_toString _ (by decide) (by omega)
  have htth : Takes wcharBits (str "TTH", f.2.toBase32) := takes_hash _ (by decide) _
  rw [fileAttribs]
  simp only [List.forall_mem_cons]
  exact ⟨h.takes, hsize, htth, fun _ h => absurd h List.not_mem_nil⟩

theorem readable_filesMarkup {indent : Bytes} (hindent : Space (crlf ++ indent)) {files : List File}
    (h : ∀ f ∈ files, Legible wcharBits f.name) : Readable wcharBits (filesMarkup indent files) :=
  readable_leaves hindent (by decide) (fun _ hf => takes_fileAttribs (h _ (mem_hashed hf))) .nil

theorem takes_closedAttribs {d : DirectoryNode} (h : Legible wcharBits d.name) (directories : List Directory) :
    (∀ a ∈ closedAttribs d directories, Takes wcharBits a) ∧ closedAttribs d directories ≠ [] := by
  have hincomplete : Takes wcharBits (str "Incomplete", str "1") :=
    ⟨by decide, validateUtf8_of_all _ (by decide), by decide⟩
  rw [closedAttribs]
  split
  next => exact ⟨List.forall_mem_cons.mpr ⟨h.takes, fun _ h => absurd h List.not_mem_nil⟩, List.cons_ne_nil _ _⟩
  next =>
    exact ⟨List.forall_mem_cons.mpr ⟨h.takes, List.forall_mem_cons.mpr ⟨hincomplete, fun _ h => absurd h List.not_mem_nil⟩⟩,
      List.cons_ne_nil _ _⟩

/-- An indent that still fits as many levels down. -/
structure Indents (n : Nat) (indent : Bytes) : Prop where
  spaces : ∀ c ∈ indent, isSpace c = true
  limit : indent.length + n + 3 ≤ MAX_VALUE_SIZE

theorem Indents.space {n : Nat} {indent : Bytes} (h : Indents n indent) : Space (crlf ++ indent) := by
  refine ⟨fun c hc => ?_, ?_⟩
  · obtain hc | hc := List.mem_append.mp hc
    · have hall : ∀ c ∈ crlf, isSpace c = true := List.all_eq_true.mp (by decide)
      exact hall c hc
    · exact h.spaces c hc
  · have hlimit := h.limit
    have hcrlf : crlf.length = 2 := rfl
    rw [List.length_append]
    omega

theorem Indents.next {m n : Nat} {indent : Bytes} (h : Indents n indent) (hlt : m < n) : Indents m (indent ++ [byte '\t']) := by
  refine ⟨fun c hc => ?_, ?_⟩
  · obtain hc | hc := List.mem_append.mp hc
    · exact h.spaces c hc
    · obtain rfl := List.mem_singleton.mp hc
      rfl
  · have hlimit := h.limit
    rw [List.length_append, List.length_singleton]
    omega

theorem Indents.mono {m n : Nat} {indent : Bytes} (h : Indents n indent) (hle : m ≤ n) : Indents m indent :=
  ⟨h.spaces, by have := h.limit; omega⟩

theorem readable_listMarkup {directories : List Directory}
    (h : ∀ d ∈ directories, ∀ (indent : Bytes) (level : Int) (rest : Markup), Indents d.depth indent →
      Readable wcharBits rest → Readable wcharBits (d.markup indent level rest))
    {indent : Bytes} (level : Int) {rest : Markup} (hindent : Indents (Tree.depths directories) indent)
    (hrest : Readable wcharBits rest) : Readable wcharBits (Directory.listMarkup indent level rest directories) := by
  induction directories with
  | nil => exact hrest
  | cons d directories ih =>
    rw [Directory.listMarkup]
    rw [Tree.depths] at hindent
    refine h d List.mem_cons_self indent level _ (hindent.mono (Nat.le_max_left _ _)) ?_
    exact ih (fun d hd => h d (List.mem_cons_of_mem _ hd)) (hindent.mono (Nat.le_max_right _ _))

theorem readable_markup {d : Directory} (h : d.LegibleIn wcharBits) (indent : Bytes) (level : Int) (rest : Markup)
    (hindent : Indents d.depth indent) (hrest : Readable wcharBits rest) :
    Readable wcharBits (d.markup indent level rest) := by
  induction d using Tree.induction generalizing indent level rest with
  | h d directories ih =>
    obtain ⟨⟨hname, hfiles⟩, hdirectories⟩ := h
    rw [Tree.depth] at hindent
    have hnext := hindent.next (Nat.lt_succ_self (Tree.depths directories))
    rw [Directory.markup]
    split
    next =>
      have hinside := readable_listMarkup (fun c hc indent level rest => ih c hc (hdirectories c hc) indent level rest)
        (nextLevel level) hnext (readable_filesMarkup hnext.space hfiles)
      exact .element hindent.space (by decide) (List.forall_mem_cons.mpr ⟨hname.takes, fun _ h => absurd h List.not_mem_nil⟩)
        hinside hindent.space hrest
    next =>
      obtain ⟨htakes, hne⟩ := takes_closedAttribs hname directories
      exact .simple hindent.space (by decide) htakes (fun _ => hne) hrest

theorem nesting_filesMarkup (indent : Bytes) (files : List File) : (filesMarkup indent files).nesting ≤ 1 :=
  Markup.nesting_leaves _ _ fileAttribs (hashed files) .nil

theorem nesting_listMarkup {directories : List Directory}
    (h : ∀ d ∈ directories, ∀ (indent : Bytes) (level : Int) (rest : Markup),
      (d.markup indent level rest).nesting ≤ max (d.depth + 1) rest.nesting)
    (indent : Bytes) (level : Int) (rest : Markup) :
    (Directory.listMarkup indent level rest directories).nesting ≤ max (Tree.depths directories + 1) rest.nesting := by
  induction directories with
  | nil => exact Nat.le_max_right _ _
  | cons d directories ih =>
    have hd := h d List.mem_cons_self indent level (Directory.listMarkup indent level rest directories)
    have hrest := ih fun d hd => h d (List.mem_cons_of_mem _ hd)
    rw [Directory.listMarkup, Tree.depths]
    omega

theorem nesting_markup (d : Directory) (indent : Bytes) (level : Int) (rest : Markup) :
    (d.markup indent level rest).nesting ≤ max (d.depth + 1) rest.nesting := by
  induction d using Tree.induction generalizing indent level rest with
  | h d directories ih =>
    have hinside := nesting_listMarkup ih (indent ++ [byte '\t']) (nextLevel level)
      (filesMarkup (indent ++ [byte '\t']) d.files)
    have hfiles := nesting_filesMarkup (indent ++ [byte '\t']) d.files
    rw [Directory.markup, Tree.depth]
    split
    next =>
      rw [Markup.nesting]
      omega
    next =>
      rw [Markup.nesting]
      omega

/-- A base that can be read again. -/
structure Base (wcharBits : Nat) (dir : Bytes) : Prop where
  utf8 : Text.validateUtf8 wcharBits dir = true
  limit : dir.length < MAX_VALUE_SIZE

theorem readable_listingMarkup (cid : Encoder.HashValue) {dir indent : Bytes} (hdir : Base wcharBits dir) (level : Int)
    {directories : List Directory} {files : List File} (hindent : Indents (Tree.depths directories) indent)
    (h : ∀ d ∈ directories, d.LegibleIn wcharBits) (hfiles : ∀ f ∈ files, Legible wcharBits f.name) :
    Readable wcharBits (listingMarkup cid dir indent level directories files) := by
  have hcrlf : Space crlf := ⟨List.all_eq_true.mp (by decide), by decide⟩
  have hversion : Takes wcharBits (str "Version", str "1") := ⟨by decide, validateUtf8_of_all _ (by decide), by decide⟩
  have hcid : Takes wcharBits (str "CID", cid.toBase32) := takes_hash _ (by decide) _
  have hbase : IsName (str "Base") := by decide
  have hgenerator : Takes wcharBits (str "Generator", str "BDC++ 0.8813") :=
    ⟨by decide, validateUtf8_of_all _ (by decide), by decide⟩
  have hattribs : ∀ a ∈ listingAttribs cid dir, Takes wcharBits a := by
    rw [listingAttribs]
    simp only [List.forall_mem_cons]
    exact ⟨hversion, hcid, ⟨hbase, hdir.utf8, hdir.limit⟩, hgenerator, fun _ h => absurd h List.not_mem_nil⟩
  have hinside := readable_listMarkup (fun d hd indent level rest => readable_markup (h d hd) indent level rest) level hindent
    (readable_filesMarkup hindent.space hfiles)
  exact .element hcrlf (by decide) hattribs hinside hcrlf .nil

theorem nesting_listingMarkup (cid : Encoder.HashValue) (dir indent : Bytes) (level : Int) (directories : List Directory)
    (files : List File) :
    (listingMarkup cid dir indent level directories files).nesting ≤ Tree.depths directories + 2 := by
  have hinside := @nesting_listMarkup directories (fun d _ => nesting_markup d) indent level (filesMarkup indent files)
  have hfiles := nesting_filesMarkup indent files
  rw [listingMarkup, Markup.nesting, Markup.nesting]
  omega

end Reading

end Dcpp.ShareManager
