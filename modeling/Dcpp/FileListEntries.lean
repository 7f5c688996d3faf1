import Dcpp.FileListMarkup
import Dcpp.ListContents

-- What the loader reads in a file list of the share.
namespace Dcpp.DirectoryListing

open SimpleXML SimpleXMLReader
open ShareManager (hashed filesMarkup fileAttribs Expands nextLevel closedAttribs)

/-- The tags without the text between them. -/
def tagsOf : Markup → Tags
  | .nil => .nil
  | .simple _ name attribs _ rest => .simple name attribs (tagsOf rest)
  | .element _ name attribs inside _ rest => .element name attribs (tagsOf inside) (tagsOf rest)

def isTag : CallBack → Bool
  | .data _ => false
  | _ => true

theorem filter_textCalls (w : Bytes) : (textCalls w).filter isTag = [] := by
  rw [textCalls]
  split <;> rfl

theorem filter_calls (m : Markup) : m.calls.filter isTag = (tagsOf m).calls := by
  induction m with
  | nil => rfl
  | simple lead name attribs spaced rest ih =>
    rw [Markup.calls, List.filter_append, List.filter_append, filter_textCalls, ih]
    rfl
  | element lead name attribs ins last rest ihi ihr =>
    rw [Markup.calls]
    simp only [List.filter_append, filter_textCalls, ihi, ihr]
    rw [tagsOf, Tags.calls]
    have hstart : [CallBack.startTag name attribs false].filter isTag = [.startTag name attribs false] := rfl
    have hend : [CallBack.endTag name].filter isTag = [.endTag name] := rfl
    rw [hstart, hend]
    simp

section

variable {less : Bytes → Bytes → Prop} [DecidableRel less]

/-- The loader does nothing with the text between the tags. -/
theorem ListLoader.calls_filter (l : ListLoader) (cs : List CallBack) : l.calls less (cs.filter isTag) = l.calls less cs := by
  induction cs generalizing l with
  | nil => rfl
  | cons c cs ih =>
    cases c with
    | data d =>
      rw [List.filter_cons_of_neg (by rw [isTag]; exact Bool.false_ne_true), ih]
      rfl
    | startTag name attribs simple =>
      rw [List.filter_cons_of_pos rfl, calls, calls]
      congr 1
      funext l
      exact ih l
    | endTag name =>
      rw [List.filter_cons_of_pos rfl, calls, calls]
      congr 1
      funext l
      exact ih l

theorem ListLoader.calls_tagsOf (l : ListLoader) (m : Markup) : l.calls less m.calls = l.calls less (tagsOf m).calls := by
  rw [← filter_calls, calls_filter]

end

def listedFile (f : ShareManager.File × Encoder.HashValue) : File := ⟨f.1.name, f.1.size, f.2⟩

/-- The files of a directory as they are listed. -/
def listedFiles (files : List ShareManager.File) : List File := (hashed files).map listedFile

def fileEntries (files : List ShareManager.File) : List Entry := (listedFiles files).map fun f => ([], .file f)

mutual

/-- The entries that a list has for a directory. -/
def entries (level : Int) : ShareManager.Directory → List Entry
  | .node d directories =>
    if Expands level d directories then
      ([], .directory d.name true) ::
        (listEntries (nextLevel level) directories ++ fileEntries d.files).map (under d.name)
    else [([], .directory d.name (directories.isEmpty && d.files.isEmpty))]

def listEntries (level : Int) : List ShareManager.Directory → List Entry
  | [] => []
  | d :: directories => entries level d ++ listEntries level directories

end

theorem toString_ne_nil (val : Int) : Util.toString val ≠ [] := by
  rw [Util.toString]
  split
  next => exact List.cons_ne_nil _ _
  next => exact Util.digits_ne_nil _

theorem toBase32_ne_nil (h : Encoder.HashValue) : h.toBase32 ≠ [] := by
  intro hnil
  have hlen := congrArg List.length hnil
  rw [Encoder.HashValue.toBase32, Encoder.length_toBase32, h.size] at hlen
  cases hlen

theorem fileOf_fileAttribs {f : ShareManager.File × Encoder.HashValue} (h : f.1.name ≠ []) :
    ListLoader.fileOf (fileAttribs f) = some (listedFile f) := by
  have hname : getAttrib (fileAttribs f) (str "Name") 0 = f.1.name := rfl
  have hsize : getAttrib (fileAttribs f) (str "Size") 1 = Util.toString f.1.size.toInt := rfl
  have htth : getAttrib (fileAttribs f) (str "TTH") 2 = f.2.toBase32 := rfl
  have hnumber : Util.toInt64 (Util.toString f.1.size.toInt) = f.1.size.toInt :=
    Util.toInt64_toString (Int64.le_toInt f.1.size) (Int64.toInt_le f.1.size)
  rw [ListLoader.fileOf, hname, hsize, htth, if_neg fun hnil => hnil.elim h fun hnil => hnil.elim (toString_ne_nil _) (toBase32_ne_nil _), hnumber,
    Int64.ofInt_toInt, Encoder.ofBase32_toBase32]
  rfl

theorem andRead_true (es : List Entry) (y : List Entry × Bool) : andRead (es, true) y = (es ++ y.1, y.2) := if_pos rfl

theorem read_filesMarkup (indent : Bytes) {files : List ShareManager.File} (h : ∀ f ∈ files, f.name ≠ []) :
    (tagsOf (filesMarkup indent files)).read = (fileEntries files, true) := by
  have hhashed : ∀ f ∈ hashed files, f.1.name ≠ [] := fun f hf => h f.1 (ShareManager.mem_hashed hf)
  rw [filesMarkup, fileEntries, listedFiles]
  generalize hashed files = l at hhashed
  induction l with
  | nil => rfl
  | cons f l ih =>
    obtain ⟨hf, hl⟩ := List.forall_mem_cons.mp hhashed
    have hitems : itemsOf (str "File") (fileAttribs f) = ([([], .file (listedFile f))], true) := by
      rw [itemsOf, if_pos rfl, fileOf_fileAttribs hf]
      rfl
    rw [Markup.leaves, List.foldr_cons, ← Markup.leaves, tagsOf, Tags.read, hitems, ih hl, andRead_true]
    rfl

/-- What is read of a directory, and of what comes after it. -/
def ReadAs (d : ShareManager.Directory) : Prop :=
  ∀ (indent : Bytes) (level : Int) (rest : Markup), (tagsOf (d.markup indent level rest)).read =
    (entries level d ++ (tagsOf rest).read.1, (tagsOf rest).read.2)

theorem read_listMarkup {directories : List ShareManager.Directory} (h : ∀ d ∈ directories, ReadAs d) (indent : Bytes)
    (level : Int) (rest : Markup) :
    (tagsOf (ShareManager.Directory.listMarkup indent level rest directories)).read =
      (listEntries level directories ++ (tagsOf rest).read.1, (tagsOf rest).read.2) := by
  induction directories with
  | nil => rfl
  | cons d directories ih =>
    rw [ShareManager.Directory.listMarkup, listEntries, h d List.mem_cons_self, ih fun d hd => h d (List.mem_cons_of_mem _ hd),
      List.append_assoc]

/-- All names are such that the loader takes them. -/
def AllNamed (d : ShareManager.Directory) : Prop := d.All fun n _ => n.name ≠ [] ∧ ∀ f ∈ n.files, f.name ≠ []

theorem itemsOf_directory {attribs : StringPairList} (h : ListLoader.nameOf attribs ≠ []) :
    itemsOf (str "Directory") attribs =
      ([([], .directory (ListLoader.nameOf attribs) (ListLoader.completeOf attribs))], true) := by
  rw [itemsOf, if_neg ListLoader.str_file_ne_directory.symm, if_pos rfl, if_neg h]

theorem read_markup {d : ShareManager.Directory} (h : AllNamed d) : ReadAs d := by
  induction d using Tree.induction with
  | h d directories ih =>
    obtain ⟨⟨hname, hfiles⟩, hdirectories⟩ := h
    intro indent level rest
    rw [ShareManager.Directory.markup, entries]
    by_cases hexpands : Expands level d directories
    · have hattribs : ListLoader.nameOf [(str "Name", d.name)] = d.name := rfl
      have hinside := read_listMarkup (fun c hc => ih c hc (hdirectories c hc)) (indent ++ [byte '\t']) (nextLevel level)
        (filesMarkup (indent ++ [byte '\t']) d.files)
      rw [read_filesMarkup _ hfiles] at hinside
      rw [if_pos hexpands, if_pos hexpands, tagsOf, Tags.read, itemsOf_directory (by rw [hattribs]; exact hname),
        hinside, inside, if_pos rfl, andRead_true, andRead_true]
      rfl
    · have hattribs : ListLoader.nameOf (closedAttribs d directories) = d.name ∧
          ListLoader.completeOf (closedAttribs d directories) = (directories.isEmpty && d.files.isEmpty) := by
        rw [closedAttribs]
        cases directories.isEmpty && d.files.isEmpty <;> exact ⟨rfl, rfl⟩
      rw [if_neg hexpands, if_neg hexpands, tagsOf, Tags.read, itemsOf_directory (by rw [hattribs.1]; exact hname),
        hattribs.1, hattribs.2, andRead_true]

theorem listings_filesMarkup (indent : Bytes) (files : List ShareManager.File) :
    (tagsOf (filesMarkup indent files)).listings = [] := by
  have hne : str "File" ≠ str "FileListing" := by decide
  rw [filesMarkup]
  induction hashed files with
  | nil => rfl
  | cons f l ih => rw [Markup.leaves, List.foldr_cons, ← Markup.leaves, tagsOf, Tags.listings, if_neg hne, ih, List.nil_append]

theorem listings_listMarkup {directories : List ShareManager.Directory}
    (h : ∀ d ∈ directories, ∀ (indent : Bytes) (level : Int) (rest : Markup),
      (tagsOf (d.markup indent level rest)).listings = (tagsOf rest).listings)
    (indent : Bytes) (level : Int) (rest : Markup) :
    (tagsOf (ShareManager.Directory.listMarkup indent level rest directories)).listings = (tagsOf rest).listings := by
  induction directories with
  | nil => rfl
  | cons d directories ih =>
    rw [ShareManager.Directory.listMarkup, h d List.mem_cons_self]
    exact ih fun d hd => h d (List.mem_cons_of_mem _ hd)

theorem listings_markup (d : ShareManager.Directory) (indent : Bytes) (level : Int) (rest : Markup) :
    (tagsOf (d.markup indent level rest)).listings = (tagsOf rest).listings := by
  induction d using Tree.induction generalizing indent level rest with
  | h d directories ih =>
    rw [ShareManager.Directory.markup]
    split
    next =>
      rw [tagsOf, Tags.listings, if_neg ListLoader.str_directory_ne_fileListing, listings_listMarkup ih,
        listings_filesMarkup, List.nil_append, List.nil_append]
    next => rw [tagsOf, Tags.listings, if_neg ListLoader.str_directory_ne_fileListing, List.nil_append]

/-- What is in the list itself. -/
def contentOf (indent : Bytes) (level : Int) (directories : List ShareManager.Directory) (files : List ShareManager.File) :
    Tags :=
  tagsOf (ShareManager.Directory.listMarkup indent level (filesMarkup indent files) directories)

theorem listings_listingMarkup (cid : Encoder.HashValue) (dir indent : Bytes) (level : Int)
    (directories : List ShareManager.Directory) (files : List ShareManager.File) :
    (tagsOf (ShareManager.listingMarkup cid dir indent level directories files)).listings =
      [(ShareManager.listingAttribs cid dir, contentOf indent level directories files)] := by
  rw [ShareManager.listingMarkup, tagsOf, tagsOf, Tags.listings, if_pos rfl,
    listings_listMarkup fun d _ => listings_markup d, listings_filesMarkup]
  rfl

theorem read_contentOf (indent : Bytes) (level : Int) {directories : List ShareManager.Directory}
    {files : List ShareManager.File} (h : ∀ d ∈ directories, AllNamed d) (hfiles : ∀ f ∈ files, f.name ≠ []) :
    (contentOf indent level directories files).read = (listEntries level directories ++ fileEntries files, true) := by
  rw [contentOf, read_listMarkup fun d hd => read_markup (h d hd), read_filesMarkup indent hfiles]

end Dcpp.DirectoryListing
