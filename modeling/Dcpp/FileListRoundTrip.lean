import Dcpp.FileListEntries

-- The listing that is loaded from the file list of the share.
namespace Dcpp.DirectoryListing

open SimpleXML SimpleXMLReader OrderedTree OrderedSet
open ShareManager (hashed)

/-- A directory of a listing that has what one of the share has; only the order may be another one. -/
inductive Mirrors : ShareManager.Directory → Directory → Prop where
  | node {d : ShareManager.DirectoryNode} {directories : List ShareManager.Directory} {files : List File}
    {ts children : List Directory} : files.Perm (listedFiles d.files) → List.Forall₂ Mirrors directories ts →
    children.Perm ts → Mirrors (.node d directories) (.node ⟨d.name, true, files⟩ children)

theorem Mirrors.name {d : ShareManager.Directory} {t : Directory} (h : Mirrors d t) : t.label.name = d.label.name := by
  cases h
  rfl

section Returning

variable {less : Bytes → Bytes → Prop} [DecidableRel less]

namespace ListLoader

/-- What is read is taken, if none of it is there yet. -/
def Takes (less : Bytes → Bytes → Prop) [DecidableRel less] (l : ListLoader) (x : List Entry × Bool)
    (r : Outcome ListLoader) : Prop := x.2 = true → Fresh less x.1 l.place.cur → ∃ l', r = .returned l'

theorem Takes.andThen {l : ListLoader} {x y : List Entry × Bool} {r : Outcome ListLoader}
    {f : ListLoader → Outcome ListLoader} (hreads : Reads less l x r) (h : Takes less l x r)
    (hf : Takes less (l.withCur (addAll less x.1 l.place.cur)) y (f (l.withCur (addAll less x.1 l.place.cur)))) :
    Takes less l (andRead x y) (r.andThen f) := by
  intro hall hfresh
  obtain ⟨hx, hy, heq⟩ := Tags.andRead_all hall
  rw [heq, fresh_append] at hfresh
  obtain ⟨l', hr⟩ := h hx hfresh.1
  rw [hr] at hreads ⊢
  obtain ⟨_, rfl, _⟩ := hreads
  rw [Outcome.andThen_returned]
  exact hf hy hfresh.2

theorem startFile_takes (l : ListLoader) (attribs : StringPairList) :
    Takes less l (itemsOf (str "File") attribs) (l.startFile less attribs) := by
  intro _ hfresh
  rw [itemsOf, if_pos rfl] at hfresh
  rw [startFile]
  cases hf : fileOf attribs with
  | none => exact ⟨l, rfl⟩
  | some f =>
    rw [hf] at hfresh
    obtain ⟨habsent, _⟩ := hfresh
    have hfind : OrderedSet.find less File.name f.name l.place.cur.label.files = none := habsent _ rfl
    change ∃ l', l.insertFile less f = .returned l'
    rw [insertFile, hfind]
    exact ⟨_, rfl⟩

variable [IsStrictWeakOrder Bytes less]

theorem fresh_of_under {name : Bytes} {es : List Entry} {g : Directory → Directory}
    (hg : ∀ d, (g d).label.name = d.label.name) {d : Directory}
    (h : Fresh less (es.map (under name)) (alterAt less DirectoryNode.name newNode g [name] d)) :
    Fresh less es (g ((child less DirectoryNode.name name d).getD (.node (newNode name) []))) := by
  induction es generalizing g with
  | nil => trivial
  | cons e es ih =>
    obtain ⟨habsent, hfresh⟩ := h
    have hname : ∀ d, (add less (g d) e).label.name = d.label.name := fun d => (name_addAll [e] (g d)).trans (hg d)
    refine ⟨?_, ?_⟩
    · obtain ⟨p, i⟩ := e
      cases i with
      | file f =>
        intro n hn
        refine habsent n ?_
        rw [labelAt, look_under name p hg d]
        exact hn
      | directory n c => exact (look_under name (p ++ [n]) hg d).symm.trans habsent
    · have hadd : add less (alterAt less DirectoryNode.name newNode g [name] d) (under name e) =
          alterAt less DirectoryNode.name newNode (fun d => add less (g d) e) [name] d := addAll_under name [e] hg d
      exact ih hname (hadd ▸ hfresh)

section

variable (l : ListLoader) (hlive : l.abort = false) (hin : l.inListing = true)

include hin in
theorem insertDirectory_takes {name : Bytes} {complete : Bool} {es : List Entry} {all : Bool}
    {f : ListLoader → Outcome ListLoader}
    (hreads : ∀ l' : ListLoader, l'.inListing = true → l'.abort = l.abort → Reads less l' (es, all) (f l'))
    (hf : ∀ l' : ListLoader, l'.inListing = true → l'.abort = l.abort → Takes less l' (es, all) (f l')) :
    Takes less l (andRead ([([], .directory name complete)], true) (es.map (under name), all))
      ((l.insertDirectory less name complete).andThen fun l =>
        (f l).andThen fun l => l.endTag (str "Directory")) := by
  intro hall hfresh
  obtain ⟨_, hes, heq⟩ := Tags.andRead_all hall
  rw [heq] at hfresh
  obtain ⟨habsent, hfresh⟩ := hfresh
  have hnone : child less DirectoryNode.name name l.place.cur = none := by
    have hlook : (child less DirectoryNode.name name l.place.cur).bind (look less DirectoryNode.name []) = none := habsent
    cases hc : child less DirectoryNode.name name l.place.cur with
    | none => rfl
    | some c =>
      rw [hc] at hlook
      cases hlook
  have hfind : l.place.find less name = none := hnone
  have hfresh' := @fresh_of_under less _ _ name es (completed complete) (fun _ => rfl) l.place.cur hfresh
  rw [hnone, Option.getD_none] at hfresh'
  have hinsert : l.insertDirectory less name complete = .returned { l with
      place := l.place.enter less name (completed complete (.node (newNode name) [])) } := by
    rw [insertDirectory_eq, hfind, if_neg fun h => absurd h.1 Bool.false_ne_true, Option.getD_none]
  rw [hinsert, Outcome.andThen_returned]
  generalize hnew : ({ l with place := l.place.enter less name (completed complete (.node (newNode name) [])) } : ListLoader) = l₁
  obtain ⟨hin₁, hlive₁, hfresh₁⟩ : l₁.inListing = true ∧ l₁.abort = l.abort ∧ Fresh less es l₁.place.cur := by
    subst hnew
    exact ⟨hin, rfl, hfresh'⟩
  obtain ⟨parent, hparents⟩ : ∃ parent, l₁.place.parents = parent :: l.place.parents := by
    subst hnew
    exact ⟨_, rfl⟩
  obtain ⟨l', hl'⟩ := hf l₁ hin₁ hlive₁ hes hfresh₁
  have hr := hreads l₁ hin₁ hlive₁
  rw [hl'] at hr ⊢
  obtain ⟨_, rfl, _⟩ := hr
  have hin' : (l₁.withCur (addAll less es l₁.place.cur)).inListing = true := hin₁
  rw [Outcome.andThen_returned, endTag, if_pos hin', if_pos rfl, Place.leave, withCur, hparents]
  exact ⟨_, rfl⟩

include hlive hin

theorem startTag_simple_takes (name : Bytes) (attribs : StringPairList) :
    Takes less l (itemsOf name attribs) (l.startTag less name attribs true) := by
  rw [startTag, if_neg (by rw [hlive]; exact Bool.false_ne_true), if_pos hin]
  by_cases hfile : name = str "File"
  · rw [if_pos hfile, hfile]
    exact startFile_takes l attribs
  · rw [if_neg hfile, itemsOf, if_neg hfile]
    by_cases hd : name = str "Directory"
    · rw [if_pos hd, if_pos hd, hd, startDirectory]
      by_cases hn : nameOf attribs = []
      · rw [if_pos hn]
        exact fun h => by cases h
      · rw [if_neg hn, if_neg hn]
        exact insertDirectory_takes l hin (f := .returned) (fun l' _ _ => reads_nil l') fun l' _ _ _ _ => ⟨l', rfl⟩
    · rw [if_neg hd, if_neg hd]
      exact fun _ _ => ⟨l, rfl⟩

theorem element_takes (name : Bytes) (hname : name ≠ str "FileListing") (attribs : StringPairList)
    {x : List Entry × Bool} {f : ListLoader → Outcome ListLoader}
    (hreads : ∀ l' : ListLoader, l'.abort = false → l'.inListing = true → Reads less l' x (f l'))
    (hf : ∀ l' : ListLoader, l'.abort = false → l'.inListing = true → Takes less l' x (f l')) :
    Takes less l (andRead (itemsOf name attribs) (inside name attribs x.1, x.2))
      ((l.startTag less name attribs false).andThen fun l => (f l).andThen fun l => l.endTag name) := by
  rw [startTag, if_neg (by rw [hlive]; exact Bool.false_ne_true), if_pos hin, inside]
  by_cases hd : name = str "Directory"
  · have hfile : name ≠ str "File" := fun h => str_file_ne_directory (h.symm.trans hd)
    rw [if_neg hfile, if_pos hd, if_pos hd, itemsOf, if_neg hfile, if_pos hd, hd, startDirectory]
    by_cases hn : nameOf attribs = []
    · rw [if_pos hn, if_pos hn]
      exact fun h => by cases h
    · have hstart : ((l.insertDirectory less (nameOf attribs) (completeOf attribs)).andThen fun l =>
          if false = true then l.endTag (str "Directory") else .returned l) =
          l.insertDirectory less (nameOf attribs) (completeOf attribs) := andThen_of_returned fun _ => rfl
      rw [if_neg hn, if_neg hn, hstart]
      exact insertDirectory_takes l hin (fun l' hin' hlive' => hreads l' (hlive'.trans hlive) hin') fun l' hin' hlive' =>
        hf l' (hlive'.trans hlive) hin'
  · rw [if_neg hd, if_neg hd]
    have hend : ∀ l, (f l).andThen (fun l => l.endTag name) = f l := fun l => andThen_of_returned (endTag_other hd hname)
    simp only [hend]
    by_cases hfile : name = str "File"
    · rw [if_pos hfile, hfile]
      exact Takes.andThen (startFile_reads l attribs) (startFile_takes l attribs) (hf _ hlive hin)
    · rw [if_neg hfile, itemsOf, if_neg hfile, if_neg hd]
      exact Takes.andThen (reads_nil l) (fun _ _ => ⟨l, rfl⟩) (hf l hlive hin)

/-- The loader takes tags that say nothing twice. -/
theorem calls_takes (tags : Tags) (hno : tags.listings = []) : Takes less l tags.read (l.calls less tags.calls) := by
  induction tags generalizing l with
  | nil => exact fun _ _ => ⟨l, rfl⟩
  | simple name attribs rest ih =>
    obtain ⟨_, hrest⟩ := List.append_eq_nil_iff.mp hno
    exact Takes.andThen (startTag_simple_reads l hlive hin name attribs) (startTag_simple_takes l hlive hin name attribs)
      (ih _ hlive hin hrest)
  | element name attribs ins rest ihi ihr =>
    obtain ⟨hown, hno⟩ := List.append_eq_nil_iff.mp hno
    obtain ⟨hins, hrest⟩ := List.append_eq_nil_iff.mp hno
    have hname : name ≠ str "FileListing" := fun h => by
      rw [if_pos h] at hown
      cases hown
    have hcalls : l.calls less (Tags.element name attribs ins rest).calls =
        ((l.startTag less name attribs false).andThen fun l =>
          (l.calls less ins.calls).andThen fun l => l.endTag name).andThen fun l => l.calls less rest.calls := by
      rw [Tags.calls, calls, andThen_assoc]
      simp only [calls_append, andThen_assoc]
      rfl
    rw [hcalls]
    exact Takes.andThen (element_reads l hlive hin name hname attribs fun l' hlive' hin' => calls_reads l' hlive' hin' ins hins)
      (element_takes l hlive hin name hname attribs (fun l' hlive' hin' => calls_reads l' hlive' hin' ins hins)
        fun l' hlive' hin' => ihi l' hlive' hin' hins)
      (ihr _ hlive hin hrest)

end

/-- A document with one list that says nothing twice is loaded. -/
theorem calls_loaded {l : ListLoader} {tags : Tags} {attribs : StringPairList} {ins : Tags}
    (hone : tags.listings = [(attribs, ins)]) (hout : l.inListing = false) (hlive : l.abort = false)
    (hall : ins.read.2 = true) (hfresh : Fresh less ins.read.1 (l.enterListing less attribs).place.cur) :
    l.calls less tags.calls = .returned (l.loaded less attribs ins.read.1) := by
  have hin : (l.enterListing less attribs).inListing = true := rfl
  obtain ⟨l', hl'⟩ := calls_takes (l.enterListing less attribs) ((abort_enterListing attribs l).trans hlive) hin ins
    (listings_of_one hone) hall hfresh
  obtain ⟨l'', hl''⟩ : ∃ l'', l.calls less tags.calls = .returned l'' := by
    rw [calls_of_one hlive hone hout, hl']
    exact ⟨_, rfl⟩
  obtain ⟨_, rfl, _⟩ := calls_returned less hone hout hlive hl''
  exact hl''

end ListLoader

end Returning

section Mirroring

variable {less : Bytes → Bytes → Prop}

/-- In each directory the names of the directories are apart, and those of the listed files. -/
def Distinct (less : Bytes → Bytes → Prop) (d : ShareManager.Directory) : Prop :=
  d.All fun n directories => Apart less (fun c : ShareManager.Directory => c.label.name) directories ∧
    Apart less File.name (listedFiles n.files)

variable [DecidableRel less]

theorem child_eq_none {name : Bytes} {t : Directory} :
    child less DirectoryNode.name name t = none ↔ ∀ c ∈ t.children, ¬Tie less c.label.name name := by
  rw [child, OrderedSet.find, List.find?_eq_none]
  simp only [decide_eq_true_eq]

variable [IsStrictWeakOrder Bytes less]

/-- Files with other names than those there are come to them. -/
theorem addAll_files {files : List File} (h : Apart less File.name files) {t : Directory}
    (hold : ∀ f ∈ files, ∀ g ∈ t.label.files, ¬Tie less g.name f.name) :
    Fresh less (files.map fun f => ([], .file f)) t ∧ ∃ files', files'.Perm (files ++ t.label.files) ∧
      addAll less (files.map fun f => ([], .file f)) t = .node { t.label with files := files' } t.children := by
  induction files generalizing t with
  | nil => exact ⟨trivial, t.label.files, List.Perm.refl _, by cases t; rfl⟩
  | cons f files ih =>
    obtain ⟨hf, hfiles⟩ := List.pairwise_cons.mp h
    obtain ⟨hfold, hold⟩ := List.forall_mem_cons.mp hold
    have hadd : add less t ([], .file f) = .node (putFile less f t.label) t.children := rfl
    have hnew : ∀ f' ∈ files, ∀ g ∈ (putFile less f t.label).files, ¬Tie less g.name f'.name := by
      intro f' hf' g hg
      obtain rfl | ⟨hg, -⟩ := mem_put.mp hg
      · exact hf f' hf'
      · exact hold f' hf' g hg
    obtain ⟨hfresh, files', hperm, haddAll⟩ := @ih hfiles (.node (putFile less f t.label) t.children) hnew
    have habsent : OrderedSet.find less File.name f.name t.label.files = none := find_eq_none_of_forall hfold
    refine ⟨⟨fun n hn => ?_, ?_⟩, files', ?_, ?_⟩
    · obtain rfl := Option.some.inj hn
      exact habsent
    · rw [hadd]
      exact hfresh
    · exact hperm.trans (((put_perm hfold f).append_left files).trans List.perm_middle)
    · rw [List.map_cons, addAll_cons, hadd, haddAll]
      rfl

/-- What the entries of a directory make of a place where it is not there yet. -/
def Grows (less : Bytes → Bytes → Prop) [DecidableRel less] (d : ShareManager.Directory) : Prop :=
  ∀ t : Directory, child less DirectoryNode.name d.label.name t = none →
    Fresh less (entries (-1) d) t ∧
      ∃ c, Mirrors d c ∧ addAll less (entries (-1) d) t = putChild less DirectoryNode.name d.label.name c t

theorem addAll_listEntries {directories : List ShareManager.Directory} (h : ∀ d ∈ directories, Grows less d)
    (hapart : Apart less (fun c : ShareManager.Directory => c.label.name) directories) {t : Directory}
    (hnone : ∀ d ∈ directories, child less DirectoryNode.name d.label.name t = none) :
    Fresh less (listEntries (-1) directories) t ∧ ∃ ts t', List.Forall₂ Mirrors directories ts ∧
      addAll less (listEntries (-1) directories) t = t' ∧ t'.label = t.label ∧ t'.children.Perm (ts ++ t.children) := by
  induction directories generalizing t with
  | nil => exact ⟨trivial, [], t, List.Forall₂.nil, rfl, rfl, List.Perm.refl _⟩
  | cons d directories ih =>
    obtain ⟨hd, hdirectories⟩ := List.pairwise_cons.mp hapart
    obtain ⟨hfirst, hrest⟩ := List.forall_mem_cons.mp hnone
    obtain ⟨hfresh, c, hmirrors, hadd⟩ := h d List.mem_cons_self t hfirst
    have htie : Tie less c.label.name d.label.name := by
      rw [hmirrors.name]
      exact Tie.refl _
    have hnone' : ∀ d' ∈ directories, child less DirectoryNode.name d'.label.name
        (putChild less DirectoryNode.name d.label.name c t) = none := by
      intro d' hd'
      rw [child_putChild htie, if_neg (hd d' hd')]
      exact hrest d' hd'
    obtain ⟨hfresh', ts, t', hts, haddAll, hlabel, hperm⟩ := ih (fun d hd => h d (List.mem_cons_of_mem _ hd)) hdirectories hnone'
    refine ⟨?_, c :: ts, t', List.Forall₂.cons hmirrors hts, ?_, hlabel, ?_⟩
    · rw [listEntries, fresh_append, hadd]
      exact ⟨hfresh, hfresh'⟩
    · rw [listEntries, addAll_append, hadd, haddAll]
    · have hput : (putChild less DirectoryNode.name d.label.name c t).children.Perm (c :: t.children) :=
        put_perm (child_eq_none.mp hfirst) c
      exact hperm.trans ((hput.append_left ts).trans List.perm_middle)

/-- The entries of a directory make a directory like it. -/
theorem grows {d : ShareManager.Directory} (h : Distinct less d) : Grows less d := by
  induction d using Tree.induction with
  | h n directories ih =>
    obtain ⟨⟨hdirectories, hfiles⟩, hin⟩ := h
    intro t hnone
    have hexpands : ShareManager.Expands (-1) n directories := Or.inl (by decide)
    have hentries : entries (-1) (.node n directories) =
        ([], .directory n.name true) :: (listEntries (-1) directories ++ fileEntries n.files).map (under n.name) := by
      rw [entries, if_pos hexpands]
      rfl
    -- what is in the directory comes to an empty one
    obtain ⟨hfresh, ts, t', hts, hadd, hlabel, hperm⟩ := @addAll_listEntries less _ _ directories
      (fun c hc => ih c hc (hin c hc)) hdirectories (ListLoader.completed true (.node (newNode n.name) []))
      fun d _ => child_eq_none.mpr fun c hc => absurd hc List.not_mem_nil
    have hlabel' : t'.label = ⟨n.name, true, []⟩ := hlabel
    obtain ⟨hfresh', files', hfiles', hadd'⟩ := @addAll_files less _ _ (listedFiles n.files) hfiles t' fun f _ g hg => by
      rw [hlabel'] at hg
      exact absurd hg List.not_mem_nil
    rw [hlabel'] at hfiles' hadd'
    rw [List.append_nil] at hfiles'
    have hinside : addAll less (listEntries (-1) directories ++ fileEntries n.files)
        (ListLoader.completed true (.node (newNode n.name) [])) = .node ⟨n.name, true, files'⟩ t'.children := by
      rw [addAll_append, hadd, fileEntries, hadd']
    have hname : child less DirectoryNode.name n.name t = none := hnone
    rw [hentries]
    refine ⟨⟨?_, ?_⟩, .node ⟨n.name, true, files'⟩ t'.children, .node hfiles' hts ?_, ?_⟩
    · change (child less DirectoryNode.name n.name t).bind _ = none
      rw [hname]
      rfl
    · refine @fresh_under less _ _ n.name _ (ListLoader.completed true) (fun _ => rfl) t ?_
      rw [hname, Option.getD_none, fresh_append, hadd]
      exact ⟨hfresh, hfresh'⟩
    · have hperm' : t'.children.Perm (ts ++ []) := hperm
      rwa [List.append_nil] at hperm'
    · have hunder := @addAll_under less _ _ n.name (listEntries (-1) directories ++ fileEntries n.files)
        (ListLoader.completed true) (fun _ => rfl) t
      rw [addAll_cons, ListLoader.add_directory, hunder, alterAt, hname, Option.getD_none, alterAt, hinside]
      rfl

end Mirroring

theorem named_of_legible {wcharBits : Nat} {d : ShareManager.Directory} (h : d.LegibleIn wcharBits) : AllNamed d := by
  induction d using Tree.induction with
  | h n directories ih =>
    obtain ⟨⟨hname, hfiles⟩, hin⟩ := h
    exact .node ⟨hname.nonempty, fun f hf => (hfiles f hf).nonempty⟩ fun c hc => ih c hc (hin c hc)

/-- The listing before a list is loaded. -/
def emptyListing : Listing := ⟨[], false, .node (newNode []) []⟩

/-- The file list that is generated, in whatever reads, is loaded as a tree with the same directories and in each of
them the same files. -/
theorem load_generateXmlList (less : Bytes → Bytes → Prop) [DecidableRel less] [IsStrictWeakOrder Bytes less]
    {cfg : Config} (hlower : cfg.platform.toLower Text.utf8 = Text.utf8) (cid : Encoder.HashValue)
    {directories : List ShareManager.Directory} (hlegible : ∀ d ∈ directories, d.LegibleIn cfg.platform.wcharBits)
    (hdistinct : ∀ d ∈ directories, Distinct less d)
    (hapart : Apart less (fun c : ShareManager.Directory => c.label.name) directories)
    (hdepth : Tree.depths directories + 2 ≤ MAX_NESTING) {chunks : List Bytes}
    (hchunks : chunks.flatten = ShareManager.generateXmlList cid directories) {maxSize : Nat}
    (hsize : maxSize = 0 ∨ chunks.flatten.length ≤ maxSize) :
    ∃ fuel ts children, loadXML less cfg fuel maxSize emptyListing false chunks =
        some (.returned (str "/", ⟨str "/", false, .node ⟨[], true, []⟩ children⟩)) ∧
      List.Forall₂ Mirrors directories ts ∧ children.Perm ts := by
  have hnested : Tree.depths directories + 2 ≤ 32 := hdepth
  have hindent : ShareManager.Indents (Tree.depths directories) [] :=
    ⟨fun _ h => absurd h List.not_mem_nil, by rw [MAX_VALUE_SIZE, List.length_nil]; omega⟩
  have hbase : ShareManager.Base cfg.platform.wcharBits (str "/") := ⟨validateUtf8_of_all _ (by decide), by decide⟩
  have hreadable := @ShareManager.readable_listingMarkup _ cid _ [] hbase (-1) directories [] hindent hlegible fun _ h =>
    absurd h List.not_mem_nil
  have hnesting := Nat.le_trans (ShareManager.nesting_listingMarkup cid (str "/") [] (-1) directories []) hdepth
  have htext : chunks.flatten =
      xmlDeclaration ++ (ShareManager.listingMarkup cid (str "/") [] (-1) directories []).text ++ [] := by
    rw [hchunks, List.append_nil, ← ShareManager.text_listingMarkup, ShareManager.generateXmlList]
    simp [ShareManager.filesToXml]
  obtain ⟨fuel, hread⟩ := @readStream_written cfg hlower _ hreadable hnesting [] ⟨fun _ h => absurd h List.not_mem_nil, by decide⟩
    chunks htext maxSize hsize
  have hnamed : ∀ d ∈ directories, AllNamed d := fun d hd => named_of_legible (hlegible d hd)
  obtain ⟨hfresh, ts, t', hts, hadd, hlabel, hperm⟩ := @addAll_listEntries less _ _ directories
    (fun d hd => grows (hdistinct d hd)) hapart (.node ⟨[], true, []⟩ []) fun d _ =>
      child_eq_none.mpr fun c hc => absurd hc List.not_mem_nil
  have hall := @read_contentOf [] (-1) directories [] hnamed fun _ h => absurd h List.not_mem_nil
  have hnofiles : fileEntries [] = [] := rfl
  rw [hnofiles, List.append_nil] at hall
  have hplace : ((ListLoader.ofListing emptyListing false).enterListing less
      (ShareManager.listingAttribs cid (str "/"))).place = ⟨.node ⟨[], true, []⟩ [], []⟩ := rfl
  have hload := @ListLoader.calls_loaded less _ _ (ListLoader.ofListing emptyListing false) _ _ _
    (listings_listingMarkup cid (str "/") [] (-1) directories []) rfl rfl (by rw [hall]) (by rw [hall, hplace]; exact hfresh)
  have hloaded : ((ListLoader.ofListing emptyListing false).loaded less (ShareManager.listingAttribs cid (str "/"))
      (listEntries (-1) directories)).listing = ⟨str "/", false, t'⟩ := by
    rw [← hadd]
    rfl
  have hroot : t' = .node ⟨[], true, []⟩ t'.children := by
    obtain ⟨label, children⟩ := t'
    obtain rfl : label = ⟨[], true, []⟩ := hlabel
    rfl
  refine ⟨fuel, ts, t'.children, ?_, hts, ?_⟩
  · rw [loadXML, hread, Option.map_some]
    dsimp only
    rw [Listing.load, ListLoader.calls_tagsOf, hload, hall, ← hroot, ← hloaded]
    rfl
  · have hperm' : t'.children.Perm (ts ++ []) := hperm
    rwa [List.append_nil] at hperm'

/-- A directory with a file in a directory in it. -/
def nestedShare : ShareManager.Directory :=
  .node ⟨str "a", none, [], 0⟩ [.node ⟨str "b", none, [⟨0, str "x", none, some ⟨List.replicate 24 (byte 'a'), rfl⟩, 1⟩], 1⟩ []]

theorem load_generateXmlList_nested : ∃ fuel ts children,
    loadXML (lessBy UInt8.toNat) plainConfig fuel 0 emptyListing false
        [ShareManager.generateXmlList ⟨List.replicate 24 (byte 'a'), rfl⟩ [nestedShare]] =
      some (.returned (str "/", ⟨str "/", false, .node ⟨[], true, []⟩ children⟩)) ∧
    List.Forall₂ Mirrors [nestedShare] ts ∧ children.Perm ts := by
  have hlegible (name : Bytes) (h : name ∈ [str "a", str "b", str "x"]) : ShareManager.Legible 32 name := by
    have hall : ∀ name ∈ [str "a", str "b", str "x"],
        name ≠ [] ∧ Text.validateUtf8 32 name = true ∧ name.length < MAX_VALUE_SIZE := by decide
    obtain ⟨hne, hutf8, hlimit⟩ := hall name h
    exact ⟨hne, hutf8, hlimit⟩
  have hnone {P : ShareManager.Directory → Prop} : ∀ d ∈ [], P d := fun _ h => absurd h List.not_mem_nil
  refine load_generateXmlList (lessBy UInt8.toNat) rfl _ ?_ ?_ (List.pairwise_singleton _ _) (by decide)
    (by rw [List.flatten_singleton]) (Or.inl rfl)
  · refine List.forall_mem_singleton.mpr (.node ⟨hlegible _ (by decide), fun _ h => absurd h List.not_mem_nil⟩
      (List.forall_mem_singleton.mpr (.node ⟨hlegible _ (by decide), ?_⟩ hnone)))
    exact List.forall_mem_singleton.mpr (hlegible _ (by decide))
  · exact List.forall_mem_singleton.mpr (.node ⟨List.pairwise_singleton _ _, List.Pairwise.nil⟩
      (List.forall_mem_singleton.mpr (.node ⟨List.Pairwise.nil, List.pairwise_singleton _ _⟩ hnone)))

end Dcpp.DirectoryListing
