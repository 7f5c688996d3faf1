import Dcpp.PartOfShare
import Dcpp.Utf8WellFormed

-- A share that is browsed: the partial lists that are asked for one after the other, and the listing that they make.
namespace Dcpp.DirectoryListing

open SimpleXML SimpleXMLReader OrderedTree OrderedSet
open ShareManager (nextLevel listingMarkup listingAttribs generatePartialList)
open ShareManager.Virtual (WellNamed Siblings Buckets findDirectory_self)

/-- `getPath` of the directory that the names lead to. -/
def getPath (names : List Bytes) : Bytes := names.flatMap fun name => name ++ [byte '\\']

/-- The share as one directory, which has no name. -/
def shareRoot (directories : List ShareManager.Directory) : ShareManager.Directory := .node ⟨[], none, [], 0⟩ directories

/-- A share that can be listed: the names in it can be read and are apart, and nothing in it is too deep or too long. -/
structure Browsable (less : Bytes → Bytes → Prop) (l : Util.Locale) (wcharBits : Nat)
    (directories : List ShareManager.Directory) : Prop where
  legible : ∀ d ∈ directories, d.LegibleIn wcharBits
  distinct : Distinct less (shareRoot directories)
  named : WellNamed l directories
  noBackslash : (shareRoot directories).All fun _ directories => ∀ d ∈ directories, byte '\\' ∉ d.label.name
  depth : Tree.depths directories + 2 ≤ MAX_NESTING
  short : ∀ names d, follow ShareManager.DirectoryNode.name names (shareRoot directories) = some d →
    (Util.toAdcFile (getPath names)).length < MAX_VALUE_SIZE

section Paths

/-- A directory as it is asked for. -/
def dirOf (names : List Bytes) : Bytes := byte '/' :: names.flatMap fun name => name ++ [byte '/']

theorem toAdcFile_getPath {names : List Bytes} (h : ∀ name ∈ names, byte '\\' ∉ name) :
    Util.toAdcFile (getPath names) = dirOf names := by
  have hslash {file : Bytes} (hlast : file.getLast? ≠ some (byte '\\')) : getPath names ≠ file ∨ names = [] := by
    cases names using List.reverseRecOn with
    | nil => exact Or.inr rfl
    | append_singleton names name =>
      refine Or.inl fun heq => hlast ?_
      rw [← heq, getPath, List.flatMap_append, List.flatMap_singleton, ← List.append_assoc, List.getLast?_concat]
  have hnot : ¬(getPath names = str "files.xml.bz2" ∨ getPath names = str "files.xml") := by
    rintro (heq | heq)
    · obtain hne | rfl := @hslash (str "files.xml.bz2") (by decide)
      · exact hne heq
      · exact absurd heq (by decide)
    · obtain hne | rfl := @hslash (str "files.xml") (by decide)
      · exact hne heq
      · exact absurd heq (by decide)
  have hmap : ∀ name ∈ names, (name ++ [byte '\\']).map (fun c => if c = byte '\\' then byte '/' else c) =
      name ++ [byte '/'] := by
    intro name hname
    have hsame : name.map (fun c => if c = byte '\\' then byte '/' else c) = name := by
      have hkeep : ∀ c ∈ name, (if c = byte '\\' then byte '/' else c) = id c := fun c hc =>
        if_neg fun heq : c = byte '\\' => h name hname (heq ▸ hc)
      rw [List.map_congr_left hkeep, List.map_id]
    rw [List.map_append, hsame]
    rfl
  have hfirst : byte '/' ≠ byte '\\' := by decide
  rw [Util.toAdcFile, if_neg hnot, List.map_cons, if_neg hfirst, getPath, List.map_flatMap, dirOf]
  exact congrArg _ (List.flatMap_congr hmap)

theorem flatMap_eq_intercalate (names : List Bytes) :
    (names.flatMap fun name => name ++ [byte '/']) = [byte '/'].intercalate (names ++ [[]]) := by
  induction names with
  | nil => rfl
  | cons name names ih =>
    have hne : names ++ [[]] ≠ [] := List.append_ne_nil_of_right_ne_nil _ (List.cons_ne_nil _ _)
    obtain ⟨n, ns, hns⟩ := List.exists_cons_of_ne_nil hne
    rw [List.flatMap_cons, ih, List.cons_append, hns, List.intercalate_cons_cons, List.append_assoc]

variable {names : List Bytes}

theorem splitOn_names (h : ∀ name ∈ names, byte '/' ∉ name) :
    (names.flatMap fun name => name ++ [byte '/']).splitOn (byte '/') = names ++ [[]] ∧
      (dirOf names).splitOn (byte '/') = [] :: (names ++ [[]]) := by
  have hlast : ∀ name ∈ names ++ [[]], byte '/' ∉ name := List.forall_mem_append.mpr ⟨h, by simp⟩
  have hdir : dirOf names = [byte '/'].intercalate ([] :: (names ++ [[]])) := by
    have hne : names ++ [[]] ≠ [] := List.append_ne_nil_of_right_ne_nil _ (List.cons_ne_nil _ _)
    obtain ⟨n, ns, hns⟩ := List.exists_cons_of_ne_nil hne
    rw [dirOf, flatMap_eq_intercalate, hns, List.intercalate_cons_cons]
    rfl
  rw [flatMap_eq_intercalate, hdir]
  refine ⟨List.splitOn_intercalate _ hlast ?_, List.splitOn_intercalate _ (List.forall_mem_cons.mpr ⟨?_, hlast⟩) ?_⟩
  all_goals simp

theorem tokens_dirOf (h : ∀ name ∈ names, byte '/' ∉ name) : tokens ((dirOf names).drop 1) (byte '/') = names := by
  have hdrop : (dirOf names).drop 1 = names.flatMap fun name => name ++ [byte '/'] := rfl
  rw [hdrop, tokens, (splitOn_names h).1, List.getLast?_concat, if_pos rfl, List.dropLast_concat]

theorem pathNames_dirOf (h : ∀ name ∈ names, byte '/' ∉ name) (hne : ∀ name ∈ names, name ≠ []) :
    ShareManager.pathNames (dirOf names) = names := by
  rw [ShareManager.pathNames, (splitOn_names h).2, List.filter_cons_of_neg (by simp), List.filter_append, List.filter_eq_self.mpr]
  · simp
  · simpa using hne

theorem getLast?_dirOf (names : List Bytes) : (dirOf names).getLast? = some (byte '/') := by
  cases names using List.reverseRecOn with
  | nil => rfl
  | append_singleton names name =>
    rw [dirOf, List.flatMap_append, List.flatMap_singleton, ← List.append_assoc, ← List.cons_append, List.getLast?_concat]

theorem dirOf_eq_iff : dirOf names = str "/" ↔ names = [] := by
  have hroot : str "/" = [byte '/'] := by decide
  refine ⟨fun h => ?_, fun h => h ▸ hroot.symm⟩
  rw [hroot, dirOf] at h
  cases names with
  | nil => rfl
  | cons name names =>
    have hlen := congrArg List.length h
    simp at hlen

theorem validateUtf8_dirOf {wcharBits : Nat} (hwide : 16 ≤ wcharBits) (h : ∀ name ∈ names, Text.validateUtf8 wcharBits name = true) :
    Text.validateUtf8 wcharBits (dirOf names) = true := by
  have happend {s t : Bytes} (hs : Text.validateUtf8 wcharBits s = true) (ht : Text.validateUtf8 wcharBits t = true) :
      Text.validateUtf8 wcharBits (s ++ t) = true := by
    rw [Text.validateUtf8_iff hwide] at hs ht ⊢
    obtain ⟨l, hl, rfl⟩ := hs
    obtain ⟨l', hl', rfl⟩ := ht
    exact ⟨l ++ l', List.forall_mem_append.mpr ⟨hl, hl'⟩, List.flatMap_append.symm⟩
  have hslash : Text.validateUtf8 wcharBits [byte '/'] = true := validateUtf8_of_all _ (by decide)
  have hnames : Text.validateUtf8 wcharBits (names.flatMap fun name => name ++ [byte '/']) = true := by
    induction names with
    | nil => exact validateUtf8_of_all _ (by decide)
    | cons name names ih =>
      obtain ⟨hname, hrest⟩ := List.forall_mem_cons.mp h
      exact happend (happend hname hslash) (ih hrest)
  exact happend hslash hnames

end Paths

section Share

variable {d d' : ShareManager.Directory} {names : List Bytes}

theorem all_follow {p : ShareManager.DirectoryNode → List ShareManager.Directory → Prop} (h : d.All p)
    (hd' : follow ShareManager.DirectoryNode.name names d = some d') : d'.All p := by
  induction names generalizing d with
  | nil =>
    obtain rfl := Option.some.inj hd'
    exact h
  | cons n names ih =>
    obtain ⟨c, hc, hbelow⟩ := Option.bind_eq_some_iff.mp hd'
    cases h with
    | node _ hin => exact ih (hin c (List.mem_of_find?_eq_some hc)) hbelow

/-- What is so of the names in each directory is so of the names on a path. -/
theorem names_follow {p : Bytes → Prop} (h : d.All fun _ directories => ∀ c ∈ directories, p c.label.name)
    (hd' : follow ShareManager.DirectoryNode.name names d = some d') : ∀ name ∈ names, p name := by
  induction names generalizing d with
  | nil => exact fun _ h => absurd h List.not_mem_nil
  | cons n names ih =>
    obtain ⟨c, hc, hbelow⟩ := Option.bind_eq_some_iff.mp hd'
    have hname : c.label.name = n := by simpa using List.find?_some hc
    cases h with
    | node hp hin =>
      have hmem := List.mem_of_find?_eq_some hc
      exact List.forall_mem_cons.mpr ⟨hname ▸ hp c hmem, ih (hin c hmem) hbelow⟩

theorem depths_follow (hd' : follow ShareManager.DirectoryNode.name names d = some d') :
    Tree.depths d'.children ≤ Tree.depths d.children := by
  induction names generalizing d with
  | nil =>
    obtain rfl := Option.some.inj hd'
    exact Nat.le_refl _
  | cons n names ih =>
    obtain ⟨c, hc, hbelow⟩ := Option.bind_eq_some_iff.mp hd'
    have hdepth := Tree.depth_le_depths (List.mem_of_find?_eq_some hc)
    have hchildren : Tree.depths c.children < c.depth := by
      obtain ⟨n, children⟩ := c
      exact Nat.lt_succ_self _
    exact Nat.le_trans (ih hbelow) (Nat.le_trans hchildren.le hdepth)

variable {l : Util.Locale} {bucket : Buckets}

theorem walk_children {n : ShareManager.DirectoryNode} {directories : List ShareManager.Directory}
    (hroot : Siblings l (fun c : ShareManager.Directory => c.label.name) directories)
    (hbelow : ∀ c ∈ directories, c.All fun n children =>
      Siblings l ShareManager.File.name n.files ∧ Siblings l (fun c : ShareManager.Directory => c.label.name) children)
    (hne : names ≠ []) (hd' : follow ShareManager.DirectoryNode.name names (.node n directories) = some d') :
    ShareManager.walk l bucket names directories = some (some d') := by
  induction names generalizing n directories with
  | nil => exact absurd rfl hne
  | cons name names ih =>
    obtain ⟨c, hc, hfollow⟩ := Option.bind_eq_some_iff.mp hd'
    have hname : c.label.name = name := by simpa using List.find?_some hc
    have hmem : c ∈ directories := List.mem_of_find?_eq_some hc
    have hfind := findDirectory_self l bucket hroot hmem
    rw [hname] at hfind
    cases names with
    | nil =>
      obtain rfl := Option.some.inj hfollow
      exact hfind
    | cons name' names =>
      rw [ShareManager.walk, hfind]
      cases hbelow c hmem with
      | node hn hin => exact ih hn.2 hin (List.cons_ne_nil _ _) hfollow

/-- The loop over the names comes to the directory. -/
theorem walk_eq_follow {directories : List ShareManager.Directory} (h : WellNamed l directories) (hne : names ≠ [])
    (hd' : follow ShareManager.DirectoryNode.name names (shareRoot directories) = some d') :
    ShareManager.walk l bucket names directories = some (some d') := walk_children h.roots h.below hne hd'

variable {less : Bytes → Bytes → Prop} {wcharBits : Nat} {directories : List ShareManager.Directory}

/-- The names of the directories of the share can be put into a path. -/
def InPath (wcharBits : Nat) (name : Bytes) : Prop :=
  ShareManager.Legible wcharBits name ∧ byte '/' ∉ name ∧ byte '\\' ∉ name

theorem legible_name {c : ShareManager.Directory} (h : c.LegibleIn wcharBits) : ShareManager.Legible wcharBits c.label.name := by
  cases h with
  | node hn _ => exact hn.1

theorem Browsable.inPath (h : Browsable less l wcharBits directories) :
    (shareRoot directories).All fun _ directories => ∀ c ∈ directories, InPath wcharBits c.label.name := by
  have hbelow (c : ShareManager.Directory) (hlegible : c.LegibleIn wcharBits) (hnamed : c.All fun n children =>
      Siblings l ShareManager.File.name n.files ∧ Siblings l (fun c : ShareManager.Directory => c.label.name) children)
      (hbackslash : c.All fun _ directories => ∀ d ∈ directories, byte '\\' ∉ d.label.name) :
      c.All fun _ directories => ∀ c ∈ directories, InPath wcharBits c.label.name := by
    induction c using Tree.induction with
    | h n children ih =>
      obtain ⟨_, hlegible⟩ := hlegible
      obtain ⟨hnames, hnamed⟩ := hnamed
      obtain ⟨hno, hbackslash⟩ := hbackslash
      exact .node (fun c hc => ⟨legible_name (hlegible c hc), hnames.2.noSlash c hc, hno c hc⟩) fun c hc =>
        ih c hc (hlegible c hc) (hnamed c hc) (hbackslash c hc)
  obtain ⟨hno, hbackslash⟩ := h.noBackslash
  exact .node (fun c hc => ⟨legible_name (h.legible c hc), h.named.roots.noSlash c hc, hno c hc⟩) fun c hc =>
    hbelow c (h.legible c hc) (h.named.below c hc) (hbackslash c hc)

/-- What is listed of a directory of the share can be read. -/
theorem Browsable.legibleIn (h : Browsable less l wcharBits directories)
    (hd' : follow ShareManager.DirectoryNode.name names (shareRoot directories) = some d') :
    (∀ c ∈ d'.children, ShareManager.Directory.LegibleIn wcharBits c) ∧
      ∀ f ∈ d'.label.files, ShareManager.Legible wcharBits f.name := by
  cases names with
  | nil =>
    obtain rfl := Option.some.inj hd'
    exact ⟨h.legible, fun _ h => absurd h List.not_mem_nil⟩
  | cons n names =>
    obtain ⟨c, hc, hbelow⟩ := Option.bind_eq_some_iff.mp hd'
    obtain ⟨hn, hin⟩ := all_follow (h.legible c (List.mem_of_find?_eq_some hc)) hbelow
    exact ⟨hin, hn.2⟩

/-- The tags of the list of a directory. -/
def answer (cid : Encoder.HashValue) (names : List Bytes) (recurse : Bool) (d : ShareManager.Directory) : Markup :=
  listingMarkup cid (dirOf names) (str "\t") (if recurse then -1 else 0) d.children d.label.files

/-- Every directory of the share is listed when it is asked for. -/
theorem generatePartialList_eq (h : Browsable less l wcharBits directories) (cid : Encoder.HashValue) (recurse : Bool)
    (hd' : follow ShareManager.DirectoryNode.name names (shareRoot directories) = some d') :
    generatePartialList l bucket cid (Util.toAdcFile (getPath names)) recurse directories =
      some (some (xmlDeclaration ++ (answer cid names recurse d').text)) := by
  have hfirst : (dirOf names).head? = some (byte '/') := rfl
  have hnames := names_follow h.inPath hd'
  rw [toAdcFile_getPath fun name hname => (hnames name hname).2.2, generatePartialList, hfirst, getLast?_dirOf,
    if_neg (by simp), answer, ← ShareManager.text_listingMarkup]
  by_cases hempty : names = []
  · subst hempty
    obtain rfl := Option.some.inj hd'
    rw [if_pos (dirOf_eq_iff.mpr rfl)]
    rfl
  · rw [if_neg fun heq => hempty (dirOf_eq_iff.mp heq), pathNames_dirOf (fun name hname => (hnames name hname).2.1)
      fun name hname => (hnames name hname).1.nonempty, walk_eq_follow h.named hempty hd']
    rfl

/-- The list of a directory of the share can be read. -/
theorem readable_answer (hwide : 16 ≤ wcharBits) (h : Browsable less l wcharBits directories) (cid : Encoder.HashValue)
    (recurse : Bool) (hd' : follow ShareManager.DirectoryNode.name names (shareRoot directories) = some d') :
    Readable wcharBits (answer cid names recurse d') ∧ (answer cid names recurse d').nesting ≤ MAX_NESTING ∧
      (∀ c ∈ d'.children, AllNamed c) ∧ ∀ f ∈ d'.label.files, f.name ≠ [] := by
  obtain ⟨hdirectories, hfiles⟩ := h.legibleIn hd'
  have hnames := names_follow h.inPath hd'
  have hdepth : Tree.depths d'.children + 2 ≤ MAX_NESTING := Nat.le_trans (Nat.add_le_add_right (depths_follow hd') 2) h.depth
  have hbase : ShareManager.Base wcharBits (dirOf names) := by
    refine ⟨validateUtf8_dirOf hwide fun name hname => (hnames name hname).1.utf8, ?_⟩
    rw [← toAdcFile_getPath fun name hname => (hnames name hname).2.2]
    exact h.short names d' hd'
  have hindent : ShareManager.Indents (Tree.depths d'.children) (str "\t") := by
    refine ⟨List.all_eq_true.mp (by decide), ?_⟩
    have hlen : (str "\t").length = 1 := by decide
    have hmax : MAX_NESTING = 32 := rfl
    rw [MAX_VALUE_SIZE]
    omega
  refine ⟨ShareManager.readable_listingMarkup cid hbase _ hindent hdirectories hfiles, ?_, fun c hc =>
    named_of_legible (hdirectories c hc), fun f hf => (hfiles f hf).nonempty⟩
  exact Nat.le_trans (ShareManager.nesting_listingMarkup cid _ _ _ _ _) hdepth

end Share

section Browsing

variable (less : Bytes → Bytes → Prop) [DecidableRel less] (l : Util.Locale) (bucket : Buckets) (cfg : Config)
  (cid : Encoder.HashValue) (directories : List ShareManager.Directory)

/-- The listing with the answer for a directory. -/
def withAnswer (names : List Bytes) (recurse : Bool) (d : ShareManager.Directory) (list : Listing) : Listing :=
  ((ListLoader.ofListing list true).loaded less (listingAttribs cid (dirOf names))
    (listEntries (if recurse then -1 else 0) d.children ++ fileEntries d.label.files)).listing

/-- The listings that one comes to, asking for directories that the listing has, with those that were asked for. -/
inductive Browsed : List (List Bytes) → Listing → Prop where
  | start : Browsed [] emptyListing
  | update {asked : List (List Bytes)} {list list' : Listing} {names : List Bytes} {u : Directory} {recurse : Bool}
    {text base : Bytes} {chunks : List Bytes} {fuel maxSize : Nat} :
    Browsed asked list → follow DirectoryNode.name names list.root = some u →
    generatePartialList l bucket cid (Util.toAdcFile (getPath names)) recurse directories = some (some text) →
    chunks.flatten = text → (maxSize = 0 ∨ text.length ≤ maxSize) →
    loadXML less cfg fuel maxSize list true chunks = some (.returned (base, list')) → Browsed (names :: asked) list'

variable {less l bucket cfg cid directories} [IsStrictWeakOrder Bytes less] {names : List Bytes} {recurse : Bool}
  {list : Listing} {u : Directory} {d' : ShareManager.Directory}

theorem baseOf_dirOf (cid : Encoder.HashValue) (names : List Bytes) :
    PartialList.baseOf (listingAttribs cid (dirOf names)) = dirOf names := by
  have hattrib : getAttrib (listingAttribs cid (dirOf names)) (str "Base") 2 = dirOf names := rfl
  rw [PartialList.baseOf, hattrib]
  exact if_pos ⟨rfl, getLast?_dirOf names⟩

omit [IsStrictWeakOrder Bytes less] in
theorem loadXML_det {fuel fuel' maxSize : Nat} {updating : Bool} {chunks : List Bytes} {x x' : Outcome (Bytes × Listing)}
    (h : loadXML less cfg fuel maxSize list updating chunks = some x)
    (h' : loadXML less cfg fuel' maxSize list updating chunks = some x') : x = x' := by
  obtain ⟨y, hy, rfl⟩ := Option.map_eq_some_iff.mp h
  obtain ⟨y', hy', rfl⟩ := Option.map_eq_some_iff.mp h'
  rw [readStream_det cfg hy hy']

/-- The answer is loaded, however it comes in. -/
theorem load_answer (h : Browsable less l cfg.platform.wcharBits directories) (hwide : 16 ≤ cfg.platform.wcharBits)
    (hlower : cfg.platform.toLower Text.utf8 = Text.utf8) (hlive : list.abort = false)
    (hd' : follow ShareManager.DirectoryNode.name names (shareRoot directories) = some d') {chunks : List Bytes}
    (hchunks : chunks.flatten = xmlDeclaration ++ (answer cid names recurse d').text) {maxSize : Nat}
    (hsize : maxSize = 0 ∨ chunks.flatten.length ≤ maxSize) :
    ∃ fuel, loadXML less cfg fuel maxSize list true chunks =
      some (.returned (dirOf names, withAnswer less cid names recurse d' list)) := by
  obtain ⟨hreadable, hnesting, hnamed, hfiles⟩ := readable_answer hwide h cid recurse hd'
  have hlast : Space [] := ⟨fun _ h => absurd h List.not_mem_nil, by decide⟩
  obtain ⟨fuel, hread⟩ := readStream_written hlower hreadable hnesting hlast (hchunks.trans (List.append_nil _).symm) hsize
  have hall := read_contentOf (str "\t") (if recurse then -1 else 0) hnamed hfiles
  have hone := listings_listingMarkup cid (dirOf names) (str "\t") (if recurse then -1 else 0) d'.children d'.label.files
  refine ⟨fuel, ?_⟩
  rw [loadXML, hread, Option.map_some]
  dsimp only
  rw [Listing.load, ListLoader.calls_tagsOf]
  cases hcalls : (ListLoader.ofListing list true).calls less (tagsOf (answer cid names recurse d')).calls with
  | undefined => exact absurd hcalls (ListLoader.calls_prefix_ne_undefined _ _ (List.prefix_refl _))
  | threw aError l' =>
    obtain ⟨hbad, _⟩ := ListLoader.calls_threw hone rfl hlive rfl hcalls
    rw [hall] at hbad
    cases hbad
  | returned l' =>
    obtain ⟨_, rfl, _⟩ := ListLoader.calls_returned less hone rfl hlive hcalls
    have hbase : ((ListLoader.ofListing list true).takeBase (getAttrib (listingAttribs cid (dirOf names)) (str "Base") 2)).base =
        dirOf names := by
      have hattrib : getAttrib (listingAttribs cid (dirOf names)) (str "Base") 2 = dirOf names := rfl
      rw [hattrib, ListLoader.takeBase, if_pos ⟨rfl, getLast?_dirOf names⟩]
    have hloaded : ((ListLoader.ofListing list true).loaded less (listingAttribs cid (dirOf names))
        (listEntries (if recurse then -1 else 0) d'.children ++ fileEntries d'.label.files)).base = dirOf names := hbase
    rw [hall]
    dsimp only [Outcome.andThen, Outcome.map]
    rw [hloaded]
    rfl

variable (cid) in
/-- What the listing is with the answer. -/
theorem withAnswer_spec (h : Browsable less l cfg.platform.wcharBits directories)
    (hpart : Part (shareRoot directories) list.root)
    (hu : follow DirectoryNode.name names list.root = some u) (recurse : Bool)
    (hd' : follow ShareManager.DirectoryNode.name names (shareRoot directories) = some d') :
    Part (shareRoot directories) (withAnswer less cid names recurse d' list).root ∧
      Keeps list.root (withAnswer less cid names recurse d' list).root ∧
      ∃ u', follow DirectoryNode.name names (withAnswer less cid names recurse d' list).root = some u' ∧
        u'.label.complete = true ∧ (recurse = true → Whole u') := by
  have hnames := names_follow h.inPath hd'
  have hbase : tokens ((PartialList.baseOf (listingAttribs cid (dirOf names))).drop 1) (byte '/') = names := by
    rw [baseOf_dirOf, tokens_dirOf fun name hname => (hnames name hname).2.1]
  obtain ⟨d'', hfollow, hsame⟩ := hpart.follow h.distinct hu
  obtain rfl := Option.some.inj (hfollow.symm.trans hd')
  obtain ⟨hdistinct, hin⟩ : (Apart less (fun c : ShareManager.Directory => c.label.name) d''.children ∧
      Apart less File.name (listedFiles d''.label.files)) ∧ ∀ c ∈ d''.children, Distinct less c := by
    cases all_follow h.distinct hd' with
    | node hapart hin => exact ⟨hapart, hin⟩
  -- the answer is put into the directory that it is for
  generalize hlevel : (if recurse then -1 else 0 : Int) = level
  have hstart : Within d'' (setComplete u) := ⟨hsame.name, hsame.files, fun c hc => hsame.children c hc⟩
  obtain ⟨hw, hfull, hcomplete, hkeeps, hwhole⟩ := hstart.addContent hdistinct level fun c hc => merges (hin c hc)
  have hset : Keeps u (setComplete u) := Keeps.of_children (fun _ => rfl) rfl
  have hroot : (withAnswer less cid names recurse d'' list).root = alterAt less DirectoryNode.name newNode
      (fun d => addAll less (listEntries level d''.children ++ fileEntries d''.label.files) (setComplete d)) names list.root := by
    have hloaded := @Listing.root_loaded less _ _ list ⟨tagsOf (answer cid names recurse d''), _, _,
      listings_listingMarkup cid (dirOf names) (str "\t") (if recurse then -1 else 0) d''.children d''.label.files⟩
      (by
        rw [PartialList.base, hbase]
        exact hpart.finds h.distinct hd') (listEntries level d''.children ++ fileEntries d''.label.files)
    rw [PartialList.base, hbase] at hloaded
    rw [withAnswer, hlevel]
    exact hloaded
  obtain ⟨hpart', hkept, hthere⟩ := hpart.alterAt h.distinct
    (g := fun d => addAll less (listEntries level d''.children ++ fileEntries d''.label.files) (setComplete d)) hu
    (fun d hd => by
      obtain rfl := Option.some.inj (hd.symm.trans hd')
      exact hw.part fun _ => hfull) (hset.trans hkeeps)
  rw [hroot]
  refine ⟨hpart', hkept, _, hthere, hcomplete, fun hrecurse => ?_⟩
  rw [if_pos hrecurse] at hlevel
  exact Whole.of_children hcomplete (hwhole (by omega))

/-- What holds of a listing however the share is browsed. -/
structure Shows (directories : List ShareManager.Directory) (asked : List (List Bytes)) (list : Listing) : Prop where
  live : list.abort = false
  part : Part (shareRoot directories) list.root
  complete : ∀ names ∈ asked, ∃ u, follow DirectoryNode.name names list.root = some u ∧ u.label.complete = true

theorem shows_of_browsed (h : Browsable less l cfg.platform.wcharBits directories) (hwide : 16 ≤ cfg.platform.wcharBits)
    (hlower : cfg.platform.toLower Text.utf8 = Text.utf8) {asked : List (List Bytes)}
    (hb : Browsed less l bucket cfg cid directories asked list) : Shows directories asked list := by
  induction hb with
  | start => exact ⟨rfl, Part.new _, fun _ h => absurd h List.not_mem_nil⟩
  | @update asked list list' names u recurse text base chunks fuel maxSize _ hu hanswer hchunks hsize hload ih =>
    obtain ⟨d', hd', -⟩ := ih.part.follow h.distinct hu
    rw [generatePartialList_eq h cid recurse hd'] at hanswer
    obtain rfl := Option.some.inj (Option.some.inj hanswer)
    obtain ⟨fuel', hload'⟩ := load_answer h hwide hlower ih.live hd' hchunks (hchunks ▸ hsize)
    obtain ⟨rfl, rfl⟩ : base = dirOf names ∧ list' = withAnswer less cid names recurse d' list := by
      cases loadXML_det hload hload'
      exact ⟨rfl, rfl⟩
    obtain ⟨hpart, hkeeps, u', hu', hcomplete, -⟩ := withAnswer_spec cid h ih.part hu recurse hd'
    refine ⟨?_, hpart, List.forall_mem_cons.mpr ⟨⟨u', hu', hcomplete⟩, fun names hnames => ?_⟩⟩
    · rw [withAnswer, Listing.abort_loaded]
      exact ih.live
    · obtain ⟨v, hv, hcomplete⟩ := ih.complete names hnames
      exact hkeeps names v hv hcomplete

omit [IsStrictWeakOrder Bytes less] [DecidableRel less] in
theorem follow_only {n : ShareManager.DirectoryNode} {c d : ShareManager.Directory}
    (h : follow ShareManager.DirectoryNode.name names (.node n [c]) = some d) :
    names = [] ∨ ∃ names', names = c.label.name :: names' ∧ follow ShareManager.DirectoryNode.name names' c = some d := by
  cases names with
  | nil => exact Or.inl rfl
  | cons name names =>
    obtain ⟨c', hc, hbelow⟩ := Option.bind_eq_some_iff.mp h
    have hname : c'.label.name = name := by simpa using List.find?_some hc
    obtain rfl := List.mem_singleton.mp (List.mem_of_find?_eq_some hc)
    exact Or.inr ⟨names, by rw [hname], hbelow⟩

theorem browsable_nestedShare : Browsable (lessBy UInt8.toNat) Util.ascii 32 [nestedShare] := by
  have hlegible (name : Bytes) (h : name ∈ [str "a", str "b", str "x"]) : ShareManager.Legible 32 name := by
    have hall : ∀ name ∈ [str "a", str "b", str "x"],
        name ≠ [] ∧ Text.validateUtf8 32 name = true ∧ name.length < MAX_VALUE_SIZE := by decide
    obtain ⟨hne, hutf8, hlimit⟩ := hall name h
    exact ⟨hne, hutf8, hlimit⟩
  have hnone {P : ShareManager.Directory → Prop} : ∀ d ∈ [], P d := fun _ h => absurd h List.not_mem_nil
  have hsiblings {α : Type} (name : α → Bytes) (x : α) (hx : name x ∈ [str "a", str "b", str "x"]) :
      Siblings Util.ascii name [x] := by
    have hall : ∀ name ∈ [str "a", str "b", str "x"], name ≠ [] ∧ byte '/' ∉ name := by decide
    obtain ⟨hne, hslash⟩ := hall _ hx
    exact ⟨List.forall_mem_singleton.mpr hne, List.forall_mem_singleton.mpr hslash, List.pairwise_singleton _ _⟩
  have hempty {α : Type} (name : α → Bytes) : Siblings Util.ascii name [] :=
    ⟨fun _ h => absurd h List.not_mem_nil, fun _ h => absurd h List.not_mem_nil, List.Pairwise.nil⟩
  refine ⟨?_, ?_, ⟨hsiblings _ _ (by decide), ?_⟩, ?_, by decide, fun names d hd => ?_⟩
  · refine List.forall_mem_singleton.mpr (.node ⟨hlegible _ (by decide), fun _ h => absurd h List.not_mem_nil⟩
      (List.forall_mem_singleton.mpr (.node ⟨hlegible _ (by decide), ?_⟩ hnone)))
    exact List.forall_mem_singleton.mpr (hlegible _ (by decide))
  · exact .node ⟨List.pairwise_singleton _ _, List.Pairwise.nil⟩ (List.forall_mem_singleton.mpr
      (.node ⟨List.pairwise_singleton _ _, List.Pairwise.nil⟩ (List.forall_mem_singleton.mpr
        (.node ⟨List.Pairwise.nil, List.pairwise_singleton _ _⟩ hnone))))
  · exact List.forall_mem_singleton.mpr (.node ⟨hempty _, hsiblings _ _ (by decide)⟩ (List.forall_mem_singleton.mpr
      (.node ⟨hsiblings _ _ (by decide), hempty _⟩ hnone)))
  · exact .node (List.forall_mem_singleton.mpr (by decide)) (List.forall_mem_singleton.mpr
      (.node (List.forall_mem_singleton.mpr (by decide)) (List.forall_mem_singleton.mpr (.node hnone hnone))))
  · have hpaths : names ∈ [[], [str "a"], [str "a", str "b"]] := by
      obtain rfl | ⟨below, rfl, hbelow⟩ := follow_only hd
      · decide
      · obtain rfl | ⟨last, rfl, hlast⟩ := follow_only hbelow
        · decide
        · obtain rfl : last = [] := by
            cases last with
            | nil => rfl
            | cons n last => cases hlast
          decide
    have hall : ∀ names ∈ [[], [str "a"], [str "a", str "b"]], (Util.toAdcFile (getPath names)).length < MAX_VALUE_SIZE := by
      decide
    exact hall names hpaths

end Browsing

end Dcpp.DirectoryListing
