import Mathlib.Data.List.Forall2
import Dcpp.NoCaseString
import Dcpp.ShareFiles

-- The virtual paths of the shared files, and the files that paths are resolved to.
namespace Dcpp.ShareManager.Virtual

open Util

variable (l : Util.Locale)

/-- The first element with the name; there is no value when the comparison of a name is undefined. -/
def findName {α : Type} (name : α → Bytes) (key : Bytes) : List α → Option (Option α)
  | [] => some none
  | x :: xs =>
    match stricmp l key (name x) with
    | none => none
    | some d => if d = 0 then some (some x) else findName name key xs

/-- Which hashes are in one bucket of the map of these directories. -/
abbrev Buckets := List Directory → UInt64 → Nat

variable (bucket : Buckets)

/-- `find` of the map, which compares the names in the bucket of the key. -/
def findDirectory (key : Bytes) (directories : List Directory) : Option (Option Directory) :=
  findName l (fun d => d.label.name) key (directories.filter fun d =>
    bucket directories (noCaseStringHash l d.label.name) = bucket directories (noCaseStringHash l key))

/-- The loop of `splitVirtual`, over what is between the slashes. -/
def splitLoop : Directory → List Bytes → Option (Option (Directory × Bytes))
  | _, [] => some none
  | d, [file] => some (some (d, file))
  | d, key :: key' :: keys =>
    match findDirectory l bucket key d.children with
    | none => none
    | some none => some none
    | some (some d') => splitLoop d' (key' :: keys)

def splitVirtual (directories : List Directory) (virtualPath : Bytes) : Option (Option (Directory × Bytes)) :=
  match virtualPath.splitOn (byte '/') with
  | [] :: root :: key :: keys =>
    if root = [] then some none
    else
      match findDirectory l bucket root directories with
      | none => none
      | some none => some none
      | some (some d) => splitLoop l bucket d (key :: keys)
  | _ => some none

/-- An exception is no file, and there is no value when a comparison is undefined. -/
def findFile (s : Share) (virtualFile : Bytes) : Option (Option File) :=
  if virtualFile.take 4 = str "TTH/" then
    some ((lookup s.indices.tthIndex (Encoder.HashValue.ofBase32 (virtualFile.drop 4))).bind fun id =>
      (Directory.allFilesOf s.directories).find? fun f => f.id = id)
  else
    match splitVirtual l bucket s.directories virtualFile with
    | none => none
    | some none => some none
    | some (some v) => findName l File.name v.2 v.1.label.files

mutual

/-- The files with their `getADCPath`; `parent` is that of the parent. -/
def adcPaths (parent : Bytes) : Directory → List (File × Bytes)
  | .node d directories =>
    adcPathsOf (parent ++ d.name ++ [byte '/']) directories ++
      d.files.map fun f => (f, parent ++ d.name ++ [byte '/'] ++ f.name)

def adcPathsOf (parent : Bytes) : List Directory → List (File × Bytes)
  | [] => []
  | d :: directories => adcPaths parent d ++ adcPathsOf parent directories

end

/-- The files of the share with their ADC paths. -/
def paths (s : Share) : List (File × Bytes) := adcPathsOf [byte '/'] s.directories

/-- The comparison tells the names apart. -/
def Apart (a b : Bytes) : Prop := ∃ d, stricmp l a b = some d ∧ d ≠ 0

/-- The names in one directory: none is empty or has a slash, and they are told apart. -/
structure Siblings {α : Type} (name : α → Bytes) (xs : List α) : Prop where
  ne : ∀ x ∈ xs, name x ≠ []
  noSlash : ∀ x ∈ xs, byte '/' ∉ name x
  apart : xs.Pairwise fun x y => Apart l (name x) (name y) ∧ Apart l (name y) (name x)

/-- The names in the tree. -/
structure WellNamed (directories : List Directory) : Prop where
  roots : Siblings l (fun d : Directory => d.label.name) directories
  below : ∀ d ∈ directories, d.All fun n children =>
    Siblings l File.name n.files ∧ Siblings l (fun d : Directory => d.label.name) children

/-- The paths have the same parts but for the case, and the same of them are empty. -/
def SamePath (path path' : Bytes) : Prop :=
  List.Forall₂ (fun a b => noCaseStringEq l a b = true ∧ (a = [] ↔ b = [])) (path.splitOn (byte '/'))
    (path'.splitOn (byte '/'))

/-- Every file is found at its path, and nothing is found at other paths. -/
def RoundTrip (s : Share) : Prop :=
  (∀ f path, (f, path) ∈ paths s → findFile l bucket s path = some (some f)) ∧
    ∀ f path, path.take 4 ≠ str "TTH/" → findFile l bucket s path = some (some f) →
      ∃ path', (f, path') ∈ paths s ∧ SamePath l path path'

/-- In no directory the empty name finds a file, or a directory with a file in it or below. -/
def EmptyMisses (directories : List Directory) : Prop :=
  ∀ d ∈ directories, d.All fun n children => (∀ f ∈ n.files, noCaseStringEq l [] f.name = false) ∧
    ∀ d', findDirectory l bucket [] children = some (some d') → Directory.allFiles d' = []

/-- The file is in the directory, or below it; the names are those on the way to it, with its own. -/
inductive Holds : Directory → List Bytes → File → Prop where
  | file {n : DirectoryNode} {children : List Directory} {f : File} : f ∈ n.files → Holds (.node n children) [f.name] f
  | directory {n : DirectoryNode} {children : List Directory} {c : Directory} {names : List Bytes} {f : File} :
    c ∈ children → Holds c names f → Holds (.node n children) (c.label.name :: names) f

theorem Holds.ne_nil {d : Directory} {names : List Bytes} {f : File} (h : Holds d names f) : names ≠ [] := by
  cases h <;> simp

mutual

theorem mem_adcPaths {parent : Bytes} {d : Directory} {f : File} {path : Bytes} :
    (f, path) ∈ adcPaths parent d ↔
      ∃ names, Holds d names f ∧ path = parent ++ [byte '/'].intercalate (d.label.name :: names) := by
  obtain ⟨n, children⟩ := d
  rw [adcPaths, List.mem_append, mem_adcPathsOf]
  constructor
  · rintro (⟨c, hc, names, hnames, rfl⟩ | hf)
    · refine ⟨_, .directory hc hnames, ?_⟩
      rw [List.intercalate_cons_cons]
      simp
    · obtain ⟨f', hf', heq⟩ := List.mem_map.mp hf
      obtain ⟨rfl, rfl⟩ := Prod.mk.inj heq
      refine ⟨_, .file hf', ?_⟩
      simp
  · rintro ⟨names, hnames, rfl⟩
    cases hnames with
    | file hf =>
      refine Or.inr (List.mem_map.mpr ⟨f, hf, ?_⟩)
      simp
    | @directory _ _ c names _ hc hbelow =>
      refine Or.inl ⟨c, hc, names, hbelow, ?_⟩
      rw [List.intercalate_cons_cons]
      simp

theorem mem_adcPathsOf {parent : Bytes} {directories : List Directory} {f : File} {path : Bytes} :
    (f, path) ∈ adcPathsOf parent directories ↔
      ∃ d ∈ directories, ∃ names, Holds d names f ∧ path = parent ++ [byte '/'].intercalate (d.label.name :: names) := by
  cases directories with
  | nil => simp [adcPathsOf]
  | cons d directories =>
    rw [adcPathsOf, List.mem_append, mem_adcPaths, mem_adcPathsOf]
    simp

end

theorem mem_paths {s : Share} {f : File} {path : Bytes} :
    (f, path) ∈ paths s ↔ ∃ d ∈ s.directories, ∃ names, Holds d names f ∧
      path = [byte '/'].intercalate ([] :: d.label.name :: names) := by
  rw [paths, mem_adcPathsOf]
  simp

section Names

variable {α : Type} {name : α → Bytes} {xs : List α} {x : α}

/-- What is found is the first element whose name is the key, but for the case. -/
theorem findName_some {key : Bytes} (h : findName l name key xs = some (some x)) :
    x ∈ xs ∧ noCaseStringEq l key (name x) = true := by
  induction xs with
  | nil => cases h
  | cons y ys ih =>
    rw [findName] at h
    split at h
    next => cases h
    next d hd =>
      split at h
      next hzero =>
        cases h
        exact ⟨List.mem_cons_self, by simp [noCaseStringEq, hd, hzero]⟩
      next =>
        obtain ⟨hmem, heq⟩ := ih h
        exact ⟨List.mem_cons_of_mem y hmem, heq⟩

/-- Every element is found by its own name, where the names are told apart. -/
theorem findName_self (h : xs.Pairwise fun x y => Apart l (name x) (name y) ∧ Apart l (name y) (name x)) (hx : x ∈ xs) :
    findName l name (name x) xs = some (some x) := by
  induction xs with
  | nil => cases hx
  | cons y ys ih =>
    obtain ⟨hy, hys⟩ := List.pairwise_cons.mp h
    rw [findName]
    obtain rfl | hx := List.mem_cons.mp hx
    · simp [stricmp_self l]
    · obtain ⟨d, hd, hne⟩ := (hy x hx).2
      simp only [hd, if_neg hne]
      exact ih hys hx

/-- The comparison of the empty name with another one is always defined. -/
theorem findName_nil (name : α → Bytes) (xs : List α) :
    findName l name [] xs = some (xs.find? fun x => noCaseStringEq l [] (name x)) := by
  induction xs with
  | nil => rfl
  | cons x xs ih =>
    obtain ⟨d, hd⟩ : ∃ d, stricmp l [] (name x) = some d := ⟨_, stricmp_nil l (name x)⟩
    rw [findName, hd, List.find?_cons, noCaseStringEq, hd]
    by_cases hzero : d = 0
    · simp [hzero]
    · simp [hzero, ih]

end Names

abbrev Named (n : DirectoryNode) (children : List Directory) : Prop :=
  Siblings l File.name n.files ∧ Siblings l (fun d : Directory => d.label.name) children

theorem findDirectory_some {key : Bytes} {directories : List Directory} {d : Directory}
    (h : findDirectory l bucket key directories = some (some d)) :
    d ∈ directories ∧ noCaseStringEq l key d.label.name = true := by
  obtain ⟨hmem, heq⟩ := findName_some l h
  exact ⟨(List.mem_filter.mp hmem).1, heq⟩

theorem findDirectory_self {directories : List Directory} {d : Directory}
    (h : Siblings l (fun d : Directory => d.label.name) directories) (hd : d ∈ directories) :
    findDirectory l bucket d.label.name directories = some (some d) := by
  apply findName_self l (h.apart.filter _)
  simp [hd]

theorem Holds.named {d : Directory} {names : List Bytes} {f : File} (h : Holds d names f) (hd : d.All (Named l)) :
    ∀ name ∈ names, name ≠ [] ∧ byte '/' ∉ name := by
  induction h with
  | file hf =>
    cases hd with
    | node hn _ => simpa using ⟨hn.1.ne _ hf, hn.1.noSlash _ hf⟩
  | directory hc _ ih =>
    cases hd with
    | node hn hchildren => exact List.forall_mem_cons.mpr ⟨⟨hn.2.ne _ hc, hn.2.noSlash _ hc⟩, ih (hchildren _ hc)⟩

theorem Holds.mem_allFiles {d : Directory} {names : List Bytes} {f : File} (h : Holds d names f) :
    f ∈ Directory.allFiles d := by
  induction h with
  | file hf => simp [Directory.allFiles, hf]
  | directory hc _ ih =>
    rw [Directory.allFiles, List.mem_append]
    exact Or.inl (Directory.mem_allFilesOf.mpr ⟨_, hc, ih⟩)

theorem exists_holds {d : Directory} {f : File} (h : f ∈ Directory.allFiles d) : ∃ names, Holds d names f := by
  induction d using Tree.induction with
  | h n children ih =>
    rw [Directory.allFiles, List.mem_append] at h
    obtain h | hf := h
    · obtain ⟨c, hc, hf⟩ := Directory.mem_allFilesOf.mp h
      obtain ⟨names, hnames⟩ := ih c hc hf
      exact ⟨_, .directory hc hnames⟩
    · exact ⟨_, .file hf⟩

/-- The loop comes to a file by the names on the way to it. -/
theorem Holds.splitLoop_eq {d : Directory} {names : List Bytes} {f : File} (h : Holds d names f) (hd : d.All (Named l)) :
    ∃ v, splitLoop l bucket d names = some (some v) ∧ findName l File.name v.2 v.1.label.files = some (some f) := by
  induction h with
  | @file n children f hf =>
    cases hd with
    | node hn _ => exact ⟨_, rfl, findName_self l hn.1.apart hf⟩
  | @directory n children c names f hc hbelow ih =>
    cases hd with
    | node hn hchildren =>
      obtain ⟨v, hv, hfound⟩ := ih (hchildren c hc)
      refine ⟨v, ?_, hfound⟩
      obtain ⟨key, keys, rfl⟩ := List.exists_cons_of_ne_nil hbelow.ne_nil
      rw [splitLoop, Tree.children_node, findDirectory_self l bucket hn.2 hc]
      exact hv

abbrev Misses (n : DirectoryNode) (children : List Directory) : Prop :=
  (∀ f ∈ n.files, noCaseStringEq l [] f.name = false) ∧
    ∀ d', findDirectory l bucket [] children = some (some d') → Directory.allFiles d' = []

/-- A file that the loop comes to is there, on a way of the same names but for the case. -/
theorem holds_of_splitLoop {d : Directory} {keys : List Bytes} {v : Directory × Bytes} {f : File}
    (hloop : splitLoop l bucket d keys = some (some v)) (hf : findName l File.name v.2 v.1.label.files = some (some f))
    (hd : d.All (Named l)) (hmiss : d.All (Misses l bucket)) :
    ∃ names, Holds d names f ∧
      List.Forall₂ (fun key name => noCaseStringEq l key name = true ∧ (key = [] ↔ name = [])) keys names := by
  fun_induction splitLoop l bucket d keys with
  | case1 => cases hloop
  | case2 d file =>
    cases hloop
    obtain ⟨hmem, heq⟩ := findName_some l hf
    cases hd with
    | node hn _ =>
      cases hmiss with
      | node hm _ =>
        refine ⟨_, .file hmem, List.Forall₂.cons ⟨heq, ?_⟩ List.Forall₂.nil⟩
        refine iff_of_false ?_ (hn.1.ne f hmem)
        rintro rfl
        exact absurd heq (by simp [hm.1 f hmem])
  | case3 => cases hloop
  | case4 => cases hloop
  | case5 d key key' keys d' hfound ih =>
    obtain ⟨hmem, heq⟩ := findDirectory_some l bucket hfound
    cases hd with
    | node hn hchildren =>
      cases hmiss with
      | node hm hmisses =>
        obtain ⟨names, hholds, hsame⟩ := ih hloop (hchildren d' hmem) (hmisses d' hmem)
        refine ⟨_, .directory hmem hholds, List.Forall₂.cons ⟨heq, ?_⟩ hsame⟩
        refine iff_of_false ?_ (hn.2.ne d' hmem)
        rintro rfl
        have hnone := hm.2 d' hfound
        exact absurd hholds.mem_allFiles (by simp [hnone])

theorem splitOn_path {root : Bytes} {keys : List Bytes} (hroot : byte '/' ∉ root) (hkeys : ∀ key ∈ keys, byte '/' ∉ key) :
    ([byte '/'].intercalate ([] :: root :: keys)).splitOn (byte '/') = [] :: root :: keys := by
  apply List.splitOn_intercalate
  · simpa using ⟨hroot, hkeys⟩
  · simp

theorem take_path_ne (root : Bytes) (keys : List Bytes) :
    ([byte '/'].intercalate ([] :: root :: keys)).take 4 ≠ str "TTH/" := by
  have htth : str "TTH/" = byte 'T' :: str "TH/" := by decide
  have hslash : byte '/' ≠ byte 'T' := by decide
  rw [List.intercalate_cons_cons, htth]
  simp [hslash]

/-- What a path is resolved to below a root. -/
theorem findFile_path {s : Share} (hs : WellNamed l s.directories) {d : Directory} (hd : d ∈ s.directories)
    {keys : List Bytes} (hne : keys ≠ []) (hkeys : ∀ key ∈ keys, byte '/' ∉ key) {v : Directory × Bytes}
    (hloop : splitLoop l bucket d keys = some (some v)) :
    findFile l bucket s ([byte '/'].intercalate ([] :: d.label.name :: keys)) =
      findName l File.name v.2 v.1.label.files := by
  obtain ⟨key, keys, rfl⟩ := List.exists_cons_of_ne_nil hne
  rw [findFile, if_neg (take_path_ne _ _), splitVirtual, splitOn_path (hs.roots.noSlash d hd) hkeys]
  simp only [if_neg (hs.roots.ne d hd), findDirectory_self l bucket hs.roots hd, hloop]

theorem exists_of_forall₂ {α β : Type} {R : α → β → Prop} {as : List α} {bs : List β} (h : List.Forall₂ R as bs) {a : α}
    (ha : a ∈ as) : ∃ b ∈ bs, R a b := by
  induction h with
  | nil => cases ha
  | cons hab _ ih =>
    obtain rfl | ha := List.mem_cons.mp ha
    · exact ⟨_, List.mem_cons_self, hab⟩
    · obtain ⟨b, hb, hr⟩ := ih ha
      exact ⟨b, List.mem_cons_of_mem _ hb, hr⟩

/-- No path with an empty part is that of a file. -/
theorem not_resolves_empty {s : Share} (hs : WellNamed l s.directories) (h : RoundTrip l bucket s) {d : Directory}
    (hd : d ∈ s.directories) {keys : List Bytes} (hkeys : ∀ key ∈ keys, byte '/' ∉ key) (hempty : [] ∈ keys)
    {v : Directory × Bytes} {f : File} (hloop : splitLoop l bucket d keys = some (some v)) :
    findName l File.name v.2 v.1.label.files ≠ some (some f) := by
  intro hf
  have hfound := findFile_path l bucket hs hd (List.ne_nil_of_mem hempty) hkeys hloop
  obtain ⟨path', hpath', hsame⟩ := h.2 f _ (take_path_ne _ _) (hfound.trans hf)
  obtain ⟨d', hd', names, hholds, rfl⟩ := mem_paths.mp hpath'
  have hnames := hholds.named l (hs.below d' hd')
  rw [SamePath, splitOn_path (hs.roots.noSlash d hd) hkeys,
    splitOn_path (hs.roots.noSlash d' hd') fun name hname => (hnames name hname).2] at hsame
  obtain ⟨-, hsame⟩ := List.forall₂_cons.mp hsame
  obtain ⟨-, hsame⟩ := List.forall₂_cons.mp hsame
  obtain ⟨name, hname, -, hiff⟩ := exists_of_forall₂ hsame hempty
  exact (hnames name hname).1 (hiff.mp rfl)

/-- The empty name finds nothing in a directory that the loop comes to. -/
theorem misses_of_roundTrip {s : Share} (hs : WellNamed l s.directories) (h : RoundTrip l bucket s) {root : Directory}
    (hroot : root ∈ s.directories) {d : Directory} (hd : d.All (Named l)) {keys : List Bytes}
    (hkeys : ∀ key ∈ keys, byte '/' ∉ key)
    (hreach : ∀ keys' ≠ [], splitLoop l bucket root (keys ++ keys') = splitLoop l bucket d keys') :
    d.All (Misses l bucket) := by
  induction hd generalizing keys with
  | @node n children hn hchildren ih =>
    refine Tree.All.node ⟨?_, ?_⟩ ?_
    · intro f hf
      rw [Bool.eq_false_iff]
      intro heq
      -- the path with an empty last part finds a file
      have hsome : (n.files.find? fun f => noCaseStringEq l [] f.name).isSome := by
        rw [List.find?_isSome]
        exact ⟨f, hf, heq⟩
      obtain ⟨g, hg⟩ := Option.isSome_iff_exists.mp hsome
      have hloop := hreach [[]] (by simp)
      have hkeys' : ∀ key ∈ keys ++ [[]], byte '/' ∉ key := by simpa [or_imp, forall_and] using hkeys
      apply not_resolves_empty l bucket hs h hroot hkeys' (by simp) hloop
      exact (findName_nil l File.name n.files).trans (congrArg some hg)
    · intro d' hfound
      obtain ⟨hmem, -⟩ := findDirectory_some l bucket hfound
      rw [List.eq_nil_iff_forall_not_mem]
      intro f hf
      obtain ⟨names, hholds⟩ := exists_holds hf
      obtain ⟨v, hv, hfile⟩ := hholds.splitLoop_eq l bucket (hchildren d' hmem)
      have hnames := hholds.named l (hchildren d' hmem)
      obtain ⟨name, names, rfl⟩ := List.exists_cons_of_ne_nil hholds.ne_nil
      have hloop : splitLoop l bucket root (keys ++ [] :: name :: names) = some (some v) := by
        rw [hreach _ (by simp), splitLoop, Tree.children_node, hfound]
        exact hv
      refine not_resolves_empty l bucket hs h hroot ?_ (by simp) hloop hfile
      intro key hkey
      obtain hkey | hkey := List.mem_append.mp hkey
      · exact hkeys key hkey
      · obtain rfl | hkey := List.mem_cons.mp hkey
        · simp
        · exact (hnames key hkey).2
    · intro c hc
      have hkeys' : ∀ key ∈ keys ++ [c.label.name], byte '/' ∉ key := by
        intro key hkey
        obtain hkey | hkey := List.mem_append.mp hkey
        · exact hkeys key hkey
        · obtain rfl := List.mem_singleton.mp hkey
          exact hn.2.noSlash c hc
      apply ih c hc hkeys'
      · intro keys' hne
        obtain ⟨key, keys', rfl⟩ := List.exists_cons_of_ne_nil hne
        rw [List.append_assoc, hreach _ (by simp), List.singleton_append, splitLoop, Tree.children_node,
          findDirectory_self l bucket hn.2 hc]

theorem splitVirtual_some {directories : List Directory} {path : Bytes} {v : Directory × Bytes}
    (h : splitVirtual l bucket directories path = some (some v)) :
    ∃ root key keys d, path.splitOn (byte '/') = [] :: root :: key :: keys ∧ root ≠ [] ∧
      findDirectory l bucket root directories = some (some d) ∧ splitLoop l bucket d (key :: keys) = some (some v) := by
  rw [splitVirtual] at h
  split at h
  next root key keys hparts =>
    split at h
    next => cases h
    next hne =>
      split at h
      next => cases h
      next => cases h
      next d hd => exact ⟨root, key, keys, d, hparts, hne, hd, h⟩
  next => cases h

/-- Case-insensitive ASCII, where a `wchar_t` has 16 bits. -/
def ascii16 : Util.Locale := { Util.ascii with wcharBits := 16, wide := by decide }

/-- A file of this name, in one shared directory. -/
def shareOf (name : Bytes) : Share :=
  { start with directories := [.node ⟨str "share", none, [⟨1, name, none, none, 5⟩], 5⟩ []] }

theorem wellNamed_shareOf {name : Bytes} (hne : name ≠ []) (hslash : byte '/' ∉ name) :
    WellNamed l (shareOf name).directories := by
  have hroot : str "share" ≠ [] ∧ byte '/' ∉ str "share" := by decide
  refine ⟨⟨?_, ?_, ?_⟩, ?_⟩
  · simpa [shareOf] using hroot.1
  · simpa [shareOf] using hroot.2
  · simp [shareOf]
  · intro d hd
    obtain rfl := List.mem_singleton.mp hd
    refine Tree.All.node ⟨⟨?_, ?_, ?_⟩, ⟨?_, ?_, ?_⟩⟩ ?_ <;> simp [hne, hslash]

end Dcpp.ShareManager.Virtual
