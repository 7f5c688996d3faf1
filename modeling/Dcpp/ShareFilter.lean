import Dcpp.ShareIndexed
import Dcpp.ShareSearch

-- Whether the filter lets through what a search finds, over the runs of the `ShareManager`.
namespace Dcpp.ShareManager

open Directory

variable (p : Platform) (c : Settings)

namespace Directory

mutual

/-- The names of a directory and of those below it. -/
def nodeNames : Directory → List Bytes
  | .node d directories => d.name :: nodeNamesOf directories

def nodeNamesOf : List Directory → List Bytes
  | [] => []
  | d :: directories => nodeNames d ++ nodeNamesOf directories

end

theorem nodeNames_setFiles (files : List File) (dir : Directory) : nodeNames (setFiles files dir) = nodeNames dir := by
  obtain ⟨d, directories⟩ := dir
  rw [setFiles, nodeNames, nodeNames]

theorem nodeNamesOf_modifyFirst {g : Directory → Directory} (hg : ∀ d, nodeNames (g d) = nodeNames d)
    (q : Directory → Bool) (ds : List Directory) : nodeNamesOf (Keyed.modifyFirst q g ds) = nodeNamesOf ds := by
  induction ds with
  | nil => rfl
  | cons d ds ih =>
    rw [Keyed.modifyFirst]
    split
    · rw [nodeNamesOf, nodeNamesOf, hg]
    · rw [nodeNamesOf, nodeNamesOf, ih]

/-- What only changes the files of the directory at the end of the way changes no name of a directory. -/
theorem nodeNames_modifyBelow {g : Directory → Directory} (hg : ∀ d, nodeNames (g d) = nodeNames d)
    (names : List Bytes) (dir : Directory) : nodeNames (modifyBelow g names dir) = nodeNames dir := by
  induction names generalizing dir with
  | nil => exact hg dir
  | cons name names ih =>
    obtain ⟨d, directories⟩ := dir
    rw [modifyBelow, setChildren, nodeNames, nodeNames, Tree.children_node, nodeNamesOf_modifyFirst ih]

mutual

theorem nodeNames_mapFiles (g : File → File) (dir : Directory) : nodeNames (mapFiles g dir) = nodeNames dir := by
  obtain ⟨d, directories⟩ := dir
  rw [mapFiles, nodeNames, nodeNames, nodeNamesOf_mapFilesOf g directories]

theorem nodeNamesOf_mapFilesOf (g : File → File) (directories : List Directory) :
    nodeNamesOf (mapFilesOf g directories) = nodeNamesOf directories := by
  cases directories with
  | nil => rfl
  | cons d directories =>
    rw [mapFilesOf, nodeNamesOf, nodeNamesOf, nodeNames_mapFiles g d, nodeNamesOf_mapFilesOf g directories]

end

end Directory

/-- The filter lets a name through. -/
def Passes (b : BloomFilter) (name : Bytes) : Prop := b.match BLOOM (p.toLower name) = true

instance (b : BloomFilter) (name : Bytes) : Decidable (Passes p b name) :=
  inferInstanceAs (Decidable (b.match BLOOM (p.toLower name) = true))

/-- The filter lets the names of the directories through, and those of the files that have a hash. -/
structure Covers (b : BloomFilter) (names : List Bytes) (files : List File) : Prop where
  directories : ∀ name ∈ names, Passes p b name
  files : ∀ f ∈ files, f.tth.isSome → Passes p b f.name

/-- What the one filter lets through the other one does. -/
def Grows (b b' : BloomFilter) : Prop := ∀ s, b.match BLOOM s = true → b'.match BLOOM s = true

theorem grows_refl (b : BloomFilter) : Grows b b := fun _ h => h

theorem Grows.trans {b b' b'' : BloomFilter} (h : Grows b b') (h' : Grows b' b'') : Grows b b'' :=
  fun s hs => h' s (h s hs)

theorem grows_add (b : BloomFilter) (s : Bytes) : Grows b (b.add BLOOM s) := fun _ h => BloomFilter.match_add h s

namespace Covers

variable {p} {b b' : BloomFilter} {names names' : List Bytes} {files files' : List File}

theorem grows (h : Covers p b names files) (hb : Grows b b') : Covers p b' names files :=
  ⟨fun name hn => hb _ (h.directories name hn), fun f hf htth => hb _ (h.files f hf htth)⟩

theorem append (h : Covers p b names files) (h' : Covers p b names' files') :
    Covers p b (names ++ names') (files ++ files') := by
  constructor
  · intro name hn
    obtain hn | hn := List.mem_append.mp hn
    · exact h.directories name hn
    · exact h'.directories name hn
  · intro f hf
    obtain hf | hf := List.mem_append.mp hf
    · exact h.files f hf
    · exact h'.files f hf

theorem nil : Covers p b [] [] :=
  ⟨fun _ h => absurd h List.not_mem_nil, fun _ h => absurd h List.not_mem_nil⟩

end Covers

/-- When two files have the same hash, both have a real path, which a message about the duplicate needs. -/
def Reported (ok : Nat → Bool) (f g : File) : Prop := f.tth.isSome → f.tth = g.tth → ok f.id = true ∧ ok g.id = true

instance (ok : Nat → Bool) (f g : File) : Decidable (Reported ok f g) :=
  inferInstanceAs (Decidable (f.tth.isSome → f.tth = g.tth → ok f.id = true ∧ ok g.id = true))

theorem reported_symm (ok : Nat → Bool) {f g : File} (h : Reported ok f g) : Reported ok g f := by
  intro htth heq
  obtain ⟨hf, hg⟩ := h (heq ▸ htth) heq.symm
  exact ⟨hg, hf⟩

/-- No exception keeps a duplicate among the files. -/
def Reports (ok : Nat → Bool) (files : List File) : Prop := c.listDupes = true ∨ files.Pairwise (Reported ok)

instance (ok : Nat → Bool) (files : List File) : Decidable (Reports c ok files) :=
  inferInstanceAs (Decidable (c.listDupes = true ∨ files.Pairwise (Reported ok)))

theorem Reports.mono {ok : Nat → Bool} {files files' : List File} (h : Reports c ok files)
    (hsub : files'.Subperm files) : Reports c ok files' := by
  obtain h | h := h
  · exact Or.inl h
  · obtain ⟨l, hperm, hl⟩ := hsub
    exact Or.inr ((hperm.pairwise_iff (reported_symm ok)).mp (h.sublist hl))

/-- A file that stays is let through when it has a hash. -/
theorem updateFile_covers {ok : Nat → Bool} {f : File} {ix : Indices} {files : List File}
    (h : Indexed files ix.tthIndex) (hr : Reports c ok (f :: files)) :
    Grows ix.bloom (updateFile p c ok f ix).2.2.bloom ∧
      Covers p (updateFile p c ok f ix).2.2.bloom [] (if (updateFile p c ok f ix).1 then [f] else []) := by
  obtain ⟨htth, hu⟩ | ⟨tth, counts, htth, hu⟩ | ⟨tth, j, htth, hl, hdupes, hu⟩ := updateFile_cases p c ok f ix
  · rw [hu]
    refine ⟨grows_refl _, fun _ hn => absurd hn List.not_mem_nil, fun g hg hsome => ?_⟩
    rw [List.mem_singleton.mp hg, htth] at hsome
    cases hsome
  · rw [hu]
    refine ⟨grows_add _ _, fun _ hn => absurd hn List.not_mem_nil, fun g hg _ => ?_⟩
    rw [List.mem_singleton.mp hg]
    exact BloomFilter.add_match BLOOM _ _
  · obtain ⟨g, hg, rfl, hgtth⟩ := h.sound tth j hl
    -- the exception is the only way for a duplicate to stay
    have hok : ok f.id = true ∧ ok g.id = true := by
      obtain hr | hr := hr
      · rw [hdupes] at hr
        cases hr
      · exact List.rel_of_pairwise_cons hr hg (by rw [htth]; rfl) (htth.trans hgtth.symm)
    rw [hu, hok.1, hok.2]
    exact ⟨grows_refl _, Covers.nil⟩

theorem updateFiles_covers {ok : Nat → Bool} (fs : List File) (size : Int64) {ix : Indices} {files : List File}
    (h : Indexed files ix.tthIndex) (hr : Reports c ok (fs ++ files)) :
    Grows ix.bloom (updateFiles p c ok fs size ix).2.2.bloom ∧
      Covers p (updateFiles p c ok fs size ix).2.2.bloom [] (updateFiles p c ok fs size ix).1 := by
  induction fs generalizing files size ix with
  | nil => exact ⟨grows_refl _, Covers.nil⟩
  | cons f fs ih =>
    obtain ⟨hgrow, hf⟩ := updateFile_covers p c h
      (hr.mono c (((List.sublist_append_right fs files).cons_cons f).subperm))
    have hsub : (fs ++ if (updateFile p c ok f ix).1 then f :: files else files).Subperm (f :: fs ++ files) := by
      split
      next => exact List.perm_middle.subperm
      next => exact (List.sublist_cons_self f _).subperm
    obtain ⟨hgrows, hfs⟩ := ih (if (updateFile p c ok f ix).2.1 then size + f.size else size)
      (updateFile_indexed p c ok f h) (hr.mono c hsub)
    refine ⟨hgrow.trans hgrows, ?_⟩
    have hboth := (hf.grows hgrows).append hfs
    have hlist : ∀ rest, (if (updateFile p c ok f ix).1 then f :: rest else rest) =
        (if (updateFile p c ok f ix).1 then [f] else []) ++ rest := by
      intro rest
      split <;> rfl
    rw [updateFiles]
    dsimp only
    rw [hlist]
    exact hboth

mutual

/-- After the indices have been updated the filter lets through every name below the directory. -/
theorem updateIndices_covers {ok : Nat → Bool} {ix : Indices} {files : List File} (h : Indexed files ix.tthIndex)
    (dir : Directory) (hr : Reports c ok (allFiles dir ++ files)) :
    Grows ix.bloom (updateIndices p c ok ix dir).2.bloom ∧
      Covers p (updateIndices p c ok ix dir).2.bloom (nodeNames (updateIndices p c ok ix dir).1)
        (allFiles (updateIndices p c ok ix dir).1) := by
  obtain ⟨d, directories⟩ := dir
  rw [updateIndices, allFiles_node, nodeNames]
  let ix' : Indices := { ix with bloom := ix.bloom.add BLOOM (p.toLower d.name) }
  rw [allFiles_node, List.append_assoc] at hr
  have hsubfiles : (allFilesOf directories ++ files).Subperm (allFilesOf directories ++ (d.files ++ files)) :=
    ((List.sublist_append_right d.files files).append_left _).subperm
  have h' : Indexed files ix'.tthIndex := h
  obtain ⟨hgrow, hsub⟩ := updateDirectories_covers h' directories (hr.mono c hsubfiles)
  have hix := updateDirectories_indexed p c ok ix' h directories
  have hown : (d.files ++ (allFilesOf (updateDirectories p c ok ix' directories).1 ++ files)).Subperm
      (allFilesOf directories ++ (d.files ++ files)) := by
    have hkept := (updateDirectories_sublist p c ok ix' directories).append_right (d.files ++ files)
    refine List.Perm.subperm ?_ |>.trans hkept.subperm
    rw [← List.append_assoc, ← List.append_assoc]
    exact List.perm_append_comm.append_right files
  obtain ⟨hgrows, hfiles⟩ := updateFiles_covers p c d.files 0 hix (hr.mono c hown)
  have hname : Passes p ix'.bloom d.name := BloomFilter.add_match BLOOM _ _
  refine ⟨(grows_add _ _).trans (hgrow.trans hgrows), ?_⟩
  have hboth := (hsub.grows hgrows).append hfiles
  rw [List.append_nil] at hboth
  refine ⟨fun name hn => ?_, hboth.files⟩
  obtain rfl | hn := List.mem_cons.mp hn
  · exact hgrows _ (hgrow _ hname)
  · exact hboth.directories name hn

theorem updateDirectories_covers {ok : Nat → Bool} {ix : Indices} {files : List File}
    (h : Indexed files ix.tthIndex) (directories : List Directory)
    (hr : Reports c ok (allFilesOf directories ++ files)) :
    Grows ix.bloom (updateDirectories p c ok ix directories).2.bloom ∧
      Covers p (updateDirectories p c ok ix directories).2.bloom
        (nodeNamesOf (updateDirectories p c ok ix directories).1)
        (allFilesOf (updateDirectories p c ok ix directories).1) := by
  cases directories with
  | nil => exact ⟨grows_refl _, Covers.nil⟩
  | cons d directories =>
    rw [updateDirectories, nodeNamesOf, allFilesOf]
    rw [allFilesOf, List.append_assoc] at hr
    have hfirst : (allFiles d ++ files).Subperm (allFiles d ++ (allFilesOf directories ++ files)) :=
      ((List.sublist_append_right _ files).append_left _).subperm
    obtain ⟨hgrow, hd⟩ := updateIndices_covers h d (hr.mono c hfirst)
    have hrest : (allFilesOf directories ++ (allFiles (updateIndices p c ok ix d).1 ++ files)).Subperm
        (allFiles d ++ (allFilesOf directories ++ files)) := by
      have hkept := (updateIndices_sublist p c ok ix d).append_right (allFilesOf directories ++ files)
      refine List.Perm.subperm ?_ |>.trans hkept.subperm
      rw [← List.append_assoc, ← List.append_assoc]
      exact List.perm_append_comm.append_right files
    obtain ⟨hgrows, hds⟩ := updateDirectories_covers (updateIndices_indexed p c ok ix h d) directories (hr.mono c hrest)
    exact ⟨hgrow.trans hgrows, (hd.grows hgrows).append hds⟩

end

/-- A term is found in the name of a directory or in that of a file that has a hash. -/
def Found (names : List Bytes) (files : List File) (term : StringSearch) : Prop :=
  (∃ name ∈ names, term.match p.toLower name = true) ∨
    ∃ f ∈ files, f.tth.isSome ∧ term.match p.toLower f.name = true

theorem Found.mono {names names' : List Bytes} {files files' : List File} {term : StringSearch}
    (h : Found p names files term) (hn : names ⊆ names') (hf : files ⊆ files') : Found p names' files' term := by
  obtain ⟨name, hname, hm⟩ | ⟨f, hmem, hm⟩ := h
  · exact Or.inl ⟨name, hn hname, hm⟩
  · exact Or.inr ⟨f, hf hmem, hm⟩

/-- What is found is let through, unless a NUL ends the term too early. -/
theorem Covers.found {b : BloomFilter} {names : List Bytes} {files : List File} (h : Covers p b names files)
    {term : StringSearch} (hterm : 0 ∉ term.pattern) (hf : Found p names files term) :
    b.match BLOOM term.pattern = true := by
  obtain ⟨name, hname, hm⟩ | ⟨f, hmem, htth, hm⟩ := hf
  · exact BloomFilter.match_infix (StringSearch.infix_of_match hterm hm) (h.directories name hname)
  · exact BloomFilter.match_infix (StringSearch.infix_of_match hterm hm) (h.files f hmem htth)

namespace Directory

/-- A term that is not left below a directory is found in its name. -/
theorem mem_newTerms {incl : List StringSearch} {term : StringSearch} (h : term ∈ incl) (name : Bytes) :
    term ∈ newTerms p incl name ∨ term.match p.toLower name = true := by
  have hfold : ∀ (ts terms : List StringSearch), term ∈ terms →
      term ∈ ts.foldl (fun terms term => if term.match p.toLower name then terms.filter (· ≠ term) else terms) terms ∨
        term.match p.toLower name = true := by
    intro ts
    induction ts with
    | nil => exact fun _ hmem => Or.inl hmem
    | cons t ts ih =>
      intro terms hmem
      rw [List.foldl_cons]
      split
      next ht =>
        by_cases heq : term = t
        · exact Or.inr (heq ▸ ht)
        · exact ih _ (List.mem_filter.mpr ⟨hmem, decide_eq_true heq⟩)
      next => exact ih _ hmem
  exact hfold incl incl h

theorem matchFile_some {incl : List StringSearch} {query : SearchQuery} {i : File} {tth : Encoder.HashValue}
    (h : (matchFile p incl query i).1 = some tth) :
    i.tth.isSome ∧ ∀ term ∈ incl, term.match p.toLower i.name = true := by
  cases htth : i.tth with
  | none =>
    simp only [matchFile, htth] at h
    cases h
  | some root =>
    refine ⟨rfl, ?_⟩
    simp only [matchFile, htth] at h
    split at h
    next => cases h
    split at h
    next => cases h
    split at h
    next => cases h
    split at h
    next => cases h
    next hall =>
      rw [Bool.not_eq_true', Bool.not_eq_false] at hall
      exact List.all_eq_true.mp hall

/-- The files add no result unless the terms are in the name of one of them. -/
theorem searchFiles_cases (maxResults : Nat) (fullName : Bytes) (incl : List StringSearch)
    (results : List SearchResult) (query : SearchQuery) (files : List File) :
    (searchFiles p maxResults fullName incl results query files).1 = results ∨
      ∀ term ∈ incl, Found p [] files term := by
  induction files generalizing results query with
  | nil => exact Or.inl rfl
  | cons i files ih =>
    rw [searchFiles]
    split
    next hm =>
      obtain h | h := ih results _
      · exact Or.inl h
      · exact Or.inr fun term hterm => (h term hterm).mono p (List.Subset.refl _) (List.subset_cons_self i files)
    next hm =>
      obtain ⟨htth, hall⟩ := matchFile_some p (congrArg Prod.fst hm)
      exact Or.inr fun term hterm => Or.inr ⟨i, List.mem_cons_self, htth, hall term hterm⟩

mutual

/-- A search adds no result unless each term is found. -/
theorem search_cases (maxResults : Nat) (parent : Bytes) (incl : List StringSearch) (results : List SearchResult)
    (query : SearchQuery) (dir : Directory) :
    (search p maxResults parent incl results query dir).1 = results ∨
      ∀ term ∈ incl, Found p (nodeNames dir) (allFiles dir) term := by
  obtain ⟨d, directories⟩ := dir
  -- what is found below the directory is enough for the terms that are left
  have hleft : (∀ term ∈ newTerms p incl d.name, Found p (nodeNamesOf directories)
        (allFilesOf directories ++ d.files) term) →
      ∀ term ∈ incl, Found p (nodeNames (.node d directories)) (allFiles (.node d directories)) term := by
    intro h term hterm
    rw [nodeNames, allFiles_node]
    obtain hnew | hm := mem_newTerms p hterm d.name
    · exact (h term hnew).mono p (List.subset_cons_self _ _) (List.Subset.refl _)
    · exact Or.inl ⟨d.name, List.mem_cons_self, hm⟩
  rw [search]
  split
  next => exact Or.inl rfl
  next =>
    dsimp only
    by_cases hempty : newTerms p incl d.name = []
    · refine Or.inr (hleft fun term hterm => ?_)
      rw [hempty] at hterm
      cases hterm
    · simp only [hempty, false_and, if_false]
      have hfiles : ((if query.isDirectory = true then (results, query, false) else
            searchFiles p maxResults (parent ++ d.name ++ [byte '\\']) (newTerms p incl d.name) results query
              d.files).1 = results) ∨ ∀ term ∈ newTerms p incl d.name, Found p [] d.files term := by
        split
        next => exact Or.inl rfl
        next => exact searchFiles_cases p _ _ _ _ _ _
      generalize (if query.isDirectory = true then (results, query, false) else
        searchFiles p maxResults (parent ++ d.name ++ [byte '\\']) (newTerms p incl d.name) results query d.files) = r
        at hfiles ⊢
      obtain hfiles | hfiles := hfiles
      · split
        next => exact Or.inl hfiles
        next =>
          rw [hfiles]
          obtain hsub | hsub := searchDirectories_cases maxResults _ (newTerms p incl d.name) results _ directories
          · exact Or.inl hsub
          · exact Or.inr (hleft fun term hterm =>
              (hsub term hterm).mono p (List.Subset.refl _) (List.subset_append_left _ _))
      · exact Or.inr (hleft fun term hterm =>
          (hfiles term hterm).mono p (List.nil_subset _) (List.subset_append_right _ _))

theorem searchDirectories_cases (maxResults : Nat) (parent : Bytes) (incl : List StringSearch)
    (results : List SearchResult) (query : SearchQuery) (directories : List Directory) :
    (searchDirectories p maxResults parent incl results query directories).1 = results ∨
      ∀ term ∈ incl, Found p (nodeNamesOf directories) (allFilesOf directories) term := by
  cases directories with
  | nil => exact Or.inl rfl
  | cons d directories =>
    rw [searchDirectories, nodeNamesOf, allFilesOf]
    obtain hd | hd := search_cases maxResults parent incl results query d
    · rw [hd]
      split
      next => exact Or.inl hd
      next =>
        obtain hrest | hrest := searchDirectories_cases maxResults parent incl results _ directories
        · exact Or.inl hrest
        · exact Or.inr fun term hterm =>
            (hrest term hterm).mono p (List.subset_append_right _ _) (List.subset_append_right _ _)
    · exact Or.inr fun term hterm =>
        (hd term hterm).mono p (List.subset_append_left _ _) (List.subset_append_left _ _)

end

end Directory

/-- The filter lets through all that a search may look at. -/
structure Filtered (s : Share) : Prop where
  fresh : Fresh s.nextId (allFilesOf s.directories)
  covers : Covers p s.indices.bloom (nodeNamesOf s.directories) (allFilesOf s.directories)

/-- Where the filter lets through all that a search may look at, it changes no search whose terms have no NUL in
them. -/
theorem Filtered.search_eq {s : Share} (h : Filtered p s) {query : SearchQuery}
    (hq : ∀ i ∈ query.includeInit, 0 ∈ i.pattern → s.indices.bloom.match BLOOM i.pattern = true) (maxResults : Nat) :
    search p s query maxResults = searchWith p (fun _ => true) s query maxResults := by
  cases hroot : query.root with
  | some root => simp only [search, searchWith, hroot]
  | none =>
    have htrue : (query.includeInit.all fun _ => true) = true := List.all_eq_true.mpr fun _ _ => rfl
    simp only [search, searchWith, hroot, htrue, if_true]
    split
    next => rfl
    next hall =>
      obtain hnone | hfound := searchDirectories_cases p maxResults [] query.includeInit [] query s.directories
      · exact hnone.symm
      · refine absurd (List.all_eq_true.mpr fun i hi => ?_) hall
        by_cases hnul : 0 ∈ i.pattern
        · exact hq i hi hnul
        · exact h.covers.found p hnul (hfound i hi)

theorem start_filtered : Filtered p start := ⟨start_exact.fresh, Covers.nil⟩

/-- No exception keeps a duplicate in the share when its indices are rebuilt. -/
def Rebuilds (found : Bytes → Bool) (s : Share) : Prop :=
  Reports c (resolves p found s.shares s.directories) (allFilesOf s.directories)

instance (found : Bytes → Bool) (s : Share) : Decidable (Rebuilds p c found s) :=
  inferInstanceAs (Decidable (Reports c (resolves p found s.shares s.directories) (allFilesOf s.directories)))

theorem rebuildIndices_filtered {found : Bytes → Bool} {s : Share} (h : Fresh s.nextId (allFilesOf s.directories))
    (hr : Rebuilds p c found s) : Filtered p (rebuildIndices p c found s) := by
  refine ⟨rebuildIndices_fresh p c h found, ?_⟩
  let cleared : Indices := ⟨[], s.indices.bloom.clear⟩
  have hcleared : Indexed [] cleared.tthIndex := indexed_nil
  refine (updateDirectories_covers p c hcleared s.directories ?_).2
  rw [List.append_nil]
  exact hr

/-- The condition on an event: no exception ends a merge or keeps a duplicate, and the name of a file that comes with a
hash or gets its first one is let through already. -/
def Announced (s : Share) : Settings × Event → Prop
  | (c, .addDirectory fs realPath virtualName) =>
    let r := added p c fs s realPath virtualName
    r.2 = false ∧ Rebuilds p c fs.found r.1
  | (c, .removeDirectory fs realPath) =>
    ∀ i ∈ s.shares.find? fun i => i.1 = realPath,
      let r := removed p c fs s realPath i.2
      r.2 = false ∧ Rebuilds p c fs.found r.1
  | (c, .refresh fs dirs) =>
    let r := shareAll p c fs { s with directories := [] } dirs
    r.2 = false → Rebuilds p c fs.found r.1
  | (c, .fileMoved realPath size tth) =>
    c.addFinishedInstantly = true → tth.isSome → ∀ n ∈ size, ∀ d ∈ getDirectory p s realPath,
      Passes p s.indices.bloom
        (validateName p d (Util.getFilePath realPath) ⟨s.nextId, Util.getFileName realPath, none, tth, n⟩).name
  | (_, .tthDone realPath _) => ∀ f ∈ getFile p s realPath, f.tth = none → Passes p s.indices.bloom f.name

instance decidableAnnounced (s : Share) : (i : Settings × Event) → Decidable (Announced p s i)
  | (c, .addDirectory fs realPath virtualName) =>
    inferInstanceAs (Decidable ((added p c fs s realPath virtualName).2 = false ∧
      Rebuilds p c fs.found (added p c fs s realPath virtualName).1))
  | (c, .removeDirectory fs realPath) =>
    inferInstanceAs (Decidable (∀ i ∈ s.shares.find? fun i => i.1 = realPath,
      (removed p c fs s realPath i.2).2 = false ∧ Rebuilds p c fs.found (removed p c fs s realPath i.2).1))
  | (c, .refresh fs dirs) =>
    inferInstanceAs (Decidable ((shareAll p c fs { s with directories := [] } dirs).2 = false →
      Rebuilds p c fs.found (shareAll p c fs { s with directories := [] } dirs).1))
  | (c, .fileMoved realPath size tth) =>
    inferInstanceAs (Decidable (c.addFinishedInstantly = true → tth.isSome → ∀ n ∈ size,
      ∀ d ∈ getDirectory p s realPath, Passes p s.indices.bloom
        (validateName p d (Util.getFilePath realPath) ⟨s.nextId, Util.getFileName realPath, none, tth, n⟩).name))
  | (_, .tthDone realPath _) =>
    inferInstanceAs (Decidable (∀ f ∈ getFile p s realPath, f.tth = none → Passes p s.indices.bloom f.name))

theorem fileMoved_names (s : Share) (realPath : Bytes) (size : Option Int64) (tth : Option Encoder.HashValue) :
    nodeNamesOf (fileMoved p c s realPath size tth).directories = nodeNamesOf s.directories := by
  by_cases hadd : c.addFinishedInstantly = true
  · simp only [fileMoved, hadd, Bool.not_true, Bool.false_eq_true, if_false]
    split
    next =>
      split
      next => exact nodeNamesOf_modifyFirst (nodeNames_modifyBelow (fun d => nodeNames_setFiles _ d) _) _ _
      next => rfl
    next => rfl
  · simp only [fileMoved, hadd, Bool.not_false, if_true]

theorem fileMoved_filtered {s : Share} (h : Filtered p s) {realPath : Bytes} {size : Option Int64}
    {tth : Option Encoder.HashValue} (hm : Announced p s (c, .fileMoved realPath size tth)) :
    Filtered p (fileMoved p c s realPath size tth) := by
  have hnames := fileMoved_names p c s realPath size tth
  obtain heq | ⟨n, d, hadd, rfl, hd, hix, hid, hgain⟩ := fileMoved_cases p c s realPath size tth
  · rw [heq]
    exact h
  · constructor
    · rw [hid]
      exact h.fresh.gains (validateName_id p d _ _) hgain
    · rw [hix, hnames]
      refine ⟨h.covers.directories, fun f hf htth => ?_⟩
      obtain rfl | hf := mem_of_gains hgain hf
      · rw [validateName_tth] at htth
        exact hm hadd htth n rfl d hd
      · exact h.covers.files f hf htth

theorem tthDone_filtered {s : Share} (h : Filtered p s) {realPath : Bytes} {root : Encoder.HashValue}
    (hm : Announced p s (c, .tthDone realPath root)) : Filtered p (tthDone p s realPath root) := by
  rw [tthDone]
  split
  next => exact h
  next f hf =>
    have hmem := getFile_mem hf
    have hpasses : Passes p s.indices.bloom f.name := by
      cases htth : f.tth with
      | none => exact hm f hf htth
      | some tth => exact h.covers.files f hmem (by rw [htth]; rfl)
    constructor
    · rw [allFilesOf_mapFilesOf]
      exact h.fresh.rehash f.id root
    · rw [allFilesOf_mapFilesOf, nodeNamesOf_mapFilesOf]
      refine ⟨h.covers.directories, fun g' hg' htth => ?_⟩
      obtain ⟨g, hg, rfl⟩ := List.mem_map.mp hg'
      by_cases hid : g.id = f.id
      · obtain rfl := List.inj_on_of_nodup_map (Multiset.coe_nodup.mp h.fresh.nodup) hg hmem hid
        rw [if_pos rfl]
        exact hpasses
      · rw [if_neg hid] at htth ⊢
        exact h.covers.files g hg htth

/-- An event that meets the condition keeps in the filter what a search may look at. -/
theorem step_filtered {s t : Share} (h : Filtered p s) {i : Settings × Event} (hm : Announced p s i)
    (ht : step p i.1 s i.2 = some t) : Filtered p t := by
  obtain ⟨c, e⟩ := i
  cases e with
  | addDirectory fs realPath virtualName =>
    obtain rfl := Option.some.inj ht
    obtain ⟨hsome, hr⟩ : (added p c fs s realPath virtualName).2 = false ∧ _ := hm
    rw [addDirectory, if_neg (by rw [hsome]; exact Bool.false_ne_true)]
    exact rebuildIndices_filtered p c (added_fresh p c h.fresh _ _) hr
  | removeDirectory fs realPath =>
    obtain rfl := Option.some.inj ht
    rw [removeDirectory]
    split
    next => exact h
    next i hi =>
      obtain ⟨hsome, hr⟩ := hm i hi
      dsimp only
      rw [if_neg (by rw [hsome]; exact Bool.false_ne_true)]
      exact rebuildIndices_filtered p c (removed_fresh p c h.fresh _ _) hr
  | refresh fs dirs =>
    rw [step, refresh] at ht
    dsimp only at ht
    split at ht
    next => cases ht
    next hsome =>
      obtain rfl := Option.some.inj ht
      have hempty : Fresh s.nextId (allFilesOf []) := h.fresh.mono (Multiset.zero_le _)
      exact rebuildIndices_filtered p c (shareAll_fresh p c (s := { s with directories := [] }) hempty dirs)
        (hm (Bool.eq_false_iff.mpr hsome))
  | fileMoved realPath size tth =>
    obtain rfl := Option.some.inj ht
    exact fileMoved_filtered p c h hm
  | tthDone realPath root =>
    obtain rfl := Option.some.inj ht
    exact tthDone_filtered p c h hm

/-- In every state that a run whose events meet the condition leads to, the filter changes no search; a term with a NUL
in it has to be let through. -/
theorem run_search_eq {events : List (Settings × Event)} (hm : Runs.Each (change p) (Announced p) start events)
    {s : Share} (hs : Runs.run (change p) start events = some s) {query : SearchQuery}
    (hq : ∀ i ∈ query.includeInit, 0 ∈ i.pattern → s.indices.bloom.match BLOOM i.pattern = true) (maxResults : Nat) :
    search p s query maxResults = searchWith p (fun _ => true) s query maxResults :=
  (Runs.run_preserves (fun _ _ _ h hm ht => step_filtered p h hm ht) (start_filtered p) hm hs).search_eq p hq maxResults

/-- A directory with a file, whose hash is known or is not. -/
def oneFile (tth : Option Encoder.HashValue) : FileSystem where
  entries _ := [.node ⟨str "readme", false, false, false, 1, tth⟩ []]
  found _ := true
  isHidden _ := false

/-- The hash of the file comes after the file has been shared. -/
def hashedLater : List (Settings × Event) :=
  [(defaults, .addDirectory (oneFile none) (str "/s/") (str "share")),
    (defaults, .tthDone (str "/s/readme") (hashOf 1))]

def readme : SearchQuery := SearchQuery.ofAdc ascii SearchQuery.empty [str "ANreadme"]

def refreshed : List (Settings × Event) :=
  hashedLater.take 1 ++ [(defaults, .refresh (oneFile (hashOf 1)) [(str "/s/", str "share")]),
    (defaults, .tthDone (str "/s/readme") (hashOf 2))]

theorem run_search_eq_refreshed : Runs.Each (change ascii) (Announced ascii) start refreshed ∧
    ∃ s, Runs.run (change ascii) start refreshed = some s ∧ (search ascii s readme 10).length = 1 ∧
      search ascii s readme 10 = searchWith ascii (fun _ => true) s readme 10 := by
  have hm : Runs.Each (change ascii) (Announced ascii) start refreshed := by decide +kernel
  have hfound : ((Runs.run (change ascii) start refreshed).any fun s =>
      (search ascii s readme 10).length = 1) = true := by decide +kernel
  have hterms : ∀ i ∈ readme.includeInit, ¬ 0 ∈ i.pattern := by decide +kernel
  obtain ⟨s, hs, hlen⟩ := (Option.any_eq_true _ _).mp hfound
  exact ⟨hm, s, hs, of_decide_eq_true hlen,
    run_search_eq ascii hm hs (fun i hi hnul => absurd hnul (hterms i hi)) 10⟩

/-- The file is not found. -/
theorem not_run_search_eq : ¬ ∀ s, Runs.run (change ascii) start hashedLater = some s →
    ∀ query maxResults, search ascii s query maxResults = searchWith ascii (fun _ => true) s query maxResults := by
  intro h
  have hlost : ((Runs.run (change ascii) start hashedLater).any fun s =>
      search ascii s readme 10 ≠ searchWith ascii (fun _ => true) s readme 10) = true := by decide +kernel
  obtain ⟨s, hs, hne⟩ := (Option.any_eq_true _ _).mp hlost
  exact of_decide_eq_true hne (h s hs readme 10)

end Dcpp.ShareManager
