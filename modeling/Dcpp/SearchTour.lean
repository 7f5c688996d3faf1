import Dcpp.Library.Collect
import Dcpp.SearchExts
import Dcpp.ShareFilter

-- A search as a tour of the tree, on which the directories and the files offer themselves as results.
namespace Dcpp.ShareManager.Directory

variable (p : Platform)

/-- The tour enters a directory, comes to a file, or leaves a directory; `above` are the names of the directories in
which that happens, from the top. -/
inductive Visit where
  | enter (above : List Bytes) (dir : Directory)
  | file (above : List Bytes) (i : File)
  | leave

namespace Visit

def under (name : Bytes) : Visit → Visit
  | enter above dir => enter (name :: above) dir
  | file above i => file (name :: above) i
  | leave => leave

/-- The names on the way to what is visited, with its own. -/
def names : Visit → List Bytes
  | enter above dir => above ++ [dir.label.name]
  | file above i => above ++ [i.name]
  | leave => []

end Visit

mutual

/-- The directory, its files, and what is below it; the directory itself is not left. -/
def tour : Directory → List Visit
  | .node d directories =>
    .enter [] (.node d directories) :: (d.files.map (Visit.file []) ++ tourOf directories).map (Visit.under d.name)

def tourOf : List Directory → List Visit
  | [] => []
  | d :: directories => tour d ++ .leave :: tourOf directories

end

def Visit.file? : Visit → Option File
  | .file _ i => some i
  | _ => none

theorem Visit.file?_under (name : Bytes) : Visit.file? ∘ Visit.under name = Visit.file? := by
  funext v
  cases v <;> rfl

mutual

/-- The tour comes to every file of the tree once. -/
theorem files_tour (dir : Directory) : ((tour dir).filterMap Visit.file?).Perm (allFiles dir) := by
  obtain ⟨d, directories⟩ := dir
  have hfiles : (d.files.map (Visit.file [])).filterMap Visit.file? = d.files := by
    rw [List.filterMap_map]
    exact List.filterMap_some
  rw [tour, List.filterMap_cons_none rfl, List.filterMap_map, Visit.file?_under, List.filterMap_append, hfiles,
    allFiles_node]
  exact List.perm_append_comm.trans ((files_tourOf directories).append_right d.files)

theorem files_tourOf (directories : List Directory) :
    ((tourOf directories).filterMap Visit.file?).Perm (allFilesOf directories) := by
  cases directories with
  | nil => exact List.Perm.refl _
  | cons d directories =>
    rw [tourOf, List.filterMap_append, List.filterMap_cons_none rfl, allFilesOf]
    exact (files_tour d).append (files_tourOf directories)

end

/-- No excluded term is in one of the names, and every included one is. -/
def Passes (exclude incl : List StringSearch) (names : List Bytes) : Prop :=
  (∀ term ∈ exclude, ∀ name ∈ names, term.match p.toLower name = false) ∧
    ∀ term ∈ incl, ∃ name ∈ names, term.match p.toLower name = true

instance (exclude incl : List StringSearch) (names : List Bytes) : Decidable (Passes p exclude incl names) :=
  inferInstanceAs (Decidable (_ ∧ _))

def fullName (parent : Bytes) (above : List Bytes) : Bytes := parent ++ above.flatMap fun name => name ++ [byte '\\']

/-- What a directory offers. -/
def offerDirectory (exclude incl : List StringSearch) (parent : Bytes) (above : List Bytes) (dir : Directory)
    (query : SearchQuery) : Option SearchResult × SearchQuery :=
  (if Passes p exclude incl (above ++ [dir.label.name]) ∧ query.ext = [] ∧ query.gt = 0 then
      some ⟨.TYPE_DIRECTORY, getSize dir, fullName parent (above ++ [dir.label.name]),
        Encoder.HashValue.ofBase32 (List.replicate 39 (byte 'A'))⟩
    else none, query)

/-- What a file offers. Its extension is tested last, which may change the query. -/
def offerFile (exclude incl : List StringSearch) (parent : Bytes) (above : List Bytes) (i : File)
    (query : SearchQuery) : Option SearchResult × SearchQuery :=
  if query.isDirectory = false ∧ i.tth.isSome = true ∧ i.size ≥ query.gt ∧ i.size ≤ query.lt ∧
      Passes p exclude incl (above ++ [i.name]) then
    let r := query.hasExt p i.name
    (if r.1 then i.tth.map fun tth => ⟨.TYPE_FILE, i.size, fullName parent above ++ i.name, tth⟩ else none, r.2)
  else (none, query)

/-- The limit is tested when a file is a result, and when a directory is left. -/
def Visit.step (exclude incl : List StringSearch) (parent : Bytes) : Visit → Collect.Step SearchQuery SearchResult
  | .enter above dir => .offer false (offerDirectory p exclude incl parent above dir)
  | .file above i => .offer true (offerFile p exclude incl parent above i)
  | .leave => .test

theorem mem_newTerms_iff {incl : List StringSearch} {name : Bytes} {term : StringSearch} :
    term ∈ newTerms p incl name ↔ term ∈ incl ∧ term.match p.toLower name = false := by
  have hfold : ∀ ts terms : List StringSearch,
      term ∈ ts.foldl (fun terms term => if term.match p.toLower name then terms.filter (· ≠ term) else terms) terms ↔
        term ∈ terms ∧ (term ∈ ts → term.match p.toLower name = false) := by
    intro ts
    induction ts with
    | nil => simp
    | cons t ts ih =>
      intro terms
      rw [List.foldl_cons, ih]
      by_cases ht : t.match p.toLower name = true
      · by_cases heq : term = t
        · simp [ht, heq]
        · simp [ht, heq]
      · by_cases heq : term = t
        · simp [ht, heq]
        · simp [ht, heq]
  rw [newTerms, hfold]
  constructor
  · exact fun h => ⟨h.1, h.2 h.1⟩
  · exact fun h => ⟨h.1, fun _ => h.2⟩

theorem passes_cons {exclude incl : List StringSearch} {name : Bytes} {names : List Bytes} :
    Passes p exclude incl (name :: names) ↔
      (exclude.any fun i => i.match p.toLower name) = false ∧ Passes p exclude (newTerms p incl name) names := by
  simp only [Passes, List.any_eq_false, List.forall_mem_cons, List.exists_mem_cons_iff, mem_newTerms_iff, Bool.not_eq_true]
  constructor
  · rintro ⟨hout, hin⟩
    refine ⟨fun t ht => (hout t ht).1, fun t ht => (hout t ht).2, fun t ⟨ht, hno⟩ => ?_⟩
    exact (hin t ht).resolve_left (by simp [hno])
  · rintro ⟨hname, hout, hin⟩
    refine ⟨fun t ht => ⟨hname t ht, hout t ht⟩, fun t ht => ?_⟩
    by_cases hm : t.match p.toLower name = true
    · exact Or.inl hm
    · exact Or.inr (hin t ⟨ht, by simpa using hm⟩)

theorem fullName_cons (parent name : Bytes) (above : List Bytes) :
    fullName parent (name :: above) = fullName (parent ++ name ++ [byte '\\']) above := by
  simp [fullName]

theorem passes_nil {exclude incl : List StringSearch} : Passes p exclude incl [] ↔ incl = [] := by
  simp [Passes, List.eq_nil_iff_forall_not_mem]

/-- The directory at the top of the tour offers itself when no terms are left. -/
theorem offerDirectory_top (exclude incl : List StringSearch) (parent : Bytes) (dir : Directory) (query : SearchQuery) :
    offerDirectory p exclude incl parent [] dir query =
      (if (exclude.any fun i => i.match p.toLower dir.label.name) = false ∧
          newTerms p incl dir.label.name = [] ∧ query.ext = [] ∧ query.gt = 0 then
        some ⟨.TYPE_DIRECTORY, getSize dir, parent ++ dir.label.name ++ [byte '\\'],
          Encoder.HashValue.ofBase32 (List.replicate 39 (byte 'A'))⟩
      else none, query) := by
  have hname : fullName parent [dir.label.name] = parent ++ dir.label.name ++ [byte '\\'] := by simp [fullName]
  simp only [offerDirectory, List.nil_append, hname, passes_cons, passes_nil, and_assoc]

/-- Below a directory that is not excluded the search goes on with the terms that are left. -/
theorem step_under {exclude incl : List StringSearch} {name : Bytes} (parent : Bytes) (v : Visit)
    (h : (exclude.any fun i => i.match p.toLower name) = false) :
    (v.under name).step p exclude incl parent =
      v.step p exclude (newTerms p incl name) (parent ++ name ++ [byte '\\']) := by
  cases v with
  | enter above dir =>
    apply congrArg (Collect.Step.offer false)
    funext query
    simp only [offerDirectory, List.cons_append, passes_cons, h, true_and, fullName_cons]
  | file above i =>
    apply congrArg (Collect.Step.offer true)
    funext query
    simp only [offerFile, List.cons_append, passes_cons, h, true_and, fullName_cons]
  | leave => rfl

/-- An excluded directory offers nothing. -/
theorem offer_excluded {exclude incl : List StringSearch} {name parent : Bytes} {v : Visit} {tests : Bool}
    {f : SearchQuery → Option SearchResult × SearchQuery} (h : (exclude.any fun i => i.match p.toLower name) = true)
    (hstep : (v.under name).step p exclude incl parent = .offer tests f) (query : SearchQuery) :
    f query = (none, query) := by
  cases v with
  | enter above dir =>
    cases hstep
    simp [offerDirectory, passes_cons, h]
  | file above i =>
    cases hstep
    simp [offerFile, passes_cons, h]
  | leave => cases hstep

/-- Testing a file changes at most the extensions of a query. -/
theorem matchFile_same (incl : List StringSearch) (query : SearchQuery) (i : File) :
    (matchFile p incl query i).2.exclude = query.exclude ∧
      (matchFile p incl query i).2.isDirectory = query.isDirectory := by
  have hext : ∀ name, (query.hasExt p name).2.exclude = query.exclude ∧
      (query.hasExt p name).2.isDirectory = query.isDirectory := by
    intro name
    rw [SearchQuery.hasExt]
    repeat' split
    all_goals exact ⟨rfl, rfl⟩
  rw [matchFile]
  repeat' split
  all_goals first | exact ⟨rfl, rfl⟩ | exact hext i.name

/-- A file of the directory offers itself as the loop over the files tests it. -/
theorem offerFile_eq {incl : List StringSearch} (parent : Bytes) (i : File) {query : SearchQuery}
    (hfiles : query.isDirectory = false) :
    offerFile p query.exclude incl parent [] i query =
      ((matchFile p incl query i).1.map fun tth => ⟨.TYPE_FILE, i.size, parent ++ i.name, tth⟩,
        (matchFile p incl query i).2) := by
  have hpasses : Passes p query.exclude incl [i.name] ↔
      query.isExcluded p i.name = false ∧ (incl.all fun j => j.match p.toLower i.name) = true := by
    simp [Passes, SearchQuery.isExcluded]
  have hname : fullName parent [] ++ i.name = parent ++ i.name := by simp [fullName]
  rw [offerFile, List.nil_append, hname]
  cases htth : i.tth with
  | none => simp [matchFile, htth]
  | some tth =>
    simp only [matchFile, htth, hfiles, hpasses, Option.isSome_some, true_and]
    by_cases hgt : i.size ≥ query.gt
    · by_cases hlt : i.size ≤ query.lt
      · cases hex : query.isExcluded p i.name
        · cases hall : incl.all fun j => j.match p.toLower i.name
          · simp [hgt, hlt]
          · simp only [hgt, hlt, true_and, if_true, Option.map_some, not_true_eq_false, Bool.not_true,
              Bool.false_eq_true, if_false]
            split <;> rfl
        · simp [hgt, hlt]
      · simp [hgt, hlt]
    · simp [hgt]

theorem searchFiles_exclude (maxResults : Nat) (fullName : Bytes) (incl : List StringSearch)
    (results : List SearchResult) (query : SearchQuery) (files : List File) :
    (searchFiles p maxResults fullName incl results query files).2.1.exclude = query.exclude := by
  induction files generalizing results query with
  | nil => rfl
  | cons i files ih =>
    have hsame := (matchFile_same p incl query i).1
    rw [searchFiles]
    split
    next query' hm =>
      rw [hm] at hsame
      exact (ih _ _).trans hsame
    next tth query' hm =>
      rw [hm] at hsame
      dsimp only
      split
      · exact hsame
      · exact (ih _ _).trans hsame

/-- The loop ends the search only when it finds the limit reached. -/
theorem searchFiles_ended {maxResults : Nat} {incl : List StringSearch} {fullName : Bytes}
    {results : List SearchResult} {query : SearchQuery} {files : List File}
    (h : (searchFiles p maxResults fullName incl results query files).2.2 = true) :
    (searchFiles p maxResults fullName incl results query files).1.length ≥ maxResults := by
  induction files generalizing results query with
  | nil => cases h
  | cons i files ih =>
    rw [searchFiles] at h ⊢
    split at h
    next => exact ih h
    next =>
      dsimp only at h ⊢
      split at h
      next hfull => simpa only [if_pos hfull] using hfull
      next hroom =>
        rw [if_neg hroom]
        exact ih h

mutual

theorem search_exclude (maxResults : Nat) (parent : Bytes) (incl : List StringSearch) (results : List SearchResult)
    (query : SearchQuery) (dir : Directory) :
    (search p maxResults parent incl results query dir).2.exclude = query.exclude := by
  obtain ⟨d, directories⟩ := dir
  rw [search]
  split
  · rfl
  · dsimp only
    generalize (if newTerms p incl d.name = [] ∧ query.ext = [] ∧ query.gt = 0 then _ else results) = results'
    cases query.isDirectory
    · have hfiles := searchFiles_exclude p maxResults (parent ++ d.name ++ [byte '\\']) (newTerms p incl d.name) results'
        query d.files
      simp only [Bool.false_eq_true, if_false]
      split
      · exact hfiles
      · exact (searchDirectories_exclude maxResults _ _ _ _ directories).trans hfiles
    · exact searchDirectories_exclude maxResults _ _ _ _ directories

theorem searchDirectories_exclude (maxResults : Nat) (parent : Bytes) (incl : List StringSearch)
    (results : List SearchResult) (query : SearchQuery) (directories : List Directory) :
    (searchDirectories p maxResults parent incl results query directories).2.exclude = query.exclude := by
  cases directories with
  | nil => rfl
  | cons d directories =>
    have hd := search_exclude maxResults parent incl results query d
    rw [searchDirectories]
    split
    · exact hd
    · exact (searchDirectories_exclude maxResults parent incl _ _ directories).trans hd

end

/-- The loop over the files is the part of the tour that comes to them. -/
theorem searchFiles_run {maxResults : Nat} {incl : List StringSearch} {fullName : Bytes} {results : List SearchResult}
    {query : SearchQuery} {files : List File} (rest : List (Collect.Step SearchQuery SearchResult)) :
    Collect.run maxResults results query
        ((files.map (Visit.file [])).map (Visit.step p query.exclude incl fullName) ++ rest) =
      let r := if query.isDirectory then (results, query, false) else searchFiles p maxResults fullName incl results query files
      if r.2.2 then (r.1, r.2.1) else Collect.run maxResults r.1 r.2.1 rest := by
  cases hfiles : query.isDirectory with
  | true =>
    induction files with
    | nil => rfl
    | cons i files ih =>
      rw [List.map_cons, List.map_cons, List.cons_append, Visit.step, Collect.run]
      simpa [offerFile, hfiles] using ih
  | false =>
    induction files generalizing results query with
    | nil => rfl
    | cons i files ih =>
      obtain ⟨hexclude, hdirectory⟩ := matchFile_same p incl query i
      simp only [Bool.false_eq_true, if_false] at ih ⊢
      rw [List.map_cons, List.map_cons, List.cons_append, Visit.step, Collect.run, offerFile_eq p fullName i hfiles,
        searchFiles]
      cases hm : matchFile p incl query i with
      | mk tth query' =>
        rw [hm] at hexclude hdirectory
        rw [← hexclude]
        cases tth with
        | none => exact ih (hdirectory.trans hfiles)
        | some tth =>
          simp only [Option.map_some, true_and]
          split
          next => rfl
          next => exact ih (hdirectory.trans hfiles)

mutual

/-- A search of a directory and the test behind it are the tour of the directory, up to where it is left. -/
theorem search_run (maxResults : Nat) (parent : Bytes) (incl : List StringSearch) (results : List SearchResult)
    (query : SearchQuery) (dir : Directory) (rest : List (Collect.Step SearchQuery SearchResult)) :
    Collect.run maxResults results query ((tour dir).map (Visit.step p query.exclude incl parent) ++ .test :: rest) =
      let r := search p maxResults parent incl results query dir
      if r.1.length ≥ maxResults then r else Collect.run maxResults r.1 r.2 rest := by
  obtain ⟨d, directories⟩ := dir
  rw [search, tour, List.map_cons, List.map_map]
  cases hex : query.isExcluded p d.name with
  | true =>
    have hany : (query.exclude.any fun i => i.match p.toLower d.name) = true := hex
    rw [if_pos rfl, Collect.run_quiet rest, Collect.run]
    intro tests f hf
    obtain hf | hf := List.mem_cons.mp hf
    · cases hf
      simp [offerDirectory_top, hany]
    · obtain ⟨v, -, hv⟩ := List.mem_map.mp hf
      exact offer_excluded p hex hv query
  | false =>
    have hany : (query.exclude.any fun i => i.match p.toLower d.name) = false := hex
    have hsteps : Visit.step p query.exclude incl parent ∘ Visit.under d.name =
        Visit.step p query.exclude (newTerms p incl d.name) (parent ++ d.name ++ [byte '\\']) :=
      funext fun v => step_under p parent v hex
    have henter := offerDirectory_top p query.exclude incl parent (.node d directories) query
    simp only [Tree.label_node, hany, true_and] at henter
    rw [if_neg Bool.false_ne_true, hsteps, List.map_append, List.cons_append, List.append_assoc, Visit.step,
      Collect.run_offer henter, searchFiles_run]
    dsimp only
    generalize (if newTerms p incl d.name = [] ∧ query.ext = [] ∧ query.gt = 0 then _ else results) = results'
    have hfiles : ∀ r, (r = if query.isDirectory then (results', query, false) else
        searchFiles p maxResults (parent ++ d.name ++ [byte '\\']) (newTerms p incl d.name) results' query d.files) →
        r.2.1.exclude = query.exclude ∧ (r.2.2 = true → r.1.length ≥ maxResults) := by
      rintro r rfl
      split
      · exact ⟨rfl, fun h => Bool.noConfusion h⟩
      · exact ⟨searchFiles_exclude p _ _ _ _ _ _, searchFiles_ended p⟩
    generalize hr : (if query.isDirectory then (results', query, false) else
      searchFiles p maxResults (parent ++ d.name ++ [byte '\\']) (newTerms p incl d.name) results' query d.files) = r
    obtain ⟨hexclude, hended⟩ := hfiles r hr.symm
    split
    next hend => simp [hended hend]
    next =>
      rw [← hexclude, searchDirectories_run maxResults _ _ _ _ directories]
      dsimp only
      rw [Collect.run_test]
      split
      next hfull => rw [if_pos hfull.2]
      next => rfl

theorem searchDirectories_run (maxResults : Nat) (parent : Bytes) (incl : List StringSearch)
    (results : List SearchResult) (query : SearchQuery) (directories : List Directory)
    (rest : List (Collect.Step SearchQuery SearchResult)) :
    Collect.run maxResults results query ((tourOf directories).map (Visit.step p query.exclude incl parent) ++ rest) =
      let r := searchDirectories p maxResults parent incl results query directories
      if directories ≠ [] ∧ r.1.length ≥ maxResults then r else Collect.run maxResults r.1 r.2 rest := by
  cases directories with
  | nil => simp [tourOf, searchDirectories]
  | cons d directories =>
    have hexclude := search_exclude p maxResults parent incl results query d
    rw [tourOf, List.map_append, List.append_assoc, List.map_cons, List.cons_append]
    change Collect.run _ _ _ (_ ++ .test :: _) = _
    rw [search_run maxResults parent incl results query d, searchDirectories]
    dsimp only
    split
    next hfull => simp [hfull]
    next hroom =>
      rw [← hexclude, searchDirectories_run maxResults parent incl _ _ directories rest]
      cases directories with
      | nil => simp [searchDirectories, hroom]
      | cons d' directories => simp

end

end Dcpp.ShareManager.Directory
