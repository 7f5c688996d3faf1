import Dcpp.SearchTour

-- What a search of the share finds, and how many results it gives.
namespace Dcpp.ShareManager

open Directory

variable (p : Platform)

/-- A query during a search; `incl` is what its `include` points to. -/
structure Querying where
  query : SearchQuery
  incl : List StringSearch

namespace Querying

/-- The terms without those that are in the name, when there are any such. -/
def newTerms (s : Querying) (name : Bytes) : Option (List StringSearch) :=
  s.incl.foldl (fun newTerms term =>
    if term.match p.toLower name then some ((newTerms.getD s.incl).filter (· ≠ term)) else newTerms) none

mutual

/-- `Directory::search`: `include` is exchanged for the new terms, and is what it was on every way out. -/
def search (maxResults : Nat) (parent : Bytes) (results : List SearchResult) (s : Querying) :
    Directory → List SearchResult × Querying
  | .node d directories =>
    if s.query.isExcluded p d.name then (results, s)
    else
      let old := s.incl
      let s : Querying := match s.newTerms p d.name with
        | some terms => { s with incl := terms }
        | none => s
      let fullName := parent ++ d.name ++ [byte '\\']
      let results :=
        if s.incl = [] ∧ s.query.ext = [] ∧ s.query.gt = 0 then
          results ++ [⟨.TYPE_DIRECTORY, getSize (.node d directories), fullName,
            Encoder.HashValue.ofBase32 (List.replicate 39 (byte 'A'))⟩]
        else results
      let r :=
        if s.query.isDirectory then (results, s.query, false)
        else searchFiles p maxResults fullName s.incl results s.query d.files
      let s := { s with query := r.2.1 }
      let r := if r.2.2 then (r.1, s) else searchDirectories maxResults fullName r.1 s directories
      (r.1, { r.2 with incl := old })

def searchDirectories (maxResults : Nat) (parent : Bytes) (results : List SearchResult) (s : Querying) :
    List Directory → List SearchResult × Querying
  | [] => (results, s)
  | d :: directories =>
    let r := search maxResults parent results s d
    if r.1.length ≥ maxResults then r else searchDirectories maxResults parent r.1 r.2 directories

end

theorem newTerms_getD (s : Querying) (name : Bytes) : (s.newTerms p name).getD s.incl = Directory.newTerms p s.incl name := by
  have hfold : ∀ (ts : List StringSearch) (terms : Option (List StringSearch)),
      (ts.foldl (fun newTerms term =>
        if term.match p.toLower name then some ((newTerms.getD s.incl).filter (· ≠ term)) else newTerms) terms).getD s.incl =
      ts.foldl (fun terms term => if term.match p.toLower name then terms.filter (· ≠ term) else terms)
        (terms.getD s.incl) := by
    intro ts
    induction ts with
    | nil => simp
    | cons t ts ih =>
      intro terms
      rw [List.foldl_cons, List.foldl_cons, ih]
      split <;> rfl
  exact hfold s.incl none

mutual

/-- The search with the pointer is the one with the terms handed down. -/
theorem search_eq (maxResults : Nat) (parent : Bytes) (results : List SearchResult) (s : Querying) (dir : Directory) :
    search p maxResults parent results s dir =
      ((Directory.search p maxResults parent s.incl results s.query dir).1,
        ⟨(Directory.search p maxResults parent s.incl results s.query dir).2, s.incl⟩) := by
  obtain ⟨d, directories⟩ := dir
  have hterms := newTerms_getD p s d.name
  have hs : (match s.newTerms p d.name with
      | some terms => { s with incl := terms }
      | none => s) = ⟨s.query, Directory.newTerms p s.incl d.name⟩ := by
    cases h : s.newTerms p d.name <;> rw [h] at hterms <;> simp [← hterms]
  rw [search, Directory.search]
  split
  · rfl
  · simp only [hs]
    generalize (if s.query.isDirectory then _ else _ : List SearchResult × SearchQuery × Bool) = r
    split
    · rfl
    · rw [searchDirectories_eq]

theorem searchDirectories_eq (maxResults : Nat) (parent : Bytes) (results : List SearchResult) (s : Querying)
    (directories : List Directory) :
    searchDirectories p maxResults parent results s directories =
      ((Directory.searchDirectories p maxResults parent s.incl results s.query directories).1,
        ⟨(Directory.searchDirectories p maxResults parent s.incl results s.query directories).2, s.incl⟩) := by
  cases directories with
  | nil => rfl
  | cons d directories =>
    rw [searchDirectories, Directory.searchDirectories, search_eq]
    dsimp only
    split
    · rfl
    · rw [searchDirectories_eq]

end

end Querying

namespace Directory

/-- What the query asks for besides the terms. -/
def Fits (query : SearchQuery) : Visit → Prop
  | .enter _ _ => query.ext = [] ∧ query.gt = 0
  | .file _ i => query.isDirectory = false ∧ i.tth.isSome = true ∧ i.size ≥ query.gt ∧ i.size ≤ query.lt ∧
      (query.ext = [] ∨ getExt i.name ≠ [] ∧ SearchQuery.fileExt p i.name ∈ query.ext)
  | .leave => False

/-- What is visited is to be found: no excluded term is in a name on the way to it, every included one is, and it is
asked for. -/
def Wanted (query : SearchQuery) (incl : List StringSearch) (v : Visit) : Prop :=
  Passes p query.exclude incl v.names ∧ Fits p query v

instance (query : SearchQuery) : DecidablePred (Fits p query)
  | .enter _ _ => inferInstanceAs (Decidable (_ ∧ _))
  | .file _ _ => inferInstanceAs (Decidable (_ ∧ _))
  | .leave => inferInstanceAs (Decidable False)

instance (query : SearchQuery) (incl : List StringSearch) : DecidablePred (Wanted p query incl) :=
  fun _ => inferInstanceAs (Decidable (_ ∧ _))

def Visit.result (parent : Bytes) : Visit → Option SearchResult
  | .enter above dir => some ⟨.TYPE_DIRECTORY, getSize dir, fullName parent (above ++ [dir.label.name]),
      Encoder.HashValue.ofBase32 (List.replicate 39 (byte 'A'))⟩
  | .file above i => i.tth.map fun tth => ⟨.TYPE_FILE, i.size, fullName parent above ++ i.name, tth⟩
  | .leave => none

theorem hasExt_noExt {query : SearchQuery} (hno : query.noExt = []) (name : Bytes) :
    query.hasExt p name =
      (decide (query.ext = [] ∨ getExt name ≠ [] ∧ SearchQuery.fileExt p name ∈ query.ext), query) := by
  by_cases hext : query.ext = []
  · simp [SearchQuery.hasExt, hext]
  · rw [SearchQuery.hasExt, if_neg hext]
    simp [hno, hext, SearchQuery.fileExt]

/-- Without excluded extensions what is visited offers itself exactly when it is to be found. -/
theorem result_step {query : SearchQuery} (hno : query.noExt = []) (incl : List StringSearch) (parent : Bytes)
    (v : Visit) : Collect.result query (v.step p query.exclude incl parent) =
      if Wanted p query incl v then v.result parent else none := by
  by_cases hw : Wanted p query incl v
  · rw [if_pos hw]
    obtain ⟨hpass, hfits⟩ := hw
    cases v with
    | enter above dir => exact if_pos ⟨hpass, hfits⟩
    | file above i =>
      obtain ⟨hfiles, htth, hgt, hlt, hext⟩ := hfits
      rw [Visit.step, Collect.result, offerFile, if_pos ⟨hfiles, htth, hgt, hlt, hpass⟩, hasExt_noExt p hno]
      exact if_pos (decide_eq_true hext)
    | leave => cases hfits
  · rw [if_neg hw]
    cases v with
    | enter above dir => exact if_neg hw
    | file above i =>
      rw [Visit.step, Collect.result, offerFile]
      split
      next h =>
        obtain ⟨hfiles, htth, hgt, hlt, hpass⟩ := h
        rw [hasExt_noExt p hno]
        apply if_neg
        exact fun hext => hw ⟨hpass, hfiles, htth, hgt, hlt, of_decide_eq_true hext⟩
      next => rfl
    | leave => rfl

theorem step_same {query : SearchQuery} (hno : query.noExt = []) {incl : List StringSearch} {parent : Bytes} {v : Visit}
    {tests : Bool} {f : SearchQuery → Option SearchResult × SearchQuery}
    (hstep : v.step p query.exclude incl parent = .offer tests f) : (f query).2 = query := by
  cases v with
  | enter above dir =>
    cases hstep
    rfl
  | file above i =>
    cases hstep
    simp only [offerFile, hasExt_noExt p hno]
    split <;> rfl
  | leave => cases hstep

end Directory

/-- Without excluded extensions and below the limit, a search finds what is to be found, each once and in the order of
the tour, and leaves the query as it was, with its terms. -/
theorem Querying.search_spec {maxResults : Nat} {parent : Bytes} {results : List SearchResult} {s : Querying}
    {dir : Directory} (hno : s.query.noExt = [])
    (hmax : results.length + ((tour dir).filter fun v => Wanted p s.query s.incl v).length < maxResults) :
    Querying.search p maxResults parent results s dir =
      (results ++ ((tour dir).filter fun v => Wanted p s.query s.incl v).filterMap (Visit.result parent), s) := by
  have hfound : ((tour dir).map (Visit.step p s.query.exclude s.incl parent) ++ [Collect.Step.test]).filterMap
      (Collect.result s.query) =
      ((tour dir).filter fun v => Wanted p s.query s.incl v).filterMap (Visit.result parent) := by
    rw [List.filterMap_append, List.filterMap_map, List.filterMap_filter]
    simp only [Function.comp_def, result_step p hno, decide_eq_true_eq]
    exact List.append_nil _
  have hlen := List.length_filterMap_le (Visit.result parent) ((tour dir).filter fun v => Wanted p s.query s.incl v)
  have hrun := search_run p maxResults parent s.incl results s.query dir []
  rw [Collect.run_eq (by rw [hfound]; omega), hfound] at hrun
  · dsimp only [Collect.run] at hrun
    rw [ite_self] at hrun
    rw [search_eq, ← hrun]
  · intro tests f hf
    obtain hf | hf := List.mem_append.mp hf
    · obtain ⟨v, -, hv⟩ := List.mem_map.mp hf
      exact step_same p hno hv
    · simp at hf

/-- Siblings that match different terms: each gets all of them back. -/
def siblings : Directory :=
  .node ⟨str "music", none, [], 0⟩
    [.node ⟨str "abba", none, [⟨1, str "live.mp3", none, hashOf 1, 5⟩], 5⟩ [],
      .node ⟨str "live", none, [⟨2, str "dance.mp3", none, hashOf 2, 7⟩,
        ⟨3, str "abba.mp3", none, hashOf 3, 7⟩], 14⟩ []]

def abbaLive : Querying :=
  ⟨SearchQuery.ofAdc ascii SearchQuery.empty [str "ANabba", str "ANlive"], [⟨str "abba"⟩, ⟨str "live"⟩]⟩

theorem search_spec_siblings :
    Querying.search ascii 10 [] [] abbaLive siblings =
      ([] ++ ((tour siblings).filter fun v => Wanted ascii abbaLive.query abbaLive.incl v).filterMap (Visit.result []),
        abbaLive) :=
  Querying.search_spec ascii (by decide +kernel) (by decide +kernel)

/-- The file that is indexed under a hash, and its full name. -/
def indexed (s : Share) (root : Encoder.HashValue) : Option (File × Bytes) :=
  (lookup s.indices.tthIndex root).bind fun id => (fullNamesOf [] s.directories).find? fun i => i.1.id = id

/-- The tour of the share, with a mark for each match, and for each file that matches and each directory that is left
one that the limit is tested there. -/
def marks (s : Share) (query : SearchQuery) : List Collect.Mark :=
  Collect.marks query ((tourOf s.directories).map (Visit.step p query.exclude query.includeInit []))

/-- When a search keeps to its limit. -/
def KeepsTo (maxResults : Nat) (s : Share) (query : SearchQuery) : Prop :=
  match query.root with
  | some root => maxResults = 0 → ∀ i ∈ indexed s root, i.1.tth = none
  | none => (∀ i ∈ query.includeInit, s.indices.bloom.match BLOOM i.pattern = true) →
      ¬Collect.Overruns maxResults (marks p s query)

/-- A search gives at most as many results as it may exactly when, for a hash, it may give one or finds none, and
otherwise no match follows the last one that it may give before the limit is tested. -/
theorem search_length_le_iff (s : Share) (query : SearchQuery) (maxResults : Nat) :
    (search p s query maxResults).length ≤ maxResults ↔ KeepsTo p maxResults s query := by
  rw [search, searchWith, KeepsTo]
  cases hroot : query.root with
  | some root =>
    dsimp only
    rw [← indexed]
    cases hi : indexed s root with
    | none => simp
    | some i =>
      cases htth : i.1.tth with
      | none => simp [htth]
      | some tth =>
        simp [htth]
        omega
  | none =>
    dsimp only
    rw [← List.all_eq_true]
    split
    next hpass =>
      have hrun := searchDirectories_run p maxResults [] query.includeInit [] query s.directories []
      have hlimit := Collect.length_run_le_iff maxResults [] query
        ((tourOf s.directories).map (Visit.step p query.exclude query.includeInit [])) (Nat.zero_le _)
      rw [List.append_nil] at hrun
      dsimp only [Collect.run] at hrun
      rw [ite_self] at hrun
      rw [hrun] at hlimit
      rw [hlimit, marks, forall_prop_of_true hpass]
      rfl
    next hfail => simp [hfail]

/-- Three directories below one another match, and there is one result too many for each below the first. -/
theorem not_search_length_le : ¬∀ (p : Platform) (s : Share) (adcParams : List Bytes) (maxResults : Nat),
    (search p s (SearchQuery.ofAdc p SearchQuery.empty adcParams) maxResults).length ≤ maxResults := by
  intro h
  let nested : Directory := .node ⟨str "a", none, [], 0⟩ [.node ⟨str "a", none, [], 0⟩ [.node ⟨str "a", none, [], 0⟩ []]]
  have hle := h ascii { start with directories := [nested] } [str "ANa"] 1
  exact absurd hle (by decide +kernel)

/-- The path of a directory ends with the separator, and a file is in a directory. -/
def SearchResult.HasPath (r : SearchResult) : Prop :=
  match r.type with
  | .TYPE_DIRECTORY => ∃ d, r.file = d ++ [byte '\\']
  | .TYPE_FILE => ∃ d name, r.file = d ++ [byte '\\'] ++ name

theorem fullName_concat (parent : Bytes) {above : List Bytes} (h : above ≠ []) :
    ∃ d, fullName parent above = d ++ [byte '\\'] := by
  obtain ⟨names, name, rfl⟩ := (List.eq_nil_or_concat' above).resolve_left h
  exact ⟨parent ++ (names.flatMap fun name => name ++ [byte '\\']) ++ name, by simp [fullName]⟩

theorem file_mem_tourOf {directories : List Directory} {above : List Bytes} {i : File}
    (h : .file above i ∈ tourOf directories) : above ≠ [] := by
  induction directories with
  | nil => exact absurd h List.not_mem_nil
  | cons dir directories ih =>
    obtain ⟨d, below⟩ := dir
    rw [tourOf, tour, List.cons_append, List.mem_cons, List.mem_append, List.mem_cons] at h
    obtain h | h | h | h := h
    · cases h
    · obtain ⟨v, -, hv⟩ := List.mem_map.mp h
      cases v with
      | file above' i' =>
        cases hv
        exact List.cons_ne_nil _ _
      | enter => cases hv
      | leave => cases hv
    · cases h
    · exact ih h

mutual

theorem fullNames_concat (parent : Bytes) (dir : Directory) :
    ∀ i ∈ fullNames parent dir, ∃ d, i.2 = d ++ [byte '\\'] ++ i.1.name := by
  obtain ⟨d, directories⟩ := dir
  intro i hi
  rw [fullNames, List.mem_append] at hi
  obtain hi | hi := hi
  · exact fullNamesOf_concat _ directories i hi
  · obtain ⟨f, -, rfl⟩ := List.mem_map.mp hi
    exact ⟨_, rfl⟩

theorem fullNamesOf_concat (parent : Bytes) (directories : List Directory) :
    ∀ i ∈ fullNamesOf parent directories, ∃ d, i.2 = d ++ [byte '\\'] ++ i.1.name := by
  intro i hi
  cases directories with
  | nil => exact absurd hi List.not_mem_nil
  | cons d directories =>
    rw [fullNamesOf, List.mem_append] at hi
    exact hi.elim (fullNames_concat parent d i) (fullNamesOf_concat parent directories i)

end

theorem offer_hasPath {exclude incl : List StringSearch} {directories : List Directory} {v : Visit}
    (hv : v ∈ tourOf directories) {tests : Bool} {f : SearchQuery → Option SearchResult × SearchQuery}
    (hstep : v.step p exclude incl [] = .offer tests f) {query : SearchQuery} {r : SearchResult}
    (hr : (f query).1 = some r) : r.HasPath := by
  cases v with
  | enter above dir =>
    cases hstep
    simp only [offerDirectory, Option.ite_none_right_eq_some, Option.some_inj] at hr
    rw [← hr.2]
    exact fullName_concat [] (List.concat_ne_nil _ _)
  | file above i =>
    cases hstep
    rw [offerFile] at hr
    split at hr
    next =>
      simp only [Option.ite_none_right_eq_some, Option.map_eq_some_iff] at hr
      obtain ⟨-, tth, -, rfl⟩ := hr
      obtain ⟨d, hd⟩ := fullName_concat [] (file_mem_tourOf hv)
      exact ⟨d, i.name, congrArg (· ++ i.name) hd⟩
    next => cases hr
  | leave => cases hstep

/-- Every result of a search has a path that says where it is in the share. -/
theorem search_hasPath {s : Share} {query : SearchQuery} {maxResults : Nat} {r : SearchResult}
    (h : r ∈ search p s query maxResults) : r.HasPath := by
  rw [search, searchWith] at h
  cases hroot : query.root with
  | some root =>
    rw [hroot] at h
    obtain ⟨i, hi, htth⟩ := Option.bind_eq_some_iff.mp (Option.mem_toList.mp h)
    obtain ⟨tth, -, rfl⟩ := Option.map_eq_some_iff.mp htth
    obtain ⟨id, -, hfind⟩ := Option.bind_eq_some_iff.mp hi
    obtain ⟨d, hd⟩ := fullNamesOf_concat [] s.directories i (List.mem_of_find?_eq_some hfind)
    exact ⟨d, i.1.name, hd⟩
  | none =>
    rw [hroot] at h
    dsimp only at h
    split at h
    next =>
      have hrun := searchDirectories_run p maxResults [] query.includeInit [] query s.directories []
      rw [List.append_nil] at hrun
      dsimp only [Collect.run] at hrun
      rw [ite_self] at hrun
      rw [← hrun] at h
      obtain h | ⟨tests, f, query', hmem, hr⟩ := Collect.mem_run h
      · exact absurd h List.not_mem_nil
      · obtain ⟨v, hv, hstep⟩ := List.mem_map.mp hmem
        exact offer_hasPath p hv hstep hr
    next => exact absurd h List.not_mem_nil

end Dcpp.ShareManager
