import Dcpp.ADLSearchWalk

-- What the walk leaves in every destination, and what the list has of it in the end.
namespace Dcpp.ADLSearchManager

open DirectoryListing OrderedSet

/-- What the searches with the destination at `i` match. -/
def hitsAt (collection : SearchCollection) (i : Nat) : Hits where
  file path f := collection.any fun s => s.2 = i && s.1.matchesFile f.name (path ++ str "\\" ++ f.name) f.size
  directory name := collection.any fun s => s.2 = i && s.1.matchesDirectory name

/-- What is done with all destinations is, for the one at `i`, what `g` does with it. -/
def Alone (i : Nat) (op : List DestDir → List DestDir) (g : DestDir → DestDir) : Prop :=
  ∀ ds, (op ds)[i]? = ds[i]?.map g

theorem Alone.comp {i : Nat} {op op' : List DestDir → List DestDir} {g g' : DestDir → DestDir}
    (h' : Alone i op' g') (h : Alone i op g) : Alone i (fun ds => op' (op ds)) fun id => g' (g id) := by
  intro ds
  rw [h' (op ds), h ds, Option.map_map]
  rfl

theorem alone_map (i : Nat) (g : DestDir → DestDir) : Alone i (List.map g) g := fun _ => List.getElem?_map

theorem alone_foldl {α : Type*} {i : Nat} {op : List DestDir → α → List DestDir} {g : DestDir → α → DestDir}
    (h : ∀ x, Alone i (fun ds => op ds x) fun id => g id x) (xs : List α) :
    Alone i (fun ds => xs.foldl op ds) fun id => xs.foldl g id := by
  induction xs with
  | nil => exact fun ds => Option.map_id'.symm
  | cons x xs ih => exact ih.comp (h x)

variable (less : Bytes → Bytes → Prop) [DecidableRel less] (collection : SearchCollection) (i : Nat)

/-- Of the searches with a destination the first that hits is the one that takes it. -/
theorem alone_matchSearches (taken : DestDir → Bool) (hit : ADLSearch → Bool) (add : DestDir → DestDir)
    (htaken : ∀ id, taken id = false → taken (add id) = true) (collection : SearchCollection) (i : Nat) :
    Alone i (matchSearches false taken hit add collection) fun id =>
      if taken id = false ∧ (collection.any fun s => s.2 = i && hit s.1) = true then add id else id := by
  induction collection with
  | nil =>
    intro ds
    rw [matchSearches]
    cases ds[i]? <;> simp
  | cons s rest ih =>
    obtain ⟨is, ddIndex⟩ := s
    intro ds
    have hany : ((is, ddIndex) :: rest).any (fun s => s.2 = i && hit s.1) =
        (decide (ddIndex = i) && hit is || rest.any fun s => s.2 = i && hit s.1) := List.any_cons
    rw [matchSearches, hany]
    by_cases hi : ddIndex = i
    · subst hi
      split
      next hbusy =>
        obtain ⟨id, hid, hbusy⟩ := (Option.any_eq_true _ _).mp hbusy
        rw [ih, hid]
        simp [hbusy]
      next hbusy =>
        split
        next hhit =>
          rw [if_neg Bool.false_ne_true, ih, List.getElem?_modify]
          cases hid : ds[ddIndex]? with
          | none => simp
          | some id =>
            have hfree : taken id = false := by simpa [hid] using hbusy
            simp [hfree, hhit, htaken id hfree]
        next hhit =>
          have hmiss : (decide (ddIndex = ddIndex) && hit is) = false := by simp [hhit]
          rw [ih, hmiss, Bool.false_or]
    · have hother : (decide (ddIndex = i) && hit is) = false := by simp [hi]
      rw [hother, Bool.false_or]
      split
      next => rw [ih]
      next =>
        split
        next => rw [if_neg Bool.false_ne_true, ih, List.getElem?_modify_ne _ _ hi]
        next => rw [ih]

theorem alone_matchesFile (fullPath : Bytes) (f : DirectoryListing.File) :
    Alone i (fun ds => matchesFile less collection false ds f fullPath)
      fun id => id.matchFile less (hitsAt collection i).named fullPath f := by
  intro ds
  have hstore := alone_map i (DestDir.storeFile less f)
  beta_reduce
  rw [matchesFile]
  split
  next hname =>
    rw [hstore]
    congr 1
    funext id
    simp [DestDir.matchFile, Hits.named, hname]
  next hname =>
    rw [((alone_matchSearches _ _ _ (fun _ _ => rfl) collection i).comp hstore) ds]
    congr 1
    funext id
    have hhits : (hitsAt collection i).named.file fullPath f = collection.any fun s =>
        s.2 = i && s.1.matchesFile f.name (fullPath ++ str "\\" ++ f.name) f.size := by
      simp [Hits.named, hname, hitsAt]
    have hfree : (id.storeFile less f).fileAdded = false := rfl
    rw [DestDir.matchFile, hhits, hfree]
    simp only [true_and]

theorem alone_matchesDirectory (name fullPath : Bytes) :
    Alone i (fun ds => matchesDirectory less collection false ds name fullPath)
      fun id => id.matchDirectory less (hitsAt collection i).named fullPath name := by
  intro ds
  have hstore := alone_map i (DestDir.storeDirectory less fullPath name)
  beta_reduce
  rw [matchesDirectory]
  split
  next hname =>
    rw [hstore]
    congr 1
    funext id
    simp [DestDir.matchDirectory, Hits.named, hname]
  next hname =>
    have hsearch := alone_matchSearches (fun id => id.subdir ≠ []) (fun is => is.matchesDirectory name)
      (DestDir.addDirectory less fullPath name) (fun _ _ => rfl) collection i
    rw [(hsearch.comp hstore) ds]
    congr 1
    funext id
    have hhits : (hitsAt collection i).named.directory name = collection.any fun s =>
        s.2 = i && s.1.matchesDirectory name := by simp [Hits.named, hname, hitsAt]
    rw [DestDir.matchDirectory, hhits]
    simp only [decide_not, Bool.not_eq_false', decide_eq_true_eq]

theorem alone_matchDirectories {ds : List Directory}
    (h : ∀ d ∈ ds, ∀ path, Alone i (matchRecurse less collection false path d)
      (DestDir.walk less (hitsAt collection i).named path d)) (path : Bytes) :
    Alone i (matchDirectories less collection false path ds)
      (DestDir.walkAll less (hitsAt collection i).named path ds) := by
  induction ds with
  | nil => exact fun ds => Option.map_id'.symm
  | cons d rest ih =>
    have hrest := ih fun d' hd' => h d' (List.mem_cons_of_mem d hd')
    let tmpPath := path ++ str "\\" ++ d.label.name
    exact hrest.comp ((h d List.mem_cons_self tmpPath).comp (alone_matchesDirectory less collection i d.label.name tmpPath))

/-- The walk with several destinations is the walk of every single one. -/
theorem alone_matchRecurse (path : Bytes) (d : Directory) :
    Alone i (matchRecurse less collection false path d) (DestDir.walk less (hitsAt collection i).named path d) := by
  induction d using Tree.induction generalizing path with
  | h n children ih =>
    have hdirectories := alone_matchDirectories less collection i ih path
    have hfiles := alone_foldl (alone_matchesFile less collection i path) n.files
    exact (alone_map i (DestDir.stepUp less)).comp (hfiles.comp hdirectories)

section

variable (hits : Hits)

theorem files_named (path : Bytes) (d : Directory) :
    hits.named.files path d = (hits.files path d).filter fun f => f.name ≠ [] := by
  induction d using Tree.induction generalizing path with
  | h n children ih =>
    have hin : hits.named.filesIn path children = (hits.filesIn path children).filter fun f => f.name ≠ [] := by
      induction children with
      | nil => rfl
      | cons d rest ihrest =>
        rw [Hits.filesIn, Hits.filesIn, List.filter_append, ih d List.mem_cons_self,
          ihrest fun d' hd' => ih d' (List.mem_cons_of_mem d hd')]
    rw [Hits.files, Hits.files, List.filter_append, hin, List.filter_filter]
    rfl

/-- Only directories that have a name are mirrored. -/
theorem ne_nil_of_mem_directories_named {path : Bytes} {d : Directory} {m : AdlDirectory}
    (h : m ∈ hits.named.directories path d) : AdlNode.key m ≠ [] := by
  induction d using Tree.induction generalizing path with
  | h n children ih =>
    rw [Hits.directories] at h
    split at h
    next hhit =>
      obtain rfl := List.mem_singleton.mp h
      intro hnil
      rw [AdlNode.key, label_mirror] at hnil
      change n.name = [] at hnil
      simp [Hits.named, hnil] at hhit
    next =>
      induction children with
      | nil => exact absurd h List.not_mem_nil
      | cons d rest ihrest =>
        rw [Hits.directoriesIn] at h
        obtain h | h := List.mem_append.mp h
        · exact ih d List.mem_cons_self h
        · exact ihrest (fun d' hd' => ih d' (List.mem_cons_of_mem d hd')) h

theorem directories_named {path : Bytes} {d : Directory}
    (h : ∀ m ∈ hits.directories path d, AdlNode.key m ≠ []) :
    hits.named.directories path d = hits.directories path d := by
  induction d using Tree.induction generalizing path with
  | h n children ih =>
    rw [Hits.directories] at h ⊢
    rw [Hits.directories]
    cases hhit : hits.directory n.name with
    | true =>
      rw [hhit, if_pos rfl] at h
      have hname : n.name ≠ [] := by
        have hkey := h _ (List.mem_singleton_self _)
        rwa [AdlNode.key, label_mirror] at hkey
      simp [Hits.named, hname, hhit]
    | false =>
      rw [hhit, if_neg Bool.false_ne_true] at h
      have hnamed : hits.named.directory n.name = false := by simp [Hits.named, hhit]
      rw [hnamed, if_neg Bool.false_ne_true, if_neg Bool.false_ne_true]
      induction children with
      | nil => rfl
      | cons d rest ihrest =>
        rw [Hits.directoriesIn] at h ⊢
        obtain ⟨hd, hrest⟩ := List.forall_mem_append.mp h
        rw [Hits.directoriesIn, ih d List.mem_cons_self hd,
          ihrest (fun d' hd' => ih d' (List.mem_cons_of_mem d hd')) hrest]

end

variable (l : Util.Locale)

/-- The names of the destinations. -/
def destinations (collection : List ADLSearch) : List Bytes :=
  (prepareDestinationDirectories l collection).2.map DestDir.name

/-- A search has a destination of the name that it asks for. -/
def Assigned (destDirs : List DestDir) (s : ADLSearch × Nat) : Prop :=
  if s.1.destDir = [] then s.2 = 0
  else ∃ id, destDirs[s.2]? = some id ∧ Util.noCaseStringEq l s.1.destDir id.name = true

theorem Assigned.append {destDirs : List DestDir} {s : ADLSearch × Nat} (h : Assigned l destDirs s)
    (rest : List DestDir) : Assigned l (destDirs ++ rest) s := by
  rw [Assigned] at h ⊢
  split
  next hnil => rwa [if_pos hnil] at h
  next hne =>
    rw [if_neg hne] at h
    obtain ⟨id, hid, heq⟩ := h
    exact ⟨id, (List.getElem?_append_left (List.getElem?_eq_some_iff.mp hid).1).trans hid, heq⟩

/-- A search finds its destination, or a new one comes last whose name no destination has. -/
theorem prepareDestination_cases (is : ADLSearch) (destDirs : List DestDir) :
    ∃ names, (prepareDestination l is.destDir destDirs).2 = destDirs ++ names.map DestDir.new ∧
      ((destDirs.map DestDir.name).Nodup → (destDirs.map DestDir.name ++ names).Nodup) ∧
      Assigned l (prepareDestination l is.destDir destDirs).2 (is, (prepareDestination l is.destDir destDirs).1) := by
  rw [prepareDestination]
  split
  next hnil =>
    refine ⟨[], (List.append_nil _).symm, fun h => (List.append_nil _).symm ▸ h, ?_⟩
    rw [Assigned, if_pos hnil]
  next hne =>
    split
    next ddIndex hfind =>
      obtain ⟨hlt, hid, -⟩ := List.findIdx?_eq_some_iff_getElem.mp hfind
      refine ⟨[], (List.append_nil _).symm, fun h => (List.append_nil _).symm ▸ h, ?_⟩
      rw [Assigned, if_neg hne]
      exact ⟨destDirs[ddIndex], List.getElem?_eq_getElem hlt, hid⟩
    next hfind =>
      have hself : Util.noCaseStringEq l is.destDir is.destDir = true :=
        decide_eq_true (Util.stricmp_self l is.destDir)
      refine ⟨[is.destDir], rfl, fun h => ?_, ?_⟩
      · refine List.nodup_append.mpr ⟨h, List.nodup_singleton _, fun name hname name' hname' heq => ?_⟩
        obtain rfl := List.mem_singleton.mp hname'
        obtain ⟨id, hid, rfl⟩ := List.mem_map.mp hname
        have hno := List.findIdx?_eq_none_iff.mp hfind id hid
        rw [heq, hself] at hno
        cases hno
      · rw [Assigned, if_neg hne]
        exact ⟨DestDir.new is.destDir, List.getElem?_concat_length, hself⟩

theorem prepareDestinations_spec (collection : List ADLSearch) (destDirs : List DestDir) :
    ∃ names, (prepareDestinations l collection destDirs).2 = destDirs ++ names.map DestDir.new ∧
      ((destDirs.map DestDir.name).Nodup → (destDirs.map DestDir.name ++ names).Nodup) ∧
      (prepareDestinations l collection destDirs).1.map Prod.fst = collection ∧
      ∀ s ∈ (prepareDestinations l collection destDirs).1,
        Assigned l (prepareDestinations l collection destDirs).2 s := by
  induction collection generalizing destDirs with
  | nil =>
    refine ⟨[], (List.append_nil _).symm, fun h => (List.append_nil _).symm ▸ h, rfl, fun s hs => ?_⟩
    exact absurd hs List.not_mem_nil
  | cons is rest ih =>
    obtain ⟨names, hone, hnodup, hassigned⟩ := prepareDestination_cases l is destDirs
    obtain ⟨names', hrest, hnodup', hfst, hassigned'⟩ := ih (prepareDestination l is.destDir destDirs).2
    have hnames : (prepareDestination l is.destDir destDirs).2.map DestDir.name =
        destDirs.map DestDir.name ++ names := by
      rw [hone, List.map_append, List.map_map]
      congr 1
      exact List.map_id names
    rw [hnames] at hnodup'
    refine ⟨names ++ names', ?_, fun h => ?_, ?_, fun s hs => ?_⟩
    · rw [prepareDestinations, hrest, hone, List.map_append, List.append_assoc]
    · rw [← List.append_assoc]
      exact hnodup' (hnodup h)
    · rw [prepareDestinations, List.map_cons, hfst]
    · obtain rfl | hs := List.mem_cons.mp hs
      · rw [prepareDestinations, hrest]
        exact hassigned.append l _
      · exact hassigned' s hs

/-- The destinations are new, with names of their own, and every search has one. -/
theorem prepareDestinationDirectories_spec (collection : List ADLSearch) :
    (prepareDestinationDirectories l collection).2 = (destinations l collection).map DestDir.new ∧
      (destinations l collection).Nodup ∧
      (prepareDestinationDirectories l collection).1.map Prod.fst = collection ∧
      ∀ s ∈ (prepareDestinationDirectories l collection).1,
        Assigned l (prepareDestinationDirectories l collection).2 s := by
  obtain ⟨names, hnew, hnodup, hfst, hassigned⟩ :=
    prepareDestinations_spec l collection [DestDir.new (str "ADLSearch")]
  have hnames : destinations l collection = str "ADLSearch" :: names := by
    rw [destinations, prepareDestinationDirectories, hnew, List.map_append, List.map_map]
    exact congrArg (str "ADLSearch" :: ·) (List.map_id names)
  refine ⟨?_, ?_, hfst, hassigned⟩
  · rw [hnames]
    exact hnew
  · rw [hnames]
    exact hnodup (List.nodup_singleton _)

end Dcpp.ADLSearchManager
