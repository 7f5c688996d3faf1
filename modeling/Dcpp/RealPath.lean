import Dcpp.ShareIndexed

-- Which files the real paths lead to, over the runs of the `ShareManager`.
namespace Dcpp.ShareManager

open Directory

/-- The first element with the property. -/
def First {α : Type} (q : α → Bool) (xs : List α) (x : α) : Prop :=
  ∃ l l', xs = l ++ x :: l' ∧ q x = true ∧ ∀ y ∈ l, q y = false

theorem find?_eq_some_iff_first {α : Type} {q : α → Bool} {xs : List α} {x : α} :
    xs.find? q = some x ↔ First q xs x := by
  rw [List.find?_eq_some_iff_append, First]
  constructor
  · intro ⟨hx, l, l', hxs, hl⟩
    exact ⟨l, l', hxs, hx, fun y hy => by simpa using hl y hy⟩
  · intro ⟨l, l', hxs, hx, hl⟩
    exact ⟨hx, l, l', hxs, fun y hy => by simpa using hl y hy⟩

/-- The names are the real names of the directories on the way down, each the first one of its name. -/
inductive Way : List Bytes → Directory → Directory → Prop where
  | here (d : Directory) : Way [] d d
  | sub {n : DirectoryNode} {children : List Directory} {c d : Directory} {name : Bytes} {names : List Bytes} :
    First (fun sub => getRealName sub.label = name) children c → Way names c d → Way (name :: names) (.node n children) d

/-- The first of the files that was renamed from the path; those before it have been renamed as well. -/
def Nearest (realPath : Bytes) (files : List File) (f : File) : Prop :=
  ∃ l l', files = l ++ f :: l' ∧ f.realPath = some realPath ∧ ∀ g ∈ l, g.realPath.isSome ∧ g.realPath ≠ some realPath

variable (p : Platform) (c : Settings)

/-- The file has the name at the end of the path. -/
def isBase (realPath : Bytes) (f : File) : Bool := stricmpEq p (Util.getFileName realPath) f.name

/-- The first file that has the name, with the files before and after it in the order of the set. -/
structure BaseOf (realPath : Bytes) (files before : List File) (i : File) (after : List File) : Prop where
  split : files = before ++ i :: after
  base : isBase p realPath i = true
  first : ∀ g ∈ before, isBase p realPath g = false

/-- Which of the files its real path stands for: one that was not renamed, when none that was renamed from the path is
next to it; or one that was renamed and is the nearest such to the first file of the name. -/
inductive Among (realPath : Bytes) (files : List File) (f : File) : Prop where
  | plain {before after : List File} : BaseOf p realPath files before f after → f.realPath = none →
    (∀ g, ¬Nearest realPath before.reverse g ∧ ¬Nearest realPath after g) → Among realPath files f
  | base {before after : List File} : BaseOf p realPath files before f after → f.realPath = some realPath →
    Among realPath files f
  | before {before after : List File} {i : File} : BaseOf p realPath files before i after →
    i.realPath ≠ some realPath → Nearest realPath before.reverse f → Among realPath files f
  | after {before after : List File} {i : File} : BaseOf p realPath files before i after →
    i.realPath ≠ some realPath → (∀ g, ¬Nearest realPath before.reverse g) → Nearest realPath after f →
    Among realPath files f

/-- The first share that the path is below, its root and the way from there lead to a directory where the path stands
for the file. -/
inductive Leads (s : Share) (realPath : Bytes) (f : File) : Prop where
  | intro {i : Bytes × Bytes} {root d : Directory} : First (fun i => isBelow p realPath i.1) s.shares i →
    First (fun d => stricmpEq p i.2 d.label.name) s.directories root →
    Way (directoryNames (realPath.drop i.1.length)) root d → Among p realPath d.label.files f → Leads s realPath f

/-- The file is found at the path, and a hash that is done for the path becomes that of the file, and of no other. -/
structure Recorded (s : Share) (realPath : Bytes) (f : File) : Prop where
  found : getFile p s realPath = some f
  files : ∀ root, allFilesOf (tthDone p s realPath root).directories =
    (allFilesOf s.directories).map fun g => if g = f then { g with tth := some root } else g
  indexed : ∀ root, lookup (tthDone p s realPath root).indices.tthIndex root = some f.id

theorem descend_eq_some_iff {names : List Bytes} {dir d : Directory} : descend names dir = some d ↔ Way names dir d := by
  constructor
  · intro h
    induction names generalizing dir with
    | nil =>
      obtain rfl := Option.some.inj h
      exact .here dir
    | cons name names ih =>
      obtain ⟨n, children⟩ := dir
      obtain ⟨sub, hsub, h⟩ := Option.bind_eq_some_iff.mp h
      exact .sub (find?_eq_some_iff_first.mp hsub) (ih h)
  · intro h
    induction h with
    | here d => rfl
    | sub hfirst _ ih =>
      rw [descend, Tree.children_node, find?_eq_some_iff_first.mpr hfirst]
      exact ih

theorem nearest_cons {realPath : Bytes} {g f : File} {files : List File} :
    Nearest realPath (g :: files) f ↔
      g = f ∧ g.realPath = some realPath ∨ (g.realPath.isSome ∧ g.realPath ≠ some realPath) ∧ Nearest realPath files f := by
  constructor
  · rintro ⟨l, l', hfiles, hf, hl⟩
    cases l with
    | nil =>
      obtain ⟨rfl, rfl⟩ := List.cons.inj hfiles
      exact Or.inl ⟨rfl, hf⟩
    | cons g' l =>
      obtain ⟨rfl, rfl⟩ := List.cons.inj hfiles
      obtain ⟨hg, hl⟩ := List.forall_mem_cons.mp hl
      exact Or.inr ⟨hg, l, l', rfl, hf, hl⟩
  · rintro (⟨rfl, hg⟩ | ⟨hg, l, l', rfl, hf, hl⟩)
    · exact ⟨[], files, rfl, hg, List.forall_mem_nil _⟩
    · exact ⟨g :: l, l', rfl, hf, List.forall_mem_cons.mpr ⟨hg, hl⟩⟩

/-- The scan from the base file finds the nearest file, if there is one. -/
theorem beside_eq_some_iff {realPath : Bytes} {files : List File} {f : File} :
    beside realPath files = some f ↔ Nearest realPath files f := by
  induction files with
  | nil => simp [beside, Nearest]
  | cons g files ih =>
    rw [nearest_cons, ← ih, beside, beside, List.takeWhile_cons]
    cases hg : g.realPath with
    | none => simp
    | some path =>
      by_cases hpath : path = realPath
      · simp [hpath, hg]
      · simp [hpath, hg]

theorem beside_eq_none_iff {realPath : Bytes} {files : List File} :
    beside realPath files = none ↔ ∀ f, ¬Nearest realPath files f := by
  rw [Option.eq_none_iff_forall_ne_some]
  apply forall_congr'
  intro f
  rw [ne_eq, beside_eq_some_iff]

/-- `getFile` in the directory of the path. -/
def pick (realPath : Bytes) (files : List File) : Option File :=
  (files.find? (isBase p realPath)).map fun i =>
    if i.realPath = some realPath then i
    else
      (beside realPath (files.takeWhile fun f => !isBase p realPath f).reverse).getD
        ((beside realPath (files.dropWhile fun f => !isBase p realPath f).tail).getD i)

theorem getFile_eq (s : Share) (realPath : Bytes) :
    getFile p s realPath = (getDirectory p s realPath).bind fun d => pick p realPath d.label.files := rfl

theorem BaseOf.pick_eq {realPath : Bytes} {files before after : List File} {i : File}
    (h : BaseOf p realPath files before i after) :
    pick p realPath files =
      some (if i.realPath = some realPath then i
        else (beside realPath before.reverse).getD ((beside realPath after).getD i)) := by
  obtain ⟨rfl, hi, hfirst⟩ := h
  have hfind : (before ++ i :: after).find? (isBase p realPath) = some i :=
    find?_eq_some_iff_first.mpr ⟨before, after, rfl, hi, hfirst⟩
  have htake : (before ++ i :: after).takeWhile (fun f => !isBase p realPath f) = before := by
    rw [List.takeWhile_append_of_pos fun g hg => by simp [hfirst g hg]]
    simp [hi]
  have hdrop : (before ++ i :: after).dropWhile (fun f => !isBase p realPath f) = i :: after := by
    rw [List.dropWhile_append_of_pos fun g hg => by simp [hfirst g hg]]
    simp [hi]
  rw [pick, hfind, htake, hdrop, Option.map_some, List.tail_cons]

/-- A file whose real path is the path is picked exactly when the path stands for it. -/
theorem pick_eq_some_iff {realPath : Bytes} {files : List File} {f : File}
    (hown : f.realPath = none ∨ f.realPath = some realPath) :
    pick p realPath files = some f ↔ Among p realPath files f := by
  constructor
  · intro h
    obtain ⟨i, hi, -⟩ := Option.map_eq_some_iff.mp h
    obtain ⟨before, after, hsplit, hi, hfirst⟩ := find?_eq_some_iff_first.mp hi
    have hbase : BaseOf p realPath files before i after := ⟨hsplit, hi, hfirst⟩
    rw [hbase.pick_eq] at h
    have hf := Option.some.inj h
    by_cases hreal : i.realPath = some realPath
    · rw [if_pos hreal] at hf
      subst hf
      exact .base hbase hreal
    · rw [if_neg hreal] at hf
      cases hbefore : beside realPath before.reverse with
      | some g =>
        rw [hbefore, Option.getD_some] at hf
        subst hf
        exact .before hbase hreal (beside_eq_some_iff.mp hbefore)
      | none =>
        have hnone := beside_eq_none_iff.mp hbefore
        rw [hbefore, Option.getD_none] at hf
        cases hafter : beside realPath after with
        | some g =>
          rw [hafter, Option.getD_some] at hf
          subst hf
          exact .after hbase hreal hnone (beside_eq_some_iff.mp hafter)
        | none =>
          rw [hafter, Option.getD_none] at hf
          subst hf
          exact .plain hbase (hown.resolve_right hreal) fun g => ⟨hnone g, beside_eq_none_iff.mp hafter g⟩
  · intro h
    cases h with
    | plain hbase hreal hnone =>
      have hbefore := beside_eq_none_iff.mpr fun g => (hnone g).1
      have hafter := beside_eq_none_iff.mpr fun g => (hnone g).2
      rw [hbase.pick_eq, hbefore, hafter, hreal]
      simp
    | base hbase hreal => rw [hbase.pick_eq, if_pos hreal]
    | before hbase hreal hf => rw [hbase.pick_eq, if_neg hreal, beside_eq_some_iff.mpr hf, Option.getD_some]
    | after hbase hreal hnone hf =>
      rw [hbase.pick_eq, if_neg hreal, beside_eq_none_iff.mpr hnone, beside_eq_some_iff.mpr hf, Option.getD_none,
        Option.getD_some]

/-- A file is found at its real path exactly when the path leads to it. -/
theorem getFile_eq_some_iff {s : Share} {realPath : Bytes} {f : File}
    (hown : f.realPath = none ∨ f.realPath = some realPath) :
    getFile p s realPath = some f ↔ Leads p s realPath f := by
  constructor
  · intro h
    rw [getFile_eq] at h
    obtain ⟨d, hd, hf⟩ := Option.bind_eq_some_iff.mp h
    obtain ⟨way, hway, hd⟩ := Option.bind_eq_some_iff.mp hd
    obtain ⟨i, hi, rfl⟩ := Option.map_eq_some_iff.mp hway
    obtain ⟨root, hroot, hd⟩ := Option.bind_eq_some_iff.mp hd
    exact .intro (find?_eq_some_iff_first.mp hi) (find?_eq_some_iff_first.mp hroot) (descend_eq_some_iff.mp hd)
      ((pick_eq_some_iff p hown).mp hf)
  · rintro ⟨hi, hroot, hway, hf⟩
    rw [getFile_eq, getDirectory, getRoot, find?_eq_some_iff_first.mpr hi, Option.map_some, Option.bind_some,
      findDirectory, find?_eq_some_iff_first.mpr hroot, Option.bind_some, descend_eq_some_iff.mpr hway, Option.bind_some]
    exact (pick_eq_some_iff p hown).mpr hf

mutual

/-- The real path of a file that was renamed is the one that it keeps. -/
theorem realPaths_own {rp : Bytes → Option Bytes} {dir : Directory} {f : File} {realPath : Bytes}
    (h : (f, some realPath) ∈ realPaths rp dir) : f.realPath = none ∨ f.realPath = some realPath := by
  obtain ⟨d, directories⟩ := dir
  rw [realPaths, List.mem_append] at h
  obtain h | h := h
  · exact realPathsOf_own h
  · obtain ⟨g, -, heq⟩ := List.mem_map.mp h
    obtain ⟨rfl, hreal⟩ := Prod.mk.inj heq
    cases hg : g.realPath with
    | none => exact Or.inl rfl
    | some path =>
      rw [fileRealPath, hg] at hreal
      exact Or.inr hreal

theorem realPathsOf_own {rp : Bytes → Option Bytes} {directories : List Directory} {f : File} {realPath : Bytes}
    (h : (f, some realPath) ∈ realPathsOf rp directories) : f.realPath = none ∨ f.realPath = some realPath := by
  cases directories with
  | nil => cases h
  | cons d directories =>
    rw [realPathsOf, List.mem_append] at h
    obtain h | h := h
    · exact realPaths_own h
    · exact realPathsOf_own h

end

/-- When the hash of a path is done, the file that is found at the path gets it. -/
theorem recorded_of_getFile {s : Share} (hnd : (ids (allFilesOf s.directories)).Nodup) {realPath : Bytes} {f : File}
    (h : getFile p s realPath = some f) : Recorded p s realPath f := by
  refine ⟨h, fun root => ?_, fun root => ?_⟩
  · rw [tthDone, h]
    dsimp only
    rw [allFilesOf_mapFilesOf]
    apply List.map_congr_left
    intro g hg
    have hiff : g.id = f.id ↔ g = f :=
      ⟨List.inj_on_of_nodup_map (Multiset.coe_nodup.mp hnd) hg (getFile_mem h), congrArg File.id⟩
    simp only [hiff]
  · rw [tthDone, h]
    exact lookup_assign_self root f.id _

/-- Every event keeps the addresses apart. -/
theorem step_fresh {s t : Share} (h : Fresh s.nextId (allFilesOf s.directories)) {i : Settings × Event}
    (ht : step p i.1 s i.2 = some t) : Fresh t.nextId (allFilesOf t.directories) := by
  obtain ⟨c, e⟩ := i
  cases e with
  | addDirectory fs realPath virtualName =>
    obtain rfl := Option.some.inj ht
    have hadded : Fresh (added p c fs s realPath virtualName).1.nextId _ := added_fresh p c h realPath virtualName
    rw [addDirectory]
    dsimp only
    split
    next => exact hadded
    next => exact rebuildIndices_fresh p c hadded _
  | removeDirectory fs realPath =>
    obtain rfl := Option.some.inj ht
    rw [removeDirectory]
    split
    next => exact h
    next i _ =>
      have hremoved : Fresh (removed p c fs s realPath i.2).1.nextId _ := removed_fresh p c h realPath i.2
      dsimp only
      split
      next => exact hremoved
      next => exact rebuildIndices_fresh p c hremoved _
  | refresh fs dirs =>
    rw [step, refresh] at ht
    dsimp only at ht
    split at ht
    next => cases ht
    next =>
      obtain rfl := Option.some.inj ht
      have hempty : Fresh s.nextId (allFilesOf []) := h.mono (Multiset.zero_le _)
      exact rebuildIndices_fresh p c (shareAll_fresh p c (s := { s with directories := [] }) hempty dirs) _
  | fileMoved realPath size tth =>
    obtain rfl := Option.some.inj ht
    obtain heq | ⟨n, d, -, -, -, -, hid, hgain⟩ := fileMoved_cases p c s realPath size tth
    · rw [heq]
      exact h
    · rw [hid]
      exact h.gains (validateName_id p d _ _) hgain
  | tthDone realPath root =>
    obtain rfl := Option.some.inj ht
    rw [tthDone]
    split
    next => exact h
    next f _ =>
      dsimp only
      rw [allFilesOf_mapFilesOf]
      exact h.rehash f.id root

theorem run_fresh {events : List (Settings × Event)} {s : Share} (hs : Runs.run (change p) start events = some s) :
    Fresh s.nextId (allFilesOf s.directories) := by
  have hstep : ∀ (s : Share) (i : Settings × Event) (t : Share), Fresh s.nextId (allFilesOf s.directories) → True →
      change p s i = some t → Fresh t.nextId (allFilesOf t.directories) :=
    fun _ _ _ h _ ht => step_fresh p h ht
  have hend := Runs.run_preserves hstep start_exact.fresh (fun _ _ _ _ => trivial) hs
  exact hend

/-- Two directories, which both have a file of one name. -/
def sameName (others : List Bytes) : FileSystem where
  entries realPath :=
    let names := if realPath = str "/a/" then str "x.txt" :: others else [str "x.txt"]
    names.map fun name => .node ⟨name, false, false, false, 1, none⟩ []
  found _ := true
  isHidden _ := false

/-- The directories are shared under one name. -/
def merged (others : List Bytes) : List (Settings × Event) :=
  [(defaults, .addDirectory (sameName others) (str "/a/") (str "v")),
    (defaults, .addDirectory (sameName others) (str "/b/") (str "v"))]

end Dcpp.ShareManager
