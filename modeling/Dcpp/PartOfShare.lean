import Mathlib.Data.List.Find
import Dcpp.FileListRoundTrip
import Dcpp.PartialLists

-- The listings that are parts of a share, and what the entries of a partial list make of them.
namespace Dcpp.DirectoryListing

open SimpleXML SimpleXMLReader OrderedTree OrderedSet
open ShareManager (Expands nextLevel)

/-- All that is listed of a directory is there. -/
structure Full (d : ShareManager.Directory) (t : Directory) : Prop where
  files : ∀ f ∈ listedFiles d.label.files, f ∈ t.label.files
  directories : ∀ d' ∈ d.children, ∃ c ∈ t.children, c.label.name = d'.label.name

/-- A part of a directory of the share, where the directories that are said to be complete are so; `origin` is where
those in it are from. -/
inductive Part : ShareManager.Directory → Directory → Prop where
  | node {d : ShareManager.Directory} {t : Directory} (origin : Directory → ShareManager.Directory) :
    t.label.name = d.label.name → (∀ f ∈ t.label.files, f ∈ listedFiles d.label.files) →
    (∀ c ∈ t.children, origin c ∈ d.children) → (∀ c ∈ t.children, Part (origin c) c) →
    (t.label.complete = true → Full d t) → Part d t

namespace Part

variable {d : ShareManager.Directory} {t : Directory}

theorem name (h : Part d t) : t.label.name = d.label.name := by
  cases h
  assumption

theorem files (h : Part d t) : ∀ f ∈ t.label.files, f ∈ listedFiles d.label.files := by
  cases h
  assumption

theorem children (h : Part d t) : ∀ c ∈ t.children, ∃ d' ∈ d.children, Part d' c := by
  cases h with
  | node origin _ _ hmem hpart => exact fun c hc => ⟨origin c, hmem c hc, hpart c hc⟩

theorem full (h : Part d t) : t.label.complete = true → Full d t := by
  cases h
  assumption

end Part

/-- As a part, but for what the directory itself says of being complete. -/
structure Within (d : ShareManager.Directory) (t : Directory) : Prop where
  name : t.label.name = d.label.name
  files : ∀ f ∈ t.label.files, f ∈ listedFiles d.label.files
  children : ∀ c ∈ t.children, ∃ d' ∈ d.children, Part d' c

theorem Part.within {d : ShareManager.Directory} {t : Directory} (h : Part d t) : Within d t := ⟨h.name, h.files, h.children⟩

theorem Within.part {d : ShareManager.Directory} {t : Directory} (h : Within d t) (hfull : t.label.complete = true → Full d t) :
    Part d t := by
  have hexists : ∀ c, ∃ d', c ∈ t.children → d' ∈ d.children ∧ Part d' c := by
    intro c
    by_cases hc : c ∈ t.children
    · obtain ⟨d', hd', hpart⟩ := h.children c hc
      exact ⟨d', fun _ => ⟨hd', hpart⟩⟩
    · exact ⟨d, fun h => absurd h hc⟩
  choose origin horigin using hexists
  exact .node origin h.name h.files (fun c hc => (horigin c hc).1) (fun c hc => (horigin c hc).2) hfull

/-- Nothing is known of the directory yet. -/
theorem Part.new (d : ShareManager.Directory) : Part d (.node (newNode d.label.name) []) :=
  Within.part ⟨rfl, fun _ h => absurd h List.not_mem_nil, fun _ h => absurd h List.not_mem_nil⟩ fun h => by cases h

/-- The directory and all below it are complete. -/
def Whole (t : Directory) : Prop := t.All fun n _ => n.complete = true

theorem Whole.of_children {t : Directory} (h : t.label.complete = true) (hc : ∀ c ∈ t.children, Whole c) : Whole t := by
  obtain ⟨n, children⟩ := t
  exact .node h hc

/-- The directory that a path of names leads to. -/
def follow {α : Type} (name : α → Bytes) : List Bytes → Tree α → Option (Tree α)
  | [], t => some t
  | n :: names, t => (t.children.find? fun c => name c.label = n).bind (follow name names)

/-- What was complete is so, wherever it is. -/
def Keeps (t t' : Directory) : Prop :=
  ∀ names u, follow DirectoryNode.name names t = some u → u.label.complete = true →
    ∃ u', follow DirectoryNode.name names t' = some u' ∧ u'.label.complete = true

theorem Keeps.refl (t : Directory) : Keeps t t := fun _ u hu hcomplete => ⟨u, hu, hcomplete⟩

theorem Keeps.trans {t t' t'' : Directory} (h : Keeps t t') (h' : Keeps t' t'') : Keeps t t'' := by
  intro names u hu hcomplete
  obtain ⟨u', hu', hcomplete'⟩ := h names u hu hcomplete
  exact h' names u' hu' hcomplete'

/-- The directories in it are the same. -/
theorem Keeps.of_children {t t' : Directory} (h : t.label.complete = true → t'.label.complete = true)
    (hchildren : t'.children = t.children) : Keeps t t' := by
  intro names u hu hcomplete
  cases names with
  | nil =>
    obtain rfl := Option.some.inj hu
    exact ⟨t', rfl, h hcomplete⟩
  | cons n names =>
    refine ⟨u, ?_, hcomplete⟩
    rw [follow, hchildren]
    exact hu

section

variable {less : Bytes → Bytes → Prop}

/-- Elements whose keys are apart are the same when their keys tie. -/
theorem eq_of_tie {α : Type*} {key : α → Bytes} {l : List α} (h : Apart less key l) {x y : α} (hx : x ∈ l) (hy : y ∈ l)
    (htie : Tie less (key x) (key y)) : x = y := by
  by_contra hne
  exact (h.forall hx hy hne) htie

variable [DecidableRel less] {d : ShareManager.Directory} {t : Directory}

theorem mem_putChild_self (name : Bytes) (c t : Directory) :
    c ∈ (OrderedTree.putChild less DirectoryNode.name name c t).children := mem_put.mpr (Or.inl rfl)

/-- A directory of the share comes into the set, or takes its place there. -/
theorem Within.putChild (h : Within d t) {d' : ShareManager.Directory} (hd' : d' ∈ d.children) {c : Directory}
    (hc : Part d' c) : Within d (putChild less DirectoryNode.name d'.label.name c t) where
  name := h.name
  files := h.files
  children := by
    intro c' hc'
    obtain rfl | ⟨hc', -⟩ := mem_put.mp hc'
    · exact ⟨d', hd', hc⟩
    · exact h.children c' hc'

/-- The directory of a name is the one of the share. -/
theorem Within.child (h : Within d t) (hapart : Apart less (fun c : ShareManager.Directory => c.label.name) d.children)
    {d' : ShareManager.Directory} (hd' : d' ∈ d.children) :
    Part d' ((OrderedTree.child less DirectoryNode.name d'.label.name t).getD (.node (newNode d'.label.name) [])) := by
  cases hc : OrderedTree.child less DirectoryNode.name d'.label.name t with
  | none => exact Part.new d'
  | some c =>
    obtain ⟨d'', hd'', hpart⟩ := h.children c (find_mem hc)
    have htie := child_tie hc
    rw [hpart.name] at htie
    obtain rfl := eq_of_tie hapart hd'' hd' htie
    exact hpart

/-- The names stay in the set. -/
theorem Within.stays (h : Within d t) (hapart : Apart less (fun c : ShareManager.Directory => c.label.name) d.children)
    {d' : ShareManager.Directory} (hd' : d' ∈ d.children) {c : Directory} (hc : c.label.name = d'.label.name) {name : Bytes}
    (hname : ∃ c' ∈ t.children, c'.label.name = name) :
    ∃ c' ∈ (OrderedTree.putChild less DirectoryNode.name d'.label.name c t).children, c'.label.name = name := by
  obtain ⟨c', hc', rfl⟩ := hname
  by_cases htie : Tie less c'.label.name d'.label.name
  · obtain ⟨d'', hd'', hpart⟩ := h.children c' hc'
    rw [hpart.name] at htie ⊢
    obtain rfl := eq_of_tie hapart hd'' hd' htie
    exact ⟨c, mem_put.mpr (Or.inl rfl), hc⟩
  · exact ⟨c', mem_put.mpr (Or.inr ⟨hc', htie⟩), rfl⟩

/-- The listed files come to those there. -/
theorem Within.addFiles (h : Within d t) (hapart : Apart less File.name (listedFiles d.label.files)) {files : List File}
    (hsub : ∀ f ∈ files, f ∈ listedFiles d.label.files) :
    Within d (addAll less (files.map fun f => ([], .file f)) t) ∧
      (addAll less (files.map fun f => ([], .file f)) t).children = t.children ∧
      (addAll less (files.map fun f => ([], .file f)) t).label.complete = t.label.complete ∧
      ∀ f, f ∈ (addAll less (files.map fun f => ([], .file f)) t).label.files ↔ f ∈ t.label.files ∨ f ∈ files := by
  induction files generalizing t with
  | nil => exact ⟨h, rfl, rfl, fun f => (or_iff_left List.not_mem_nil).symm⟩
  | cons f files ih =>
    obtain ⟨hf, hsub⟩ := List.forall_mem_cons.mp hsub
    have hmem (g : File) : g ∈ (putFile less f t.label).files ↔ g = f ∨ g ∈ t.label.files := by
      refine mem_put.trans ⟨fun h => h.imp_right And.left, fun hg => ?_⟩
      obtain rfl | hg := hg
      · exact Or.inl rfl
      · by_cases htie : Tie less g.name f.name
        · exact Or.inl (eq_of_tie hapart (h.files g hg) hf htie)
        · exact Or.inr ⟨hg, htie⟩
    have hput : Within d (.node (putFile less f t.label) t.children) := by
      refine ⟨h.name, fun g hg => ?_, h.children⟩
      obtain rfl | hg := (hmem g).mp hg
      · exact hf
      · exact h.files g hg
    obtain ⟨hwithin, hchildren, hcomplete, hfiles⟩ := ih hput hsub
    have hadd : addAll less ((f :: files).map fun f => ([], .file f)) t =
        addAll less (files.map fun f => ([], .file f)) (.node (putFile less f t.label) t.children) := rfl
    rw [hadd]
    refine ⟨hwithin, hchildren, hcomplete, fun g => (hfiles g).trans ?_⟩
    rw [Tree.label_node, hmem, List.mem_cons, or_comm (a := g = f), or_assoc]

variable [IsStrictWeakOrder Bytes less]

/-- A directory of the share is found under its very name. -/
theorem Within.child_eq (h : Within d t) (hapart : Apart less (fun c : ShareManager.Directory => c.label.name) d.children)
    {d' : ShareManager.Directory} (hd' : d' ∈ d.children) :
    OrderedTree.child less DirectoryNode.name d'.label.name t =
      t.children.find? fun c => c.label.name = d'.label.name := by
  rw [OrderedTree.child, OrderedSet.find]
  apply List.find?_congr
  intro c hc
  obtain ⟨d'', hd'', hpart⟩ := h.children c hc
  refine decide_eq_decide.mpr ⟨fun htie => ?_, fun hname => hname ▸ Tie.refl _⟩
  rw [hpart.name] at htie ⊢
  exact congrArg (fun d : ShareManager.Directory => d.label.name) (eq_of_tie hapart hd'' hd' htie)

/-- No directory leaves the set, and what was complete is so. -/
theorem Within.keeps_putChild (h : Within d t)
    (hapart : Apart less (fun c : ShareManager.Directory => c.label.name) d.children) {d' : ShareManager.Directory}
    (hd' : d' ∈ d.children) {c : Directory} (hc : Part d' c)
    (hkeeps : Keeps ((OrderedTree.child less DirectoryNode.name d'.label.name t).getD (.node (newNode d'.label.name) [])) c) :
    Keeps t (OrderedTree.putChild less DirectoryNode.name d'.label.name c t) := by
  intro names u hu hcomplete
  cases names with
  | nil =>
    obtain rfl := Option.some.inj hu
    exact ⟨_, rfl, hcomplete⟩
  | cons n names =>
    obtain ⟨c₀, hfind, hbelow⟩ := Option.bind_eq_some_iff.mp hu
    obtain ⟨d'', hd'', hpart⟩ := h.children c₀ (List.mem_of_find?_eq_some hfind)
    have hn : c₀.label.name = n := by simpa using List.find?_some hfind
    rw [hpart.name] at hn
    subst hn
    have htie : Tie less c.label.name d'.label.name := hc.name ▸ Tie.refl _
    have hput : (OrderedTree.putChild less DirectoryNode.name d'.label.name c t).children.find?
        (fun c => c.label.name = d''.label.name) =
          if Tie less d'.label.name d''.label.name then some c else some c₀ := by
      rw [← (h.putChild hd' hc).child_eq hapart hd'', child_putChild htie, h.child_eq hapart hd'', hfind]
    rw [follow, hput]
    by_cases hsame : Tie less d'.label.name d''.label.name
    · obtain rfl := eq_of_tie hapart hd' hd'' hsame
      rw [h.child_eq hapart hd', hfind] at hkeeps
      rw [if_pos hsame]
      exact hkeeps names u hbelow hcomplete
    · rw [if_neg hsame]
      exact ⟨u, hbelow, hcomplete⟩

/-- What the entries of a directory do in its parent, which may have a part of it. -/
def Merges (less : Bytes → Bytes → Prop) [DecidableRel less] (d' : ShareManager.Directory) : Prop :=
  ∀ (level : Int) (d : ShareManager.Directory) (t : Directory), d' ∈ d.children →
    Apart less (fun c : ShareManager.Directory => c.label.name) d.children → Within d t →
      ∃ c, Part d' c ∧ (level < 0 → Whole c) ∧
        Keeps ((OrderedTree.child less DirectoryNode.name d'.label.name t).getD (.node (newNode d'.label.name) [])) c ∧
        addAll less (entries level d') t = OrderedTree.putChild less DirectoryNode.name d'.label.name c t

theorem Within.addEntries (h : Within d t) (hapart : Apart less (fun c : ShareManager.Directory => c.label.name) d.children)
    (level : Int) {directories : List ShareManager.Directory} (hsub : ∀ d' ∈ directories, d' ∈ d.children)
    (hmerges : ∀ d' ∈ directories, Merges less d') :
    Within d (addAll less (listEntries level directories) t) ∧
      (addAll less (listEntries level directories) t).label = t.label ∧
      Keeps t (addAll less (listEntries level directories) t) ∧
      (∀ name, ((∃ c ∈ t.children, c.label.name = name) ∨ ∃ d' ∈ directories, d'.label.name = name) →
        ∃ c ∈ (addAll less (listEntries level directories) t).children, c.label.name = name) ∧
      (level < 0 → ∀ c ∈ (addAll less (listEntries level directories) t).children,
        Whole c ∨ c ∈ t.children ∧ ∀ d' ∈ directories, c.label.name ≠ d'.label.name) := by
  induction directories generalizing t with
  | nil =>
    exact ⟨h, rfl, Keeps.refl t, fun name hname => hname.elim id fun ⟨_, hd, _⟩ => absurd hd List.not_mem_nil,
      fun _ _ hc => Or.inr ⟨hc, fun _ hd => absurd hd List.not_mem_nil⟩⟩
  | cons d' directories ih =>
    obtain ⟨hd', hsub⟩ := List.forall_mem_cons.mp hsub
    obtain ⟨hfirst, hmerges⟩ := List.forall_mem_cons.mp hmerges
    obtain ⟨c, hpart, hwhole, hkeeps, hadd⟩ := hfirst level d t hd' hapart h
    have hput : Within d (OrderedTree.putChild less DirectoryNode.name d'.label.name c t) := h.putChild hd' hpart
    obtain ⟨hwithin, hlabel, hkept, hnames, hwholes⟩ := ih hput hsub hmerges
    rw [listEntries, addAll_append, hadd]
    refine ⟨hwithin, hlabel, (h.keeps_putChild hapart hd' hpart hkeeps).trans hkept, fun name hname => hnames name ?_,
      fun hlevel z hz => ?_⟩
    · obtain hname | ⟨d'', hd'', rfl⟩ := hname
      · exact Or.inl (h.stays hapart hd' hpart.name hname)
      · obtain rfl | hd'' := List.mem_cons.mp hd''
        · exact Or.inl ⟨c, mem_putChild_self _ c t, hpart.name⟩
        · exact Or.inr ⟨d'', hd'', rfl⟩
    · obtain hz | ⟨hz, hne⟩ := hwholes hlevel z hz
      · exact Or.inl hz
      · obtain rfl | ⟨hz, htie⟩ := mem_put.mp hz
        · exact Or.inl (hwhole hlevel)
        · exact Or.inr ⟨hz, List.forall_mem_cons.mpr ⟨fun heq => htie (heq ▸ Tie.refl _), hne⟩⟩

/-- All that is listed of a directory comes to what is there of it. -/
theorem Within.addContent (h : Within d t) (hdistinct : Apart less (fun c : ShareManager.Directory => c.label.name) d.children ∧
      Apart less File.name (listedFiles d.label.files)) (level : Int) (hmerges : ∀ d' ∈ d.children, Merges less d') :
    Within d (addAll less (listEntries level d.children ++ fileEntries d.label.files) t) ∧
      Full d (addAll less (listEntries level d.children ++ fileEntries d.label.files) t) ∧
      (addAll less (listEntries level d.children ++ fileEntries d.label.files) t).label.complete = t.label.complete ∧
      Keeps t (addAll less (listEntries level d.children ++ fileEntries d.label.files) t) ∧
      (level < 0 → ∀ c ∈ (addAll less (listEntries level d.children ++ fileEntries d.label.files) t).children, Whole c) := by
  obtain ⟨hwithin, hlabel, hkeeps, hnames, hwholes⟩ := h.addEntries hdistinct.1 level (fun _ h => h) hmerges
  obtain ⟨hwithin', hchildren, hcomplete, hfiles⟩ := hwithin.addFiles hdistinct.2 fun _ h => h
  rw [addAll_append, fileEntries]
  have hsame := Keeps.of_children (fun hc => hcomplete.trans hc) hchildren
  refine ⟨hwithin', ⟨fun f hf => (hfiles f).mpr (Or.inr hf), fun d' hd' => ?_⟩, by rw [hcomplete, hlabel], hkeeps.trans hsame,
    fun hlevel c hc => ?_⟩
  · rw [hchildren]
    exact hnames _ (Or.inr ⟨d', hd', rfl⟩)
  · rw [hchildren] at hc
    obtain hc | ⟨hc, hne⟩ := hwholes hlevel c hc
    · exact hc
    · obtain ⟨d', hd', hpart⟩ := h.children c hc
      exact absurd hpart.name (hne d' hd')

theorem Keeps.completed (b : Bool) (t : Directory) : Keeps t (ListLoader.completed b t) :=
  Keeps.of_children (fun h => Bool.or_eq_true_iff.mpr (Or.inl h)) rfl

/-- A directory of a list comes to its parent. -/
theorem addAll_directory (name : Bytes) (complete : Bool) (es : List Entry) (t : Directory) :
    addAll less (([], .directory name complete) :: es.map (under name)) t =
      OrderedTree.putChild less DirectoryNode.name name (addAll less es (ListLoader.completed complete
        ((OrderedTree.child less DirectoryNode.name name t).getD (.node (newNode name) [])))) t := by
  have hunder := @addAll_under less _ _ name es (ListLoader.completed complete) (fun _ => rfl) t
  rw [addAll_cons, ListLoader.add_directory, hunder, alterAt, alterAt]

/-- Entries merge into any part of the share. -/
theorem merges {d' : ShareManager.Directory} (h : Distinct less d') : Merges less d' := by
  induction d' using Tree.induction with
  | h n directories ih =>
    obtain ⟨hdistinct, hin⟩ := h
    intro level d t hd' hapart hwithin
    have hpart : Part (.node n directories)
        ((OrderedTree.child less DirectoryNode.name n.name t).getD (.node (newNode n.name) [])) := hwithin.child hapart hd'
    rw [entries]
    split
    next =>
      have hstart (b : Bool) : Within (.node n directories) (ListLoader.completed b
          ((OrderedTree.child less DirectoryNode.name n.name t).getD (.node (newNode n.name) []))) :=
        ⟨hpart.name, hpart.files, fun c hc => hpart.children c hc⟩
      obtain ⟨hw, hfull, hcomplete, hkeeps, hwhole⟩ := (hstart true).addContent hdistinct (nextLevel level) fun c hc =>
        ih c hc (hin c hc)
      refine ⟨_, hw.part fun _ => hfull, fun hlevel => ?_, (Keeps.completed true _).trans hkeeps, addAll_directory _ _ _ t⟩
      have hnext : nextLevel level < 0 := by
        rw [nextLevel]
        split <;> omega
      exact Whole.of_children (hcomplete.trans (Bool.or_true _)) (hwhole hnext)
    next hclosed =>
      refine ⟨_, ?_, fun hlevel => absurd (Or.inl hlevel) hclosed, Keeps.completed _ _, addAll_directory _ _ [] t⟩
      refine Within.part ⟨hpart.name, hpart.files, fun c hc => hpart.children c hc⟩ fun hcomplete => ?_
      obtain hold | hempty := Bool.or_eq_true_iff.mp hcomplete
      · exact ⟨(hpart.full hold).files, (hpart.full hold).directories⟩
      · obtain ⟨hno, hnofiles⟩ := Bool.and_eq_true_iff.mp hempty
        have hno' : directories = [] := List.isEmpty_iff.mp hno
        have hnofiles' : n.files = [] := List.isEmpty_iff.mp hnofiles
        subst hno'
        refine ⟨fun f hf => ?_, fun c hc => absurd hc List.not_mem_nil⟩
        rw [Tree.label_node, hnofiles'] at hf
        exact absurd hf List.not_mem_nil

omit [DecidableRel less] in
/-- The directory of a name in the share. -/
theorem find_self (hapart : Apart less (fun c : ShareManager.Directory => c.label.name) d.children)
    {d' : ShareManager.Directory} (hd' : d' ∈ d.children) :
    (d.children.find? fun c => c.label.name = d'.label.name) = some d' := by
  cases hfind : d.children.find? fun c => c.label.name = d'.label.name with
  | none =>
    rw [List.find?_eq_none] at hfind
    exact absurd (decide_eq_true rfl) (hfind d' hd')
  | some d'' =>
    have hname : d''.label.name = d'.label.name := by simpa using List.find?_some hfind
    exact congrArg some (eq_of_tie hapart (List.mem_of_find?_eq_some hfind) hd' (hname ▸ Tie.refl _))

omit [DecidableRel less] in
theorem Part.find (h : Part d t) (hapart : Apart less (fun c : ShareManager.Directory => c.label.name) d.children) {n : Bytes}
    {c : Directory} (hc : (t.children.find? fun c => c.label.name = n) = some c) :
    ∃ d' ∈ d.children, d'.label.name = n ∧ Part d' c ∧ (d.children.find? fun d' => d'.label.name = n) = some d' := by
  obtain ⟨d', hd', hpart⟩ := h.children c (List.mem_of_find?_eq_some hc)
  have hname : c.label.name = n := by simpa using List.find?_some hc
  rw [hpart.name] at hname
  subst hname
  exact ⟨d', hd', rfl, hpart, find_self hapart hd'⟩

omit [DecidableRel less] in
/-- A directory of the listing is a part of the one that the share has at the same place. -/
theorem Part.follow (h : Part d t) (hdistinct : Distinct less d) {names : List Bytes} {u : Directory}
    (hu : follow DirectoryNode.name names t = some u) :
    ∃ d', DirectoryListing.follow ShareManager.DirectoryNode.name names d = some d' ∧ Part d' u := by
  induction names generalizing d t with
  | nil =>
    obtain rfl := Option.some.inj hu
    exact ⟨d, rfl, h⟩
  | cons n names ih =>
    obtain ⟨c, hc, hu⟩ := Option.bind_eq_some_iff.mp hu
    cases hdistinct with
    | node hapart hin =>
      obtain ⟨d', hd', -, hpart, hfind⟩ := h.find hapart.1 hc
      obtain ⟨d'', hd'', hpart'⟩ := ih hpart (hin d' hd') hu
      refine ⟨d'', ?_, hpart'⟩
      rw [DirectoryListing.follow, hfind]
      exact hd''

omit [IsStrictWeakOrder Bytes less] in
/-- On the way to a directory of the share no other one is taken for it. -/
theorem Part.finds (h : Part d t) (hdistinct : Distinct less d) {names : List Bytes} {d' : ShareManager.Directory}
    (hd' : DirectoryListing.follow ShareManager.DirectoryNode.name names d = some d') : Finds less names t := by
  induction names generalizing d t with
  | nil => trivial
  | cons n names ih =>
    obtain ⟨d₁, hfind, hbelow⟩ := Option.bind_eq_some_iff.mp hd'
    have hmem := List.mem_of_find?_eq_some hfind
    have hname : d₁.label.name = n := by simpa using List.find?_some hfind
    subst hname
    cases hdistinct with
    | node hapart hin =>
      intro c hc
      have hpart := h.within.child hapart.1 hmem
      rw [hc, Option.getD_some] at hpart
      exact ⟨hpart.name, ih hpart (hin d₁ hmem) hbelow⟩

/-- A directory at the end of a path is changed, and all else is kept. -/
theorem Part.alterAt (h : Part d t) (hdistinct : Distinct less d) {g : Directory → Directory} {names : List Bytes}
    {u : Directory} (hu : DirectoryListing.follow DirectoryNode.name names t = some u)
    (hg : ∀ d', DirectoryListing.follow ShareManager.DirectoryNode.name names d = some d' → Part d' (g u))
    (hkeeps : Keeps u (g u)) :
    Part d (alterAt less DirectoryNode.name newNode g names t) ∧
      Keeps t (alterAt less DirectoryNode.name newNode g names t) ∧
      DirectoryListing.follow DirectoryNode.name names (alterAt less DirectoryNode.name newNode g names t) = some (g u) := by
  induction names generalizing d t with
  | nil =>
    obtain rfl := Option.some.inj hu
    exact ⟨hg d rfl, hkeeps, rfl⟩
  | cons n names ih =>
    obtain ⟨c, hc, hbelow⟩ := Option.bind_eq_some_iff.mp hu
    cases hdistinct with
    | node hapart hin =>
      obtain ⟨d', hd', rfl, hpart, hfind⟩ := h.find hapart.1 hc
      have hchild : OrderedTree.child less DirectoryNode.name d'.label.name t = some c := by
        rw [h.within.child_eq hapart.1 hd', hc]
      obtain ⟨hpart', hkeeps', hfollow⟩ := ih hpart (hin d' hd') hbelow fun d'' hd'' => hg d'' (by
        rw [DirectoryListing.follow, hfind]
        exact hd'')
      rw [OrderedTree.alterAt, hchild, Option.getD_some]
      have hput : Within _ (OrderedTree.putChild less DirectoryNode.name d'.label.name
          (OrderedTree.alterAt less DirectoryNode.name newNode g names c) t) := h.within.putChild hd' hpart'
      have htie : Tie less (OrderedTree.alterAt less DirectoryNode.name newNode g names c).label.name d'.label.name :=
        hpart'.name ▸ Tie.refl _
      refine ⟨hput.part fun hcomplete => ?_, h.within.keeps_putChild hapart.1 hd' hpart' ?_, ?_⟩
      · exact ⟨(h.full hcomplete).files, fun d'' hd'' =>
          h.within.stays hapart.1 hd' hpart'.name ((h.full hcomplete).directories d'' hd'')⟩
      · rw [hchild]
        exact hkeeps'
      · rw [DirectoryListing.follow, ← hput.child_eq hapart.1 hd', child_putChild htie, if_pos (Tie.refl _)]
        exact hfollow

end

end Dcpp.DirectoryListing
