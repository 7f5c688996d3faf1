import Dcpp.DirectoryListing

namespace Dcpp.DirectoryListing

open SimpleXMLReader

/-- A well-nested sequence of tags. -/
inductive Tags where
  | nil
  | simple (name : Bytes) (attribs : StringPairList) (rest : Tags)
  | element (name : Bytes) (attribs : StringPairList) (inside rest : Tags)

namespace Tags

/-- A simple tag has no end of its own. -/
def calls : Tags → List CallBack
  | nil => []
  | simple name attribs rest => .startTag name attribs true :: rest.calls
  | element name attribs inside rest => .startTag name attribs false :: (inside.calls ++ .endTag name :: rest.calls)

/-- The FileListing elements, with what is in each. -/
def listings : Tags → List (StringPairList × Tags)
  | nil => []
  | simple name attribs rest => (if name = str "FileListing" then [(attribs, nil)] else []) ++ rest.listings
  | element name attribs inside rest =>
    (if name = str "FileListing" then [(attribs, inside)] else []) ++ (inside.listings ++ rest.listings)

end Tags

namespace ListLoader

variable {less : Bytes → Bytes → Prop} [DecidableRel less]

theorem calls_append (l : ListLoader) (cs ds : List CallBack) :
    l.calls less (cs ++ ds) = (l.calls less cs).andThen fun l => l.calls less ds := by
  induction cs generalizing l with
  | nil => rfl
  | cons c cs ih =>
    rw [List.cons_append, calls, calls]
    cases l.call less c with
    | returned l => exact ih l
    | threw aError l => rfl
    | undefined => rfl

/-- Where the loader may be after well-nested tags: below the place it was at, and at that place while it is
in the same listing. -/
structure Above (l l' : ListLoader) : Prop where
  parents : l.place.parents <:+ l'.place.parents
  inListing : l'.inListing = true → l.inListing = true ∧ l'.place.parents = l.place.parents

namespace Above

variable {l l' l'' : ListLoader}

theorem refl (l : ListLoader) : Above l l := ⟨List.suffix_refl _, fun h => ⟨h, rfl⟩⟩

theorem trans (h : Above l l') (h' : Above l' l'') : Above l l'' := by
  refine ⟨h.parents.trans h'.parents, fun hin => ?_⟩
  obtain ⟨hin', hp'⟩ := h'.inListing hin
  obtain ⟨hin, hp⟩ := h.inListing hin'
  exact ⟨hin, hp'.trans hp⟩

theorem of_same (hp : l'.place.parents = l.place.parents) (hin : l'.inListing = l.inListing) : Above l l' :=
  ⟨hp ▸ List.suffix_refl _, fun h => ⟨hin ▸ h, hp⟩⟩

end Above

/-- The call returned or threw, and `P` holds of the loader it returned. -/
def Gives (P : ListLoader → Prop) : Outcome ListLoader → Prop
  | .returned l => P l
  | .threw _ _ => True
  | .undefined => False

theorem Gives.andThen {P Q : ListLoader → Prop} {r : Outcome ListLoader} {f : ListLoader → Outcome ListLoader}
    (h : Gives P r) (hf : ∀ l, P l → Gives Q (f l)) : Gives Q (r.andThen f) := by
  cases r with
  | returned l => exact hf l h
  | threw aError l => trivial
  | undefined => exact h.elim

theorem Gives.imp {P Q : ListLoader → Prop} {r : Outcome ListLoader} (h : Gives P r) (hPQ : ∀ l, P l → Q l) :
    Gives Q r := by
  cases r with
  | returned l => exact hPQ l h
  | threw aError l => trivial
  | undefined => exact h.elim

theorem insertFile_gives (f : File) (l : ListLoader) :
    Gives (fun l' => l'.place.parents = l.place.parents ∧ l'.inListing = l.inListing) (l.insertFile less f) := by
  rw [insertFile]
  split
  next => exact ⟨rfl, rfl⟩
  next =>
    split
    next => exact ⟨rfl, rfl⟩
    next => trivial

theorem startFile_gives (attribs : StringPairList) (l : ListLoader) :
    Gives (fun l' => l'.place.parents = l.place.parents ∧ l'.inListing = l.inListing) (l.startFile less attribs) := by
  rw [startFile]
  split
  next => exact ⟨rfl, rfl⟩
  next f _ => exact insertFile_gives f l

/-- One parent more, and the listing as it was. -/
def Entered (l l' : ListLoader) : Prop :=
  (∃ parent, l'.place.parents = parent :: l.place.parents) ∧ l'.inListing = l.inListing

theorem insertDirectory_gives (name : Bytes) (complete : Bool) (l : ListLoader) :
    Gives (Entered l) (l.insertDirectory less name complete) := by
  rw [insertDirectory]
  split
  next => exact ⟨⟨_, rfl⟩, rfl⟩
  next =>
    split
    next => exact ⟨⟨_, rfl⟩, rfl⟩
    next => trivial

theorem suffix_enterBase (i : Bytes) (p : Place) : p.parents <:+ (p.enterBase less i).parents := by
  rw [Place.enterBase]
  split
  next => exact List.suffix_cons _ _
  next =>
    split
    next => exact List.suffix_cons _ _
    next => exact List.suffix_cons _ _

theorem suffix_enterBases (sl : List Bytes) (p : Place) : p.parents <:+ (p.enterBases less sl).parents := by
  induction sl generalizing p with
  | nil => exact List.suffix_refl _
  | cons i sl ih => exact (suffix_enterBase i p).trans (ih (p.enterBase less i))

@[simp] theorem takeBase_place (b : Bytes) (l : ListLoader) : (l.takeBase b).place = l.place := by
  rw [takeBase]
  split <;> rfl

theorem suffix_enterListing (attribs : StringPairList) (l : ListLoader) :
    l.place.parents <:+ (l.enterListing less attribs).place.parents := by
  change _ <:+ (Place.enterBases less _ (l.takeBase _).place).parents
  rw [takeBase_place]
  exact suffix_enterBases _ _

theorem str_directory_ne_fileListing : str "Directory" ≠ str "FileListing" := by decide +kernel

theorem str_file_ne_directory : str "File" ≠ str "Directory" := by decide +kernel

/-- Where the loader may be inside of a tag. -/
structure Opened (name : Bytes) (l l' : ListLoader) : Prop where
  parents : l.place.parents <:+ l'.place.parents
  directory : name = str "Directory" → l'.inListing = true →
    l.inListing = true ∧ ∃ parent, l'.place.parents = parent :: l.place.parents
  other : name ≠ str "Directory" → name ≠ str "FileListing" → l'.inListing = true →
    l.inListing = true ∧ l'.place.parents = l.place.parents

namespace Opened

variable {name : Bytes} {l l' l'' : ListLoader}

theorem above (h : Opened name l l') (h' : Above l' l'') : Opened name l l'' := by
  refine ⟨h.parents.trans h'.parents, fun hd hin => ?_, fun hd hf hin => ?_⟩
  · obtain ⟨hin', hp'⟩ := h'.inListing hin
    rw [hp']
    exact h.directory hd hin'
  · obtain ⟨hin', hp'⟩ := h'.inListing hin
    rw [hp']
    exact h.other hd hf hin'

theorem of_same (hname : name ≠ str "Directory") (hp : l'.place.parents = l.place.parents)
    (hin : l'.inListing = l.inListing) : Opened name l l' :=
  ⟨hp ▸ List.suffix_refl _, fun hd => absurd hd hname, fun _ _ h => ⟨hin ▸ h, hp⟩⟩

theorem of_outside (hin : l.inListing = false) : Opened name l l :=
  ⟨List.suffix_refl _, fun _ h => absurd h (by rw [hin]; exact Bool.false_ne_true),
    fun _ _ h => absurd h (by rw [hin]; exact Bool.false_ne_true)⟩

theorem of_entered (h : Entered l l') (hin : l.inListing = true) : Opened (str "Directory") l l' := by
  obtain ⟨⟨parent, hp⟩, _⟩ := h
  exact ⟨hp ▸ List.suffix_cons _ _, fun _ _ => ⟨hin, parent, hp⟩, fun h => absurd rfl h⟩

/-- The end of a tag takes the loader back to where it was before the tag's start. -/
theorem endTag (h : Opened name l l') : Gives (Above l) (l'.endTag name) := by
  rw [ListLoader.endTag]
  by_cases hin : l'.inListing = true
  · rw [if_pos hin]
    by_cases hd : name = str "Directory"
    · rw [if_pos hd]
      obtain ⟨hl, parent, hp⟩ := h.directory hd hin
      rw [Place.leave, hp]
      exact ⟨List.suffix_refl _, fun _ => ⟨hl, rfl⟩⟩
    · rw [if_neg hd]
      by_cases hf : name = str "FileListing"
      · rw [if_pos hf]
        exact ⟨h.parents, fun h => nomatch h⟩
      · rw [if_neg hf]
        exact ⟨h.parents, h.other hd hf⟩
  · rw [if_neg hin]
    exact ⟨h.parents, fun h => absurd h hin⟩

end Opened

theorem opened_enterListing (attribs : StringPairList) (l : ListLoader) :
    Opened (str "FileListing") l (l.enterListing less attribs) :=
  ⟨suffix_enterListing attribs l, fun hd => absurd hd.symm str_directory_ne_fileListing, fun _ h => absurd rfl h⟩

theorem startTag_gives (name : Bytes) (attribs : StringPairList) (l : ListLoader) :
    Gives (Opened name l) (l.startTag less name attribs false) := by
  rw [startTag]
  split
  next => trivial
  next =>
    split
    next hin =>
      split
      next hfile =>
        subst hfile
        exact (startFile_gives attribs l).imp fun _ h => Opened.of_same str_file_ne_directory h.1 h.2
      next =>
        split
        next hd =>
          subst hd
          rw [startDirectory]
          split
          next => trivial
          next => exact (insertDirectory_gives _ _ l).andThen fun _ h => Opened.of_entered h hin
        next hd => exact Opened.of_same hd rfl rfl
    next hin =>
      split
      next hf =>
        subst hf
        exact opened_enterListing attribs l
      next => exact Opened.of_outside (Bool.not_eq_true _ ▸ hin)

theorem startTag_simple_gives (name : Bytes) (attribs : StringPairList) (l : ListLoader) :
    Gives (Above l) (l.startTag less name attribs true) := by
  rw [startTag]
  split
  next => trivial
  next =>
    split
    next hin =>
      split
      next => exact (startFile_gives attribs l).imp fun _ h => Above.of_same h.1 h.2
      next =>
        split
        next hd =>
          subst hd
          rw [startDirectory]
          split
          next => trivial
          next => exact (insertDirectory_gives _ _ l).andThen fun _ h => (Opened.of_entered h hin).endTag
        next => exact Above.refl l
    next =>
      split
      next hf =>
        subst hf
        exact (opened_enterListing attribs l).endTag
      next => exact Above.refl l

/-- Well-nested tags leave the loader above where it was. -/
theorem calls_gives (tags : Tags) (l : ListLoader) : Gives (Above l) (l.calls less tags.calls) := by
  induction tags generalizing l with
  | nil => exact Above.refl l
  | simple name attribs rest ih =>
    exact (startTag_simple_gives name attribs l).andThen fun l' h => (ih l').imp fun _ h' => h.trans h'
  | element name attribs inside rest ihi ihr =>
    rw [Tags.calls, calls]
    refine (startTag_gives name attribs l).andThen fun l₁ h₁ => ?_
    rw [calls_append]
    refine (ihi l₁).andThen fun l₂ h₂ => ?_
    exact (h₁.above h₂).endTag.andThen fun l₃ h₃ => (ihr l₃).imp fun _ h' => h₃.trans h'

/-- Nor are they undefined on the way. -/
theorem calls_prefix_ne_undefined (tags : Tags) (l : ListLoader) {cs : List CallBack} (h : cs <+: tags.calls) :
    l.calls less cs ≠ .undefined := by
  obtain ⟨ds, hds⟩ := h
  intro hu
  have hgives : Gives (Above l) (l.calls less tags.calls) := calls_gives tags l
  rw [← hds, calls_append, hu] at hgives
  exact hgives

end ListLoader

end Dcpp.DirectoryListing
