import Dcpp.Bytes
import Dcpp.Library.Edit

-- The escapes of NMDC chat.
namespace Dcpp.NmdcHub

open Edit

def validateMessage (tmp : Bytes) (reverse : Bool) : Option Bytes :=
  if reverse then do
    let tmp ← replaceLoop (str "&#36;") 5 (str "$") 1 tmp
    let tmp ← replaceLoop (str "&#124;") 6 (str "|") 1 tmp
    replaceLoop (str "&amp;") 5 (str "&") 1 tmp
  else do
    let tmp ← replaceLoop (str "&amp;") 1 (str "&amp;") 4 tmp
    let tmp ← replaceLoop (str "&#36;") 1 (str "&amp;") 4 tmp
    let tmp ← replaceLoop (str "&#124;") 1 (str "&amp;") 4 tmp
    let tmp ← replaceLoop (str "$") 1 (str "&#36;") 4 tmp
    replaceLoop (str "|") 1 (str "&#124;") 5 tmp

/-- Every `&` in front of one of the `names` is escaped. -/
def mark (names : List Bytes) : Bytes → Bytes
  | [] => []
  | c :: s =>
    if c = byte '&' ∧ ∃ x ∈ names, x <+: s then str "&amp;" ++ mark names s else c :: mark names s

/-- A character, or the escape that the `codes` have for it. -/
def entity (codes : List (UInt8 × Bytes)) (c : UInt8) : Bytes :=
  match codes.lookup c with
  | none => [c]
  | some x => byte '&' :: x

section Mark

variable {names : List Bytes}

theorem mark_nil_names (s : Bytes) : mark [] s = s := by
  induction s with
  | nil => rfl
  | cons c s ih => simp [mark, ih]

theorem mark_of_ne {c : UInt8} (hc : c ≠ byte '&') (s : Bytes) : mark names (c :: s) = c :: mark names s := by
  simp [mark, hc]

theorem mark_of_name {s : Bytes} (h : ∃ x ∈ names, x <+: s) :
    mark names (byte '&' :: s) = str "&amp;" ++ mark names s := by
  rw [mark, if_pos ⟨rfl, h⟩]

theorem mark_of_not_name {s : Bytes} (h : ¬∃ x ∈ names, x <+: s) :
    mark names (byte '&' :: s) = byte '&' :: mark names s := by
  rw [mark, if_neg fun hn => h hn.2]

/-- What has no `&` stands in front of the text before and after. -/
theorem prefix_mark_iff {x s : Bytes} (hx : byte '&' ∉ x) : x <+: mark names s ↔ x <+: s := by
  induction s generalizing x with
  | nil => rfl
  | cons c s ih =>
    cases x with
    | nil => simp
    | cons b x =>
      simp only [List.mem_cons, not_or] at hx
      by_cases hc : c = byte '&'
      · subst hc
        have hno (t : Bytes) : ¬b :: x <+: byte '&' :: t := fun h => hx.1 (List.cons_prefix_cons.mp h).1.symm
        by_cases hname : ∃ x ∈ names, x <+: s
        · rw [mark_of_name hname]
          exact iff_of_false (hno _) (hno s)
        · rw [mark_of_not_name hname]
          exact iff_of_false (hno _) (hno s)
      · rw [mark_of_ne hc, List.cons_prefix_cons, List.cons_prefix_cons, ih hx.2]

/-- The pass for one more name. -/
theorem substitute_mark {x : Bytes} (hx : byte '&' ∉ x) (hamp : names = [] ∨ ∀ s, ¬x <+: str "amp;" ++ s) (s : Bytes) :
    substitute (byte '&' :: x) (str "&amp;" ++ x) (mark names s) = mark (x :: names) s := by
  induction s with
  | nil => exact substitute_nil
  | cons c s ih =>
    by_cases hc : c = byte '&'
    · subst hc
      by_cases hname : ∃ y ∈ names, y <+: s
      · have hno := hamp.resolve_left (List.ne_nil_of_mem hname.choose_spec.1)
        have hfirst : ¬byte '&' :: x <+: byte '&' :: (str "amp;" ++ mark names s) :=
          fun h => hno _ (List.cons_prefix_cons.mp h).2
        have hsplit (t : Bytes) : str "&amp;" ++ t = byte '&' :: (str "amp;" ++ t) := rfl
        rw [mark_of_name hname, mark_of_name (by simpa using Or.inr hname), hsplit (mark names s),
          substitute_cons hfirst, substitute_pass (by decide), ih, hsplit (mark (x :: names) s)]
      · rw [mark_of_not_name hname]
        by_cases hpre : x <+: s
        · obtain ⟨w, hw⟩ := (prefix_mark_iff hx).mpr hpre
          rw [mark_of_name (by simp [hpre]), ← ih, ← hw, substitute_pass hx, ← List.cons_append,
            substitute_append (List.cons_ne_nil _ _), List.append_assoc]
        · have hfirst : ¬byte '&' :: x <+: byte '&' :: mark names s :=
            fun h => hpre ((prefix_mark_iff hx).mp (List.cons_prefix_cons.mp h).2)
          rw [mark_of_not_name (by simpa [hpre] using hname), substitute_cons hfirst, ih]
    · have hfirst : ¬byte '&' :: x <+: c :: mark names s := fun h => hc (List.cons_prefix_cons.mp h).1.symm
      rw [mark_of_ne hc, mark_of_ne hc, substitute_cons hfirst, ih]

/-- The last pass back takes the marks away. -/
theorem substitute_amp_mark (hamp : str "amp;" ∈ names) (s : Bytes) :
    substitute (str "&amp;") (str "&") (mark names s) = s := by
  induction s with
  | nil => exact substitute_nil
  | cons c s ih =>
    by_cases hc : c = byte '&'
    · subst hc
      by_cases hname : ∃ y ∈ names, y <+: s
      · rw [mark_of_name hname, substitute_append (by decide), ih]
        rfl
      · have hfirst : ¬str "&amp;" <+: byte '&' :: mark names s :=
          fun h => hname ⟨_, hamp, (prefix_mark_iff (by decide)).mp (List.cons_prefix_cons.mp h).2⟩
        rw [mark_of_not_name hname, substitute_cons hfirst, ih]
    · have hfirst : ¬str "&amp;" <+: c :: mark names s := fun h => hc (List.cons_prefix_cons.mp h).1.symm
      rw [mark_of_ne hc, substitute_cons hfirst, ih]

/-- No escape of a name is left. -/
theorem absent_mark {x : Bytes} (hmem : x ∈ names) (hx : byte '&' ∉ x) (hamp : ∀ s, ¬x <+: str "amp;" ++ s)
    (s : Bytes) : ¬byte '&' :: x <:+: mark names s := by
  induction s with
  | nil => simp [mark]
  | cons c s ih =>
    by_cases hc : c = byte '&'
    · subst hc
      by_cases hname : ∃ y ∈ names, y <+: s
      · have hsplit : str "&amp;" ++ mark names s = byte '&' :: (str "amp;" ++ mark names s) := rfl
        rw [mark_of_name hname, hsplit, List.infix_cons_iff, List.cons_prefix_cons]
        exact not_or_intro (fun h => hamp _ h.2) (absent_append (by decide) ih)
      · rw [mark_of_not_name hname, List.infix_cons_iff, List.cons_prefix_cons, prefix_mark_iff hx]
        exact not_or_intro (fun h => hname ⟨x, hmem, h.2⟩) ih
    · rw [mark_of_ne hc, List.infix_cons_iff, List.cons_prefix_cons]
      exact not_or_intro (fun h => hc h.1.symm) ih

end Mark

section Entity

/-- The codes that can be told apart: their keys and their names have no `&`, and no key is in a name or has two. -/
structure Separate (codes : List (UInt8 × Bytes)) : Prop where
  key : ∀ y ∈ codes, y.1 ≠ byte '&'
  name : ∀ y ∈ codes, byte '&' ∉ y.2
  apart : ∀ y ∈ codes, ∀ z ∈ codes, y.1 ∉ z.2
  once : codes.Pairwise fun y z => y.1 ≠ z.1 ∧ ∀ s, ¬y.2 <+: z.2 ++ s

variable {codes : List (UInt8 × Bytes)} {c : UInt8} {x : Bytes}

theorem entity_nil (c : UInt8) : entity [] c = [c] := rfl

theorem entity_self : entity ((c, x) :: codes) c = byte '&' :: x := by simp [entity]

theorem entity_of_ne {b : UInt8} (h : b ≠ c) : entity ((c, x) :: codes) b = entity codes b := by
  simp [entity, List.lookup_cons, beq_false_of_ne h]

theorem entity_cases (codes : List (UInt8 × Bytes)) (b : UInt8) :
    entity codes b = [b] ∨ ∃ y ∈ codes, y.1 = b ∧ entity codes b = byte '&' :: y.2 := by
  induction codes with
  | nil => exact Or.inl rfl
  | cons y codes ih =>
    by_cases hb : b = y.1
    · subst hb
      exact Or.inr ⟨y, List.mem_cons_self, rfl, entity_self⟩
    · rw [entity_of_ne hb]
      apply ih.imp_right
      rintro ⟨z, hz, h⟩
      exact ⟨z, List.mem_cons_of_mem y hz, h⟩

/-- What has no `&` and no key is in front of the escaped text only where it was before. -/
theorem prefix_of_prefix_entity {w t : Bytes} (hw : byte '&' ∉ w) (h : w <+: t.flatMap (entity codes)) : w <+: t := by
  induction t generalizing w with
  | nil => exact h
  | cons b t ih =>
    cases w with
    | nil => exact List.nil_prefix
    | cons a w =>
      simp only [List.mem_cons, not_or] at hw
      rw [List.flatMap_cons] at h
      obtain hb | ⟨y, _, _, hb⟩ := entity_cases codes b
      · rw [hb, List.singleton_append, List.cons_prefix_cons] at h
        exact List.cons_prefix_cons.mpr ⟨h.1, ih hw.2 h.2⟩
      · rw [hb, List.cons_append, List.cons_prefix_cons] at h
        exact absurd h.1.symm hw.1

/-- The pass that escapes one more character. -/
theorem substitute_entity (hcodes : Separate ((c, x) :: codes)) (t : Bytes) :
    substitute [c] (byte '&' :: x) (t.flatMap (entity codes)) = t.flatMap (entity ((c, x) :: codes)) := by
  rw [substitute_singleton, List.flatMap_assoc]
  congr 1
  funext b
  have hstay (w : Bytes) (hw : c ∉ w) : (w.flatMap fun y => if y = c then byte '&' :: x else [y]) = w := by
    induction w with
    | nil => rfl
    | cons a w ih =>
      simp only [List.mem_cons, not_or] at hw
      simp [Ne.symm hw.1, ih hw.2]
  obtain hb | ⟨y, hy, hyb, hb⟩ := entity_cases codes b
  · rw [hb]
    by_cases hbc : b = c
    · subst hbc
      simp [entity_self]
    · rw [entity_of_ne hbc, hb]
      simp [hbc]
  · have hne : b ≠ c := by
      rintro rfl
      exact ((List.pairwise_cons.mp hcodes.once).1 y hy).1 hyb.symm
    have hcy : c ∉ byte '&' :: y.2 := by
      simp only [List.mem_cons, not_or]
      exact ⟨hcodes.key _ List.mem_cons_self, hcodes.apart _ List.mem_cons_self y (List.mem_cons_of_mem _ hy)⟩
    rw [entity_of_ne hne, hb, hstay _ hcy]

/-- The pass that takes one back. -/
theorem substitute_back (hcodes : Separate ((c, x) :: codes)) {t : Bytes} (ht : ¬byte '&' :: x <:+: t) :
    substitute (byte '&' :: x) [c] (t.flatMap (entity ((c, x) :: codes))) = t.flatMap (entity codes) := by
  obtain ⟨hfirst, -⟩ := List.pairwise_cons.mp hcodes.once
  have hx : byte '&' ∉ x := hcodes.name _ List.mem_cons_self
  induction t with
  | nil => exact substitute_nil
  | cons b t ih =>
    rw [List.infix_cons_iff, not_or] at ht
    rw [List.flatMap_cons, List.flatMap_cons]
    by_cases hbc : b = c
    · subst hbc
      have hb : entity codes b = [b] := by
        obtain hb | ⟨y, hy, hyb, _⟩ := entity_cases codes b
        · exact hb
        · exact absurd hyb.symm (hfirst y hy).1
      rw [entity_self, substitute_append (List.cons_ne_nil _ _), ih ht.2, hb]
    · rw [entity_of_ne hbc]
      obtain hb | ⟨y, hy, _, hb⟩ := entity_cases codes b
      · have hno : ¬byte '&' :: x <+: b :: t.flatMap (entity ((c, x) :: codes)) := by
          intro h
          obtain ⟨hb', hpre⟩ := List.cons_prefix_cons.mp h
          exact ht.1 (List.cons_prefix_cons.mpr ⟨hb', prefix_of_prefix_entity hx hpre⟩)
        rw [hb, List.singleton_append, List.singleton_append, substitute_cons hno, ih ht.2]
      · have hno : ¬byte '&' :: x <+: byte '&' :: (y.2 ++ t.flatMap (entity ((c, x) :: codes))) :=
          fun h => (hfirst y hy).2 _ (List.cons_prefix_cons.mp h).2
        have hy2 := hcodes.name y (List.mem_cons_of_mem _ hy)
        rw [hb, List.cons_append, List.cons_append, substitute_cons hno, substitute_pass hy2, ih ht.2]

end Entity

/-- What the escapes stand for. -/
def dollar : UInt8 × Bytes := (byte '$', str "#36;")
def bar : UInt8 × Bytes := (byte '|', str "#124;")

theorem not_starts_amp {x : Bytes} (h : x.head? = some (byte '#')) (s : Bytes) : ¬x <+: str "amp;" ++ s := by
  rintro ⟨w, hw⟩
  obtain ⟨x', rfl⟩ := List.head?_eq_some_iff.mp h
  exact absurd (List.cons.inj hw).1 (by decide)

/-- No digit after `#` is that of the other name. -/
theorem apart (s : Bytes) : ¬bar.2 <+: dollar.2 ++ s ∧ ¬dollar.2 <+: bar.2 ++ s := by
  constructor
  · rintro ⟨w, hw⟩
    exact absurd (List.cons.inj (List.cons.inj hw).2).1 (by decide)
  · rintro ⟨w, hw⟩
    exact absurd (List.cons.inj (List.cons.inj hw).2).1 (by decide)

theorem separate_bar_dollar : Separate [bar, dollar] where
  key := by decide
  name := by decide
  apart := by decide
  once := List.pairwise_pair.mpr ⟨by decide, fun s => (apart s).1⟩

theorem separate_dollar_bar : Separate [dollar, bar] where
  key := by decide
  name := by decide
  apart := by decide
  once := List.pairwise_pair.mpr ⟨by decide, fun s => (apart s).2⟩

/-- The names that an `&` is escaped in front of. -/
def names : List Bytes := [str "#124;", str "#36;", str "amp;"]

/-- The passes of the escaping. -/
theorem validateMessage_escape (s : Bytes) :
    validateMessage s false = some ((mark names s).flatMap (entity [bar, dollar])) := by
  have hamp : replaceLoop (str "&amp;") 1 (str "&amp;") 4 s = some (mark [str "amp;"] s) := by
    have h : substitute (str "&amp;") (str "&amp;" ++ str "amp;") (mark [] s) = mark [str "amp;"] s :=
      substitute_mark (by decide) (Or.inl rfl) s
    rw [mark_nil_names] at h
    rw [← h]
    exact replaceLoop_eq (by decide) (by decide) (by decide) s
  have h36 (t : Bytes) : replaceLoop (str "&#36;") 1 (str "&amp;") 4 t =
      some (substitute (str "&#36;") (str "&amp;" ++ str "#36;") t) :=
    replaceLoop_eq (by decide) (by decide) (by decide) t
  have h124 (t : Bytes) : replaceLoop (str "&#124;") 1 (str "&amp;") 4 t =
      some (substitute (str "&#124;") (str "&amp;" ++ str "#124;") t) :=
    replaceLoop_eq (by decide) (by decide) (by decide) t
  have hdollar (t : Bytes) : replaceLoop (str "$") 1 (str "&#36;") 4 t = some (substitute (str "$") (str "&#36;") t) :=
    replaceLoop_eq (by decide) (by decide) (by decide) t
  have hbar (t : Bytes) : replaceLoop (str "|") 1 (str "&#124;") 5 t = some (substitute (str "|") (str "&#124;") t) :=
    replaceLoop_eq (by decide) (by decide) (by decide) t
  have hmark36 : substitute (str "&#36;") (str "&amp;" ++ str "#36;") (mark [str "amp;"] s) =
      mark [str "#36;", str "amp;"] s := substitute_mark (by decide) (Or.inr (not_starts_amp rfl)) s
  have hmark124 : substitute (str "&#124;") (str "&amp;" ++ str "#124;") (mark [str "#36;", str "amp;"] s) =
      mark names s := substitute_mark (by decide) (Or.inr (not_starts_amp rfl)) s
  have hcode36 : substitute (str "$") (str "&#36;") (mark names s) = (mark names s).flatMap (entity [dollar]) := by
    have hseparate : Separate [dollar] := ⟨by decide, by decide, by decide, List.pairwise_singleton _ _⟩
    have hnone : (mark names s).flatMap (entity []) = mark names s := List.flatMap_singleton' _
    have h := substitute_entity hseparate (mark names s)
    rwa [hnone] at h
  have hcode124 : substitute (str "|") (str "&#124;") ((mark names s).flatMap (entity [dollar])) =
      (mark names s).flatMap (entity [bar, dollar]) := substitute_entity separate_bar_dollar (mark names s)
  simp only [validateMessage, Bool.false_eq_true, if_false, hamp, h36, h124, hdollar, hbar, Option.bind_eq_bind,
    Option.bind_some, hmark36, hmark124, hcode36, hcode124]

/-- What the passes back replace. -/
theorem validateMessage_true (s : Bytes) : validateMessage s true =
    some (substitute (str "&amp;") (str "&") (substitute (str "&#124;") (str "|")
      (substitute (str "&#36;") (str "$") s))) := by
  have h36 (t : Bytes) : replaceLoop (str "&#36;") 5 (str "$") 1 t = some (substitute (str "&#36;") (str "$") t) :=
    replaceLoop_eq (by decide) (by decide) (by decide) t
  have h124 (t : Bytes) : replaceLoop (str "&#124;") 6 (str "|") 1 t = some (substitute (str "&#124;") (str "|") t) :=
    replaceLoop_eq (by decide) (by decide) (by decide) t
  have hamp (t : Bytes) : replaceLoop (str "&amp;") 5 (str "&") 1 t = some (substitute (str "&amp;") (str "&") t) :=
    replaceLoop_eq (by decide) (by decide) (by decide) t
  simp only [validateMessage, if_true, h36, h124, hamp, Option.bind_eq_bind, Option.bind_some]

/-- The passes back. -/
theorem validateMessage_unescape (s : Bytes) :
    validateMessage ((mark names s).flatMap (entity [bar, dollar])) true = some s := by
  have hswap : (mark names s).flatMap (entity [bar, dollar]) = (mark names s).flatMap (entity [dollar, bar]) := by
    congr 1
    funext c
    by_cases hc : c = byte '|'
    · subst hc
      rfl
    · by_cases hc' : c = byte '$'
      · subst hc'
        rfl
      · rw [bar, dollar, entity_of_ne hc, entity_of_ne hc', entity_of_ne hc', entity_of_ne hc]
  have hback36 : substitute (str "&#36;") (str "$") ((mark names s).flatMap (entity [dollar, bar])) =
      (mark names s).flatMap (entity [bar]) :=
    substitute_back separate_dollar_bar (absent_mark (by decide) (by decide) (not_starts_amp rfl) s)
  have hback124 : substitute (str "&#124;") (str "|") ((mark names s).flatMap (entity [bar])) = mark names s := by
    have hseparate : Separate [bar] := ⟨by decide, by decide, by decide, List.pairwise_singleton _ _⟩
    have hnone : (mark names s).flatMap (entity []) = mark names s := List.flatMap_singleton' _
    rw [← hnone]
    nth_rewrite 1 [hnone]
    exact substitute_back hseparate (absent_mark (by decide) (by decide) (not_starts_amp rfl) s)
  have hbackamp : substitute (str "&amp;") (str "&") (mark names s) = s := substitute_amp_mark (by decide) s
  rw [validateMessage_true, hswap, hback36, hback124, hbackamp]

theorem not_mem_entity (c : UInt8) : byte '$' ∉ entity [bar, dollar] c ∧ byte '|' ∉ entity [bar, dollar] c := by
  by_cases hc : c = byte '|'
  · subst hc
    decide
  · by_cases hc' : c = byte '$'
    · subst hc'
      decide
    · rw [bar, dollar, entity_of_ne hc, entity_of_ne hc', entity_nil]
      simp [Ne.symm hc, Ne.symm hc']

/-- An escaped message has nothing that ends a command, and is the message again when it is unescaped. -/
theorem validateMessage_roundTrip (s : Bytes) : ∃ escaped, validateMessage s false = some escaped ∧
    validateMessage escaped true = some s ∧ byte '$' ∉ escaped ∧ byte '|' ∉ escaped := by
  refine ⟨_, validateMessage_escape s, validateMessage_unescape s, ?_, ?_⟩
  · intro h
    obtain ⟨c, -, hc⟩ := List.mem_flatMap.mp h
    exact (not_mem_entity c).1 hc
  · intro h
    obtain ⟨c, -, hc⟩ := List.mem_flatMap.mp h
    exact (not_mem_entity c).2 hc

end Dcpp.NmdcHub
