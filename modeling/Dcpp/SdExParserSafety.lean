import Dcpp.SdExParser

-- Which patterns are read without a fault.
namespace Dcpp.SdExFull

open Bdcpp Correctness

variable (src : Source)

/-- The computation succeeds. -/
abbrev Succeeds {σ : Type} (x : Except Fault σ) : Prop := Total (fun _ => True) x

section
variable (separator : UInt8) (pend : Nat)

/-- Where a part of a range that a separator divides begins, and its number. -/
inductive Cut : Nat → Nat → Nat → Nat → Prop
  | here {p i : Nat} : Cut p i p i
  | next {p i r q j : Nat} : findSeparator src.buf p pend separator = .ok r → r ≠ pend → Cut (r + 1) (i + 1) q j →
      Cut p i q j

/-- No search for the separator overruns, and the parts have the property. -/
def EachPart (Good : Nat → Nat → Nat → Prop) (pbegin index : Nat) : Prop :=
  ∀ q j, Cut src separator pend pbegin index q j →
    ¬Overruns src.buf separator pend q ∧ ∀ r, findSeparator src.buf q pend separator = .ok r → Good j q r

variable {src separator pend} {Good : Nat → Nat → Nat → Prop} {pbegin index : Nat}

theorem eachPart_iff_next {phi : Nat} (hphi : findSeparator src.buf pbegin pend separator = .ok phi) :
    EachPart src separator pend Good pbegin index ↔
      ¬Overruns src.buf separator pend pbegin ∧ Good index pbegin phi ∧
        (phi ≠ pend → EachPart src separator pend Good (phi + 1) (index + 1)) := by
  constructor
  · intro h
    refine ⟨(h _ _ .here).1, (h _ _ .here).2 phi hphi, fun hne q j hcut => ?_⟩
    exact h q j (.next hphi hne hcut)
  · rintro ⟨hover, hgood, hrest⟩ q j hcut
    cases hcut with
    | here =>
      refine ⟨hover, fun r hr => ?_⟩
      cases hphi.symm.trans hr
      exact hgood
    | next hr hne hcut =>
      cases hphi.symm.trans hr
      exact hrest hne q j hcut

variable {σ : Type} {body : σ → Nat → Nat → Nat → Except Fault σ}

/-- Behind the range the loop finds no end. -/
theorem eachPart_behind (hlt : pend < pbegin) (s : σ) : ¬Succeeds (eachPart src separator pend body pbegin index s) := by
  fun_induction eachPart src separator pend body pbegin index s with
  | case1 => exact not_total_error
  | case2 pbegin index s phi hphi ih =>
    have hle := (findSeparator_le phi hphi).1
    intro h
    obtain ⟨s', -, h⟩ := total_bind_iff.mp h
    rw [dif_neg (show phi ≠ pend by omega)] at h
    exact ih s' (by omega) (by omega) h

/-- The loop succeeds if no search overruns and each turn succeeds. -/
theorem succeeds_eachPart {I : σ → Prop} (hle : pbegin ≤ pend) (hend : pend ≤ src.buf.length)
    (hbody : ∀ s j p q, I s → pbegin ≤ p → p ≤ q → q ≤ pend → (Succeeds (body s j p q) ↔ Good j p q))
    (hinv : ∀ s j p q, I s → Partial I (body s j p q)) (s : σ) (hs : I s) :
    Succeeds (eachPart src separator pend body pbegin index s) ↔ EachPart src separator pend Good pbegin index := by
  fun_induction eachPart src separator pend body pbegin index s with
  | case1 pbegin index s f hf =>
    refine iff_of_false not_total_error fun h => ?_
    obtain ⟨r, hr, -⟩ := findSeparator_total hle hend (h _ _ .here).1
    rw [hf] at hr
    cases hr
  | case2 pbegin index s phi hphi ih =>
    rw [eachPart_iff_next hphi, Succeeds, total_bind_iff]
    by_cases hover : Overruns src.buf separator pend pbegin
    · refine iff_of_false ?_ fun h => h.1 hover
      have hlt := findSeparator_overruns hover phi hphi
      rintro ⟨s', -, h⟩
      rw [dif_neg (show phi ≠ pend by omega)] at h
      exact eachPart_behind (by omega) s' h
    · obtain ⟨r, hr, hlow, hhigh⟩ := findSeparator_total hle hend hover
      cases hphi.symm.trans hr
      have hnext := fun hne s' hs' =>
        ih s' hne (by omega) (fun s j p q hs hp => hbody s j p q hs (by omega)) hs'
      rw [← hbody s index pbegin phi hs (Nat.le_refl _) hlow hhigh]
      constructor
      · rintro ⟨s', hs', h⟩
        refine ⟨hover, ⟨s', hs', trivial⟩, fun hne => ?_⟩
        rw [dif_neg hne] at h
        exact (hnext hne s' (hinv s index pbegin phi hs s' hs')).mp h
      · rintro ⟨-, ⟨s', hs', -⟩, hrest⟩
        refine ⟨s', hs', ?_⟩
        split_ifs with hne
        · exact total_ok trivial
        · exact (hnext hne s' (hinv s index pbegin phi hs s' hs')).mpr (hrest hne)

end

section
variable {src} {pbegin pend : Nat}

theorem range_length (hend : pend ≤ src.buf.length) : (src.range pbegin pend).length = pend - pbegin := by
  rw [Source.range, List.length_drop, List.length_take, Nat.min_eq_left hend]

theorem strip_le (hle : pbegin ≤ pend) (hend : pend ≤ src.buf.length) : pbegin ≤ (src.strip pbegin pend).1 ∧
    (src.strip pbegin pend).1 ≤ (src.strip pbegin pend).2 ∧ (src.strip pbegin pend).2 ≤ pend := by
  obtain ⟨hfirst, hlast⟩ := stripWhitespace_le (src.range pbegin pend)
  rw [range_length hend] at hlast
  dsimp only [Source.strip]
  omega

theorem succeeds_get_data (hle : pbegin ≤ pend) (hend : pend ≤ src.buf.length) (nocase readescapes strip : Bool) :
    Succeeds (src.get_data pbegin pend nocase readescapes strip) :=
  (copy_total hle hend trivial).bind (P := fun _ => True) fun _ _ => total_ok trivial

theorem le_of_strfnd {c : String} (hle : pbegin ≤ pend) (hend : pend ≤ src.buf.length) (hc : (str c).length = 1) :
    ((Bdcpp.strfnd (src.range pbegin pend) (str c)).map (pbegin + ·)).getD pend ≤ pend ∧
      pbegin ≤ ((Bdcpp.strfnd (src.range pbegin pend) (str c)).map (pbegin + ·)).getD pend := by
  cases hi : Bdcpp.strfnd (src.range pbegin pend) (str c) with
  | none => exact ⟨Nat.le_refl _, hle⟩
  | some i =>
    have hlt := strfnd_le hi
    rw [range_length hend, hc] at hlt
    simp only [Option.map_some, Option.getD_some]
    omega

theorem nameEnd_le (hle : pbegin ≤ pend) (hend : pend ≤ src.buf.length) :
    pbegin ≤ src.nameEnd pbegin pend ∧ src.nameEnd pbegin pend ≤ pend :=
  (le_of_strfnd hle hend rfl).symm

theorem modifiersEnd_le (hle : pbegin ≤ pend) (hend : pend ≤ src.buf.length) :
    pbegin ≤ src.modifiersEnd pbegin pend ∧ src.modifiersEnd pbegin pend ≤ pend :=
  (le_of_strfnd hle hend rfl).symm

variable (src) in
/-- The name of a tag is read without a fault: the modifiers do not overrun, and the name is not all whitespace up to
the end of everything. -/
structure NameSafe (pbegin pend : Nat) : Prop where
  modifiers : src.nameEnd pbegin pend ≠ pend → EachPart src (byte ',')
    (src.modifiersEnd (src.nameEnd pbegin pend + 1) pend) (fun _ _ _ => True) (src.nameEnd pbegin pend + 1) 0
  name : (src.strip pbegin (src.nameEnd pbegin pend)).1 < src.buf.length

theorem succeeds_readModifiers (hle : pbegin ≤ pend) (hend : pend ≤ src.buf.length) :
    Succeeds (readModifiers src pbegin pend) ↔ EachPart src (byte ',') pend (fun _ _ _ => True) pbegin 0 := by
  refine succeeds_eachPart (I := fun _ => True) hle hend (fun s j p q _ hp hpq hq => ?_)
    (fun _ _ _ _ _ _ _ => trivial) 0 trivial
  exact iff_of_true ((succeeds_get_data hpq (hq.trans hend) true false true).bind fun _ _ => total_ok trivial) trivial

theorem getSdExFunction_nil (shortcmd : Bool) : getSdExFunction [] shortcmd = none := by
  cases shortcmd <;> decide

theorem succeeds_readTagName (ops : Nat) (hle : pbegin ≤ pend) (hend : pend ≤ src.buf.length) :
    Succeeds (readTagName src ops pbegin pend) ↔ pbegin < src.buf.length := by
  have hlegacy : Succeeds (readLegacyTag src pbegin pend ops) ↔ pbegin < src.buf.length := by
    rw [readLegacyTag]
    cases hc : src.buf[pbegin]? with
    | none => exact iff_of_false not_total_error (Nat.not_lt.mpr (List.getElem?_eq_none_iff.mp hc))
    | some c =>
      refine iff_of_true ?_ (List.getElem?_eq_some_iff.mp hc).1
      dsimp only
      split <;> exact total_ok trivial
  -- an empty name is none of a function
  have hempty : ∀ shortcmd, getSdExFunction (src.range pbegin pend) shortcmd ≠ none → pbegin < src.buf.length := by
    intro shortcmd hne
    refine Nat.lt_of_lt_of_le (Nat.lt_of_le_of_ne hle ?_) hend
    rintro rfl
    refine hne ?_
    rw [List.eq_nil_of_length_eq_zero ((range_length hend).trans (Nat.sub_self _))]
    exact getSdExFunction_nil shortcmd
  rw [readTagName]
  cases hshort : getSdExFunction (src.range pbegin pend) true with
  | some f => exact iff_of_true (total_ok trivial) (hempty true (by rw [hshort]; exact fun h => nomatch h))
  | none =>
    cases hlong : getSdExFunction (src.range pbegin pend) false with
    | some f => exact iff_of_true (total_ok trivial) (hempty false (by rw [hlong]; exact fun h => nomatch h))
    | none =>
      rw [← hlegacy]
      dsimp only
      rw [Succeeds, total_bind_iff]
      refine ⟨fun h => h.imp fun _ _ => trivial, fun h => h.imp fun tag _ => ?_⟩
      cases tag <;> exact total_ok trivial

theorem succeeds_readTag (hle : pbegin ≤ pend) (hend : pend ≤ src.buf.length) :
    Succeeds (readTag src pbegin pend) ↔ NameSafe src pbegin pend := by
  obtain ⟨hlow, hhigh⟩ := nameEnd_le hle hend
  obtain ⟨-, hstrip, hlast⟩ := strip_le hlow (hhigh.trans hend)
  have hname := fun ops => succeeds_readTagName ops hstrip (hlast.trans (hhigh.trans hend))
  have hops : Succeeds (readOps src pbegin pend) ↔ (src.nameEnd pbegin pend ≠ pend → EachPart src (byte ',')
      (src.modifiersEnd (src.nameEnd pbegin pend + 1) pend) (fun _ _ _ => True) (src.nameEnd pbegin pend + 1) 0) := by
    rw [readOps]
    by_cases hne : src.nameEnd pbegin pend = pend
    · rw [if_pos hne]
      exact iff_of_true (total_ok trivial) fun h => absurd hne h
    · have hlt : src.nameEnd pbegin pend + 1 ≤ pend := by omega
      obtain ⟨hfirst, hmods⟩ := modifiersEnd_le hlt hend
      rw [if_neg hne, succeeds_readModifiers hfirst (hmods.trans hend)]
      exact ⟨fun h _ => h, fun h => h hne⟩
  rw [readTag, Succeeds, total_bind_iff]
  constructor
  · rintro ⟨ops, h, hread⟩
    exact ⟨hops.mp ⟨ops, h, trivial⟩, (hname ops).mp hread⟩
  · intro h
    exact (hops.mpr h.modifiers).imp fun ops _ => (hname ops).mpr h.name

variable (src) in
/-- The values of a tag are read without a fault, where the patterns in them are: neither the values nor the components
of one overrun. -/
def ValuesSafe (N : Bool → Nat → Nat → Prop) (ops pbegin phi : Nat) : Prop :=
  EachPart src (byte ';') phi (fun _ p q => src.filled p q = true →
    EachPart src (byte ',') q (fun i p q => src.componentType ops i = CPNT_SDEX → N (nocaseAt ops i) p q) p 0) pbegin 0

variable {α : Type} {nested : Bool → Nat → Nat → Except Fault α} {N : Bool → Nat → Nat → Prop}

theorem succeeds_addComponent {aOps index start : Nat} {sdv : Value α} (hops : sdv.ops = aOps) (hstart : start ≤ pbegin)
    (hle : pbegin ≤ pend) (hend : pend ≤ src.buf.length)
    (hN : ∀ nocase p q, start ≤ p → p ≤ q → q ≤ src.buf.length → (Succeeds (nested nocase p q) ↔ N nocase p q)) :
    Succeeds (addComponent src nested aOps sdv index pbegin pend) ↔
      (src.componentType aOps index = CPNT_SDEX → N (nocaseAt aOps index) pbegin pend) := by
  have hdata := succeeds_get_data hle hend
  rw [addComponent]
  by_cases hint : src.componentType aOps index = CPNT_INT32
  · rw [if_pos hint, hint]
    refine iff_of_true (total_bind_pure_iff.mpr (total_bind_pure_iff.mpr (hdata _ _ _))) fun h => ?_
    cases h
  · rw [if_neg hint]
    by_cases hint64 : src.componentType aOps index = CPNT_INT64
    · rw [if_pos hint64, hint64]
      refine iff_of_true (total_bind_pure_iff.mpr (total_bind_pure_iff.mpr (hdata _ _ _))) fun h => ?_
      cases h
    · rw [if_neg hint64]
      by_cases hsdex : src.componentType aOps index = CPNT_SDEX
      · rw [if_pos hsdex, Succeeds, total_bind_pure_iff, Value.isNocaseAt, hops]
        refine (hN _ _ _ hstart hle hend).trans ?_
        exact ⟨fun h _ => h, fun h => h hsdex⟩
      · rw [if_neg hsdex]
        exact iff_of_true (total_bind_pure_iff.mpr (hdata _ _ _)) fun h => absurd h hsdex

theorem addComponent_ops {aOps index : Nat} {sdv : Value α} (hops : sdv.ops = aOps) :
    Partial (fun sdv => sdv.ops = aOps) (addComponent src nested aOps sdv index pbegin pend) := by
  rw [addComponent]
  split_ifs
  all_goals exact Partial.bind (P := fun _ => True) (fun _ _ => trivial) fun _ _ => partial_ok hops

theorem succeeds_addValue {aOps start : Nat} (hstart : start ≤ pbegin) (hle : pbegin ≤ pend) (hend : pend ≤ src.buf.length)
    (hN : ∀ nocase p q, start ≤ p → p ≤ q → q ≤ src.buf.length → (Succeeds (nested nocase p q) ↔ N nocase p q)) :
    Succeeds (addValue src nested pbegin pend aOps) ↔ EachPart src (byte ',') pend
      (fun i p q => src.componentType aOps i = CPNT_SDEX → N (nocaseAt aOps i) p q) pbegin 0 := by
  refine succeeds_eachPart (I := fun sdv => sdv.ops = aOps) hle hend (fun s j p q hs hp hpq hq => ?_)
    (fun s j p q hs => addComponent_ops hs) _ rfl
  exact succeeds_addComponent hs (hstart.trans hp) hpq (hq.trans hend) hN

theorem succeeds_tokenizer (ops : Nat) (partNocase : Bool) {start : Nat} (hstart : start ≤ pbegin) (hle : pbegin ≤ pend)
    (hend : pend ≤ src.buf.length)
    (hN : ∀ nocase p q, start ≤ p → p ≤ q → q ≤ src.buf.length → (Succeeds (nested nocase p q) ↔ N nocase p q)) :
    Succeeds (tokenizer src nested pbegin pend ops partNocase) ↔
      ValuesSafe src N (tokenizerOps ops partNocase) pbegin pend := by
  refine succeeds_eachPart (I := fun _ => True) hle hend (fun s j p q _ hp hpq hq => ?_)
    (fun _ _ _ _ _ _ _ => trivial) [] trivial
  by_cases hfilled : src.filled p q = true
  · rw [if_pos hfilled, Succeeds, total_bind_pure_iff]
    refine (succeeds_addValue (hstart.trans hp) hpq (hq.trans hend) hN).trans ?_
    exact ⟨fun h _ => h, fun h => h hfilled⟩
  · rw [if_neg hfilled]
    exact iff_of_true (total_ok trivial) fun h => absurd h hfilled

/-- The places of what stands between the braces are inside them. -/
def TagText.Inside (pbegin phi : Nat) : TagText → Prop
  | .sdexversion values | .paramlengthfixed values | .paramlengthmin values => pbegin ≤ values ∧ values ≤ phi
  | .tag t => pbegin ≤ t.dbegin ∧ t.dbegin ≤ t.dend ∧ t.dend ≤ phi ∧ pbegin ≤ t.pbegin ∧ t.pbegin ≤ phi

theorem tagText_inside (hle : pbegin ≤ pend) (hend : pend ≤ src.buf.length) :
    (src.tagText pbegin pend).Inside pbegin pend := by
  rw [Source.tagText]
  cases hi : strfndfstof (src.range pbegin pend) (str "=:") with
  | none => exact ⟨Nat.le_refl _, hle, Nat.le_refl _, hle, Nat.le_refl _⟩
  | some i =>
    have hlt := strfndfstof_lt hi
    rw [range_length hend] at hlt
    dsimp only
    split_ifs <;> simp only [TagText.Inside] <;> omega

variable (src N) in
/-- A tag is read without a fault: its name is, and so are its values if it is supported. -/
def TagSafe (nocase : Bool) (pbegin phi : Nat) : Prop :=
  ∀ t, src.tagText pbegin phi = .tag t → NameSafe src t.dbegin t.dend ∧
    ∀ tag, readTag src t.dbegin t.dend = .ok (some tag) →
      ValuesSafe src N (tokenizerOps tag.getOps nocase) t.pbegin phi

theorem succeeds_addTag {t : TagPlace} {part : Part α} {phi start : Nat}
    (hin : (TagText.tag t).Inside start phi) (hphi : phi ≤ src.buf.length)
    (hN : ∀ nocase p q, start ≤ p → p ≤ q → q ≤ src.buf.length → (Succeeds (nested nocase p q) ↔ N nocase p q)) :
    Succeeds (addTag src nested t phi part) ↔ NameSafe src t.dbegin t.dend ∧
      ∀ tag, readTag src t.dbegin t.dend = .ok (some tag) →
        ValuesSafe src N (tokenizerOps tag.getOps part.nocase) t.pbegin phi := by
  obtain ⟨hbegin, hname, hdend, hvalues, hlast⟩ := hin
  rw [← succeeds_readTag hname (hdend.trans hphi), addTag, Succeeds, total_bind_iff]
  cases hread : readTag src t.dbegin t.dend with
  | error f => exact iff_of_false not_total_error fun h => not_total_error h.1
  | ok tag =>
    cases tag with
    | none => exact iff_of_true (total_ok (total_ok trivial)) ⟨total_ok trivial, fun tag htag => by cases htag⟩
    | some tag =>
      have htokens := succeeds_tokenizer tag.getOps part.nocase hvalues hlast hphi hN
      rw [total_ok_iff, total_bind_pure_iff]
      refine htokens.trans ⟨fun h => ⟨total_ok trivial, fun tag' htag => ?_⟩, fun h => h.2 tag rfl⟩
      cases htag
      exact h

theorem succeeds_readTagText {part : Part α} {start : Nat} (hstart : start ≤ pbegin) (hle : pbegin ≤ pend)
    (hend : pend ≤ src.buf.length)
    (hN : ∀ nocase p q, start ≤ p → p ≤ q → q ≤ src.buf.length → (Succeeds (nested nocase p q) ↔ N nocase p q)) :
    Succeeds (readTagText src nested pbegin pend part) ↔ (pbegin ≠ pend → TagSafe src N part.nocase pbegin pend) := by
  have hinside := tagText_inside hle hend
  rw [readTagText]
  by_cases hempty : pbegin = pend
  · rw [if_pos hempty]
    exact iff_of_true (total_ok trivial) fun h => absurd hempty h
  · rw [if_neg hempty]
    refine Iff.trans (b := TagSafe src N part.nocase pbegin pend) ?_ ⟨fun h _ => h, fun h => h hempty⟩
    rw [TagSafe]
    cases htext : src.tagText pbegin pend with
    | sdexversion values =>
      rw [htext] at hinside
      have hdata := succeeds_get_data hinside.2 hend false true true
      exact iff_of_true (total_bind_pure_iff.mpr hdata) fun t ht => by cases ht
    | paramlengthfixed values | paramlengthmin values =>
      rw [htext] at hinside
      have hdata := succeeds_get_data hinside.2 hend false true true
      exact iff_of_true (total_bind_pure_iff.mpr (total_bind_pure_iff.mpr hdata)) fun t ht => by cases ht
    | tag t =>
      rw [htext] at hinside
      refine (succeeds_addTag hinside hend fun nocase p q hp => hN nocase p q (hstart.trans hp)).trans ?_
      refine ⟨fun h t' ht => ?_, fun h => h t rfl⟩
      cases ht
      exact h

theorem readTagText_nocase {part : Part α} :
    Partial (fun part' => part'.nocase = part.nocase) (readTagText src nested pbegin pend part) := by
  have hskip : ∀ {β : Type} {x : Except Fault β} {f : β → Part α}, (∀ b, (f b).nocase = part.nocase) →
      Partial (fun part' => part'.nocase = part.nocase) (x >>= fun b => pure (f b)) := by
    intro β x f hf
    exact Partial.bind (P := fun _ => True) (fun _ _ => trivial) fun b _ => partial_ok (hf b)
  rw [readTagText]
  split_ifs
  · exact partial_ok rfl
  · cases src.tagText pbegin pend with
    | sdexversion values | paramlengthfixed values | paramlengthmin values => exact hskip fun _ => rfl
    | tag t =>
      dsimp only
      rw [addTag]
      refine Partial.bind (P := fun _ => True) (fun _ _ => trivial) fun tag _ => ?_
      cases tag with
      | none => exact partial_ok rfl
      | some tag => exact hskip fun _ => rfl

variable (src) in
/-- What stands between the braces of the tags in a range of a parameter. -/
inductive TagIn (readescapes : Bool) (pend : Nat) : Nat → Nat → Nat → Prop
  | here {p phi e : Nat} : findTagBegin src.buf p pend readescapes = .ok phi → phi ≠ pend →
      findTagEnd src.buf (phi + 1) pend readescapes = .ok e → phi + 1 ≠ e → TagIn readescapes pend p (phi + 1) e
  | next {p phi e q e' : Nat} : findTagBegin src.buf p pend readescapes = .ok phi → phi ≠ pend →
      findTagEnd src.buf (phi + 1) pend readescapes = .ok e → behind e pend ≠ pend →
      TagIn readescapes pend (behind e pend) q e' → TagIn readescapes pend p q e'

/-- The tags in a range, from the first. -/
theorem forall_tagIn_iff {readescapes : Bool} {phi e : Nat} {P : Nat → Nat → Prop}
    (hphi : findTagBegin src.buf pbegin pend readescapes = .ok phi) (hne : phi ≠ pend)
    (he : findTagEnd src.buf (phi + 1) pend readescapes = .ok e) :
    (∀ q e', TagIn src readescapes pend pbegin q e' → P q e') ↔ (phi + 1 ≠ e → P (phi + 1) e) ∧
      (behind e pend ≠ pend → ∀ q e', TagIn src readescapes pend (behind e pend) q e' → P q e') := by
  constructor
  · intro h
    exact ⟨fun hempty => h _ _ (.here hphi hne he hempty), fun hmore q e' htag => h q e' (.next hphi hne he hmore htag)⟩
  · rintro ⟨hfirst, hrest⟩ q e' htag
    cases htag with
    | here hphi' _ he' hempty =>
      cases hphi.symm.trans hphi'
      cases he.symm.trans he'
      exact hfirst hempty
    | next hphi' _ he' hmore htag =>
      cases hphi.symm.trans hphi'
      cases he.symm.trans he'
      exact hrest hmore q e' htag

theorem partLoop_last {readescapes name : Bool} {part : Part α}
    (hphi : findTagBegin src.buf pbegin pend readescapes = .ok pend) :
    partLoop src nested readescapes pend part name pbegin = readName src readescapes part name pbegin pend := by
  rw [partLoop]
  split
  · next f hf => cases hphi.symm.trans hf
  · next phi hphi' =>
    cases hphi.symm.trans hphi'
    cases readName src readescapes part name pbegin pend with
    | error f => rfl
    | ok part' => exact dif_pos rfl

theorem partLoop_turn {readescapes name : Bool} {part : Part α} {phi e : Nat}
    (hphi : findTagBegin src.buf pbegin pend readescapes = .ok phi) (hne : phi ≠ pend)
    (he : findTagEnd src.buf (phi + 1) pend readescapes = .ok e) :
    partLoop src nested readescapes pend part name pbegin = (do
      let part ← readName src readescapes part name pbegin phi
      let part ← readTagText src nested (phi + 1) e part
      if behind e pend = pend then return part
      else partLoop src nested readescapes pend part true (behind e pend)) := by
  rw [partLoop]
  split
  · next f hf => cases hphi.symm.trans hf
  · next phi' hphi' =>
    cases hphi.symm.trans hphi'
    congr 1
    funext part
    rw [dif_neg hne]
    split
    · next f hf => cases he.symm.trans hf
    · next e' he' =>
      cases he.symm.trans he'
      rfl

theorem readName_nocase {readescapes name : Bool} {part : Part α} :
    Partial (fun part' => part'.nocase = part.nocase) (readName src readescapes part name pbegin pend) := by
  rw [readName]
  split_ifs
  · exact partial_ok rfl
  · exact Partial.bind (P := fun _ => True) (fun _ _ => trivial) fun _ _ => partial_ok rfl

theorem succeeds_readName (hle : pbegin ≤ pend) (hend : pend ≤ src.buf.length) (readescapes name : Bool)
    (part : Part α) : Succeeds (readName src readescapes part name pbegin pend) := by
  obtain ⟨-, hstrip, hlast⟩ := strip_le hle hend
  rw [readName]
  split_ifs
  · exact total_ok trivial
  · exact total_bind_pure_iff.mpr (succeeds_get_data hstrip (hlast.trans hend) _ _ _)

theorem succeeds_partLoop {readescapes name nocase : Bool} {part : Part α} {start : Nat} (hstart : start ≤ pbegin)
    (hle : pbegin ≤ pend) (hend : pend ≤ src.buf.length) (hpart : part.nocase = nocase)
    (hN : ∀ nocase p q, start ≤ p → p ≤ q → q ≤ src.buf.length → (Succeeds (nested nocase p q) ↔ N nocase p q)) :
    Succeeds (partLoop src nested readescapes pend part name pbegin) ↔
      ∀ q e, TagIn src readescapes pend pbegin q e → TagSafe src N nocase q e := by
  induction hn : pend - pbegin using Nat.strong_induction_on generalizing pbegin part name with
  | _ n ih =>
    have hfind : Total (fun r => pbegin ≤ r ∧ r ≤ pend) (findTagBegin src.buf pbegin pend readescapes) :=
      findTagBegin_total hle hend
    obtain ⟨phi, hphi, hlow, hhigh⟩ := hfind
    have hname := succeeds_readName hlow (hhigh.trans hend) readescapes name part
    by_cases hne : phi = pend
    · subst hne
      rw [partLoop_last hphi]
      refine iff_of_true hname fun q e htag => ?_
      cases htag with
      | here hphi' hne | next hphi' hne =>
        cases hphi.symm.trans hphi'
        exact absurd rfl hne
    · have hfind : Total (fun r => phi + 1 ≤ r ∧ r ≤ pend) (findTagEnd src.buf (phi + 1) pend readescapes) :=
        findTagEnd_total (by omega) hend
      obtain ⟨e, he, hlow', hhigh'⟩ := hfind
      obtain ⟨hbehind, hbehind'⟩ := behind_le hhigh'
      rw [forall_tagIn_iff hphi hne he, partLoop_turn hphi hne he, Succeeds, total_bind_iff]
      obtain ⟨part', hpart', -⟩ := hname
      have hnocase : part'.nocase = nocase := (readName_nocase part' hpart').trans hpart
      have htext : Succeeds (readTagText src nested (phi + 1) e part') ↔
          (phi + 1 ≠ e → TagSafe src N part'.nocase (phi + 1) e) :=
        succeeds_readTagText (show start ≤ phi + 1 by omega) hlow' (hhigh'.trans hend) hN
      have hrest : ∀ part'' : Part α, part''.nocase = nocase →
          (Succeeds (partLoop src nested readescapes pend part'' true (behind e pend)) ↔
            ∀ q e', TagIn src readescapes pend (behind e pend) q e' → TagSafe src N nocase q e') :=
        fun part'' h => ih _ (by omega) (by omega) hbehind' h rfl
      rw [hnocase] at htext
      rw [hpart', total_ok_iff, total_bind_iff, ← htext]
      constructor
      · rintro ⟨part'', hpart'', h⟩
        refine ⟨⟨part'', hpart'', trivial⟩, fun hmore => ?_⟩
        rw [if_neg hmore] at h
        exact (hrest part'' ((readTagText_nocase part'' hpart'').trans hnocase)).mp h
      · rintro ⟨⟨part'', hpart'', -⟩, hall⟩
        refine ⟨part'', hpart'', ?_⟩
        split_ifs with hmore
        · exact total_ok trivial
        · exact (hrest part'' ((readTagText_nocase part'' hpart'').trans hnocase)).mpr (hall hmore)

variable (src) in
/-- What stands between the brackets of the parameters in a range of a pattern. -/
inductive ParamIn (readescapes : Bool) (pend : Nat) : Nat → Nat → Nat → Prop
  | here {p phi e : Nat} : findParamBegin src.buf p pend readescapes = .ok phi → phi ≠ pend →
      findParamEnd src.buf (phi + 2) pend true = .ok e → ParamIn readescapes pend p (phi + 2) e
  | next {p phi e q e' : Nat} : findParamBegin src.buf p pend readescapes = .ok phi → phi ≠ pend →
      findParamEnd src.buf (phi + 2) pend true = .ok e → behind e pend ≠ pend →
      ParamIn readescapes pend (behind e pend) q e' → ParamIn readescapes pend p q e'

/-- The parameters in a range, from the first. -/
theorem forall_paramIn_iff {readescapes : Bool} {phi e : Nat} {P : Nat → Nat → Prop}
    (hphi : findParamBegin src.buf pbegin pend readescapes = .ok phi) (hne : phi ≠ pend)
    (he : findParamEnd src.buf (phi + 2) pend true = .ok e) :
    (∀ q e', ParamIn src readescapes pend pbegin q e' → P q e') ↔ P (phi + 2) e ∧
      (behind e pend ≠ pend → ∀ q e', ParamIn src readescapes pend (behind e pend) q e' → P q e') := by
  constructor
  · intro h
    exact ⟨h _ _ (.here hphi hne he), fun hmore q e' hparam => h q e' (.next hphi hne he hmore hparam)⟩
  · rintro ⟨hfirst, hrest⟩ q e' hparam
    cases hparam with
    | here hphi' _ he' =>
      cases hphi.symm.trans hphi'
      cases he.symm.trans he'
      exact hfirst
    | next hphi' _ he' hmore hparam =>
      cases hphi.symm.trans hphi'
      cases he.symm.trans he'
      exact hrest hmore q e' hparam

theorem appendLoop_last {nocase readescapes : Bool} {parts : List (Part α)}
    (hphi : findParamBegin src.buf pbegin pend readescapes = .ok pend) :
    appendLoop src nested nocase readescapes pend parts pbegin =
      addText src nocase readescapes parts pbegin pend := by
  rw [appendLoop]
  split
  · next f hf => cases hphi.symm.trans hf
  · next phi hphi' =>
    cases hphi.symm.trans hphi'
    cases addText src nocase readescapes parts pbegin pend with
    | error f => rfl
    | ok parts' => exact dif_pos rfl

theorem appendLoop_turn {nocase readescapes : Bool} {parts : List (Part α)} {phi e : Nat}
    (hphi : findParamBegin src.buf pbegin pend readescapes = .ok phi) (hne : phi ≠ pend)
    (he : findParamEnd src.buf (phi + 2) pend true = .ok e) :
    appendLoop src nested nocase readescapes pend parts pbegin = (do
      let parts ← addText src nocase readescapes parts pbegin phi
      let part ← readParam src nested nocase readescapes (phi + 2) e
      if behind e pend = pend then return parts ++ [part]
      else appendLoop src nested nocase readescapes pend (parts ++ [part]) (behind e pend)) := by
  rw [appendLoop]
  split
  · next f hf => cases hphi.symm.trans hf
  · next phi' hphi' =>
    cases hphi.symm.trans hphi'
    congr 1
    funext parts
    rw [dif_neg hne]
    split
    · next f hf => cases he.symm.trans hf
    · next e' he' =>
      cases he.symm.trans he'
      rfl

theorem succeeds_addText (hle : pbegin ≤ pend) (hend : pend ≤ src.buf.length) (nocase readescapes : Bool)
    (parts : List (Part α)) : Succeeds (addText src nocase readescapes parts pbegin pend) := by
  rw [addText]
  split_ifs
  · exact total_ok trivial
  · exact total_bind_pure_iff.mpr (succeeds_get_data hle hend _ _ _)

variable (src N) in
/-- A pattern is read without a fault: all tags of its parameters are. -/
def PatternSafe (nocase readescapes : Bool) (pbegin pend : Nat) : Prop :=
  ∀ q e, ParamIn src readescapes pend pbegin q e → ∀ q' e', TagIn src readescapes e q q' e' → TagSafe src N nocase q' e'

theorem succeeds_appendLoop {nocase readescapes : Bool} {parts : List (Part α)} {start : Nat} (hstart : start ≤ pbegin)
    (hle : pbegin ≤ pend) (hend : pend ≤ src.buf.length)
    (hN : ∀ nocase p q, start < p → p ≤ q → q ≤ src.buf.length → (Succeeds (nested nocase p q) ↔ N nocase p q)) :
    Succeeds (appendLoop src nested nocase readescapes pend parts pbegin) ↔
      PatternSafe src N nocase readescapes pbegin pend := by
  induction hn : pend - pbegin using Nat.strong_induction_on generalizing pbegin parts with
  | _ n ih =>
    have hfind : Total (fun r => pbegin ≤ r ∧ (r = pend ∨ r + 2 ≤ pend))
        (findParamBegin src.buf pbegin pend readescapes) := findParamBegin_total hle hend
    obtain ⟨phi, hphi, hlow, hhigh⟩ := hfind
    have htext := succeeds_addText hlow (show phi ≤ src.buf.length by omega) nocase readescapes parts
    by_cases hne : phi = pend
    · subst hne
      rw [appendLoop_last hphi]
      refine iff_of_true htext fun q e hparam => ?_
      cases hparam with
      | here hphi' hne | next hphi' hne =>
        cases hphi.symm.trans hphi'
        exact absurd rfl hne
    · have hfind : Total (fun r => phi + 2 ≤ r ∧ r ≤ pend) (findParamEnd src.buf (phi + 2) pend true) :=
        findParamEnd_total (hhigh.resolve_left hne) hend
      obtain ⟨e, he, hlow', hhigh'⟩ := hfind
      obtain ⟨hbehind, hbehind'⟩ := behind_le hhigh'
      rw [PatternSafe, forall_paramIn_iff hphi hne he, appendLoop_turn hphi hne he, Succeeds, total_bind_iff]
      obtain ⟨parts', hparts', -⟩ := htext
      have hparam : Succeeds (readParam src nested nocase readescapes (phi + 2) e) ↔
          ∀ q' e', TagIn src readescapes e (phi + 2) q' e' → TagSafe src N nocase q' e' :=
        succeeds_partLoop (Nat.le_refl _) hlow' (hhigh'.trans hend) rfl fun nocase p q hp => hN nocase p q (by omega)
      have hrest : ∀ parts'' : List (Part α),
          (Succeeds (appendLoop src nested nocase readescapes pend parts'' (behind e pend)) ↔
            PatternSafe src N nocase readescapes (behind e pend) pend) :=
        fun parts'' => ih _ (by omega) (by omega) hbehind' rfl
      rw [hparts', total_ok_iff, total_bind_iff, ← hparam]
      constructor
      · rintro ⟨part, hpart, h⟩
        refine ⟨⟨part, hpart, trivial⟩, fun hmore => ?_⟩
        rw [if_neg hmore] at h
        exact (hrest _).mp h
      · rintro ⟨⟨part, hpart, -⟩, hall⟩
        refine ⟨part, hpart, ?_⟩
        split_ifs with hmore
        · exact total_ok trivial
        · exact (hrest _).mpr (hall hmore)

theorem succeeds_append {nocase readescapes : Bool} (hle : pbegin ≤ pend) (hend : pend ≤ src.buf.length)
    (hN : ∀ nocase p q, pbegin < p → p ≤ q → q ≤ src.buf.length → (Succeeds (nested nocase p q) ↔ N nocase p q)) :
    Succeeds (append src nested nocase readescapes pbegin pend) ↔
      PatternSafe src N nocase readescapes pbegin pend := by
  rw [append]
  by_cases hempty : pbegin = pend
  · subst hempty
    rw [if_pos rfl]
    have hphi : findParamBegin src.buf pbegin pbegin readescapes = .ok pbegin := by
      rw [findParamBegin, findParamBeginLoop, dif_pos rfl]
    refine iff_of_true (total_ok trivial) fun q e hparam => ?_
    cases hparam with
    | here hphi' hne | next hphi' hne =>
      cases hphi.symm.trans hphi'
      exact absurd rfl hne
  · rw [if_neg hempty]
    exact succeeds_appendLoop (Nat.le_refl _) hle hend hN

variable (src) in
/-- A pattern is read without a fault, and so are the patterns in its values, up to a depth. -/
def ParseSafe : Nat → Bool → Bool → Nat → Nat → Prop
  | 0, _, _, _, _ => False
  | n + 1, nocase, readescapes, pbegin, pend =>
    PatternSafe src (fun nocase p q => ParseSafe n nocase true p q) nocase readescapes pbegin pend

/-- A pattern in a value begins further on, so there is no more depth than characters. -/
theorem succeeds_assign {n : Nat} {nocase readescapes : Bool} (hle : pbegin ≤ pend) (hend : pend ≤ src.buf.length)
    (hn : src.buf.length - pbegin < n) :
    Succeeds (SdEx.assign src n nocase readescapes pbegin pend) ↔ ParseSafe src n nocase readescapes pbegin pend := by
  induction n generalizing nocase readescapes pbegin pend with
  | zero => omega
  | succ n ih =>
    exact succeeds_append hle hend fun nocase p q hp hpq hq => ih hpq hq (by omega)

end

end Dcpp.SdExFull
