import Dcpp.SdExParserSafety

-- The reading of a pattern always ends.
namespace Dcpp.SdExFull

open Bdcpp Correctness

/-- The computation does not fail to end. -/
abbrev Ends {σ : Type} (x : Except Fault σ) : Prop := FailsWith (· ≠ Fault.endless) x

section
variable {buf : Bytes} {pbegin pend : Nat} {readescapes : Bool}

theorem ends_read {σ : Type} : Ends (.error .read : Except Fault σ) := failsWith_error (by decide)

theorem ends_copy : Ends (copy buf pbegin pend) := by
  rw [copy]
  split_ifs
  · exact failsWith_error (by decide)
  · exact ends_read
  · exact failsWith_ok

theorem ends_warn {w : Bool} : Ends (warn buf w pbegin pend) := by
  cases w with
  | false => exact failsWith_ok
  | true => exact ends_copy

theorem ends_findParamBegin : Ends (findParamBegin buf pbegin pend readescapes) := by
  have hloop : ∀ plo, Ends (findParamBeginLoop buf readescapes plo pend pbegin) := by
    intro plo
    fun_induction findParamBeginLoop buf readescapes plo pend pbegin with
    | case1 | case4 | case6 => exact failsWith_ok
    | case2 | case5 => exact ends_read
    | case3 pbegin hne hc ih => exact ih
    | case7 pbegin hne hlast d hd hbracket hc hescape ih => exact ih
    | case8 pbegin hne c hc hescape hpercent ih => exact ends_warn.bind fun _ _ => ih
  exact hloop pbegin

theorem ends_findTagBegin : Ends (findTagBegin buf pbegin pend readescapes) := by
  have hloop : ∀ plo, Ends (findTagBeginLoop buf readescapes plo pend pbegin) := by
    intro plo
    fun_induction findTagBeginLoop buf readescapes plo pend pbegin with
    | case1 | case4 => exact failsWith_ok
    | case2 => exact ends_read
    | case3 pbegin hne hc ih => exact ih
    | case5 pbegin hne c hc hescape htag ih => exact ends_warn.bind fun _ _ => ih
  exact hloop pbegin

theorem ends_findEndLoop {b : Brackets} {plo : Nat} {k : Counts} :
    Ends (findEndLoop buf b readescapes plo pend pbegin k) := by
  fun_induction findEndLoop buf b readescapes plo pend pbegin k with
  | case1 k => exact ends_warn.bind fun _ _ => failsWith_ok
  | case2 => exact ends_read
  | case3 pbegin k hne hc ih => exact ih
  | case4 pbegin k hne c hc hescape ih =>
    refine ends_warn.bind fun _ _ => ?_
    split
    · exact failsWith_ok
    · exact ih _

theorem ends_findSeparator {separator : UInt8} : Ends (findSeparator buf pbegin pend separator) := by
  have hloop : ∀ plo, Ends (findSeparatorLoop buf separator plo pend pbegin) := by
    intro plo
    fun_induction findSeparatorLoop buf separator plo pend pbegin with
    | case1 | case5 => exact failsWith_ok
    | case2 | case4 => exact ends_read
    | case7 pbegin hne hlast f hf => exact failsWith_error (ends_findEndLoop f hf)
    | case3 pbegin hne hc ih => exact ih
    | case6 pbegin hne d hd hlast hsep hc hescape ih => exact ih
    | case8 pbegin hne hlast phi hphi hc hescape hd ih => exact ih
    | case9 pbegin hne d hd hlast hbracket hc hescape ih => exact ih
    | case10 pbegin hne c hc hescape hpercent ih =>
      refine ends_warn.bind fun _ _ => ?_
      split_ifs
      · exact failsWith_ok
      · exact ih
  exact hloop pbegin

end

section
variable {src : Source} {pbegin pend : Nat}

/-- A loop over the parts ends if each turn does, on any range that begins further on. -/
theorem ends_eachPart {σ : Type} {separator : UInt8} {body : σ → Nat → Nat → Nat → Except Fault σ} {index start : Nat}
    (hstart : start ≤ pbegin) (hend : pend ≤ src.buf.length)
    (hbody : ∀ s j p q, start ≤ p → p ≤ q → q ≤ src.buf.length → Ends (body s j p q)) (s : σ) :
    Ends (eachPart src separator pend body pbegin index s) := by
  fun_induction eachPart src separator pend body pbegin index s with
  | case1 pbegin index s f hf => exact failsWith_error (ends_findSeparator f hf)
  | case2 pbegin index s phi hphi ih =>
    obtain ⟨hle, hlast⟩ := findSeparator_le phi hphi
    refine (hbody s index pbegin phi hstart hle (by omega)).bind fun s' _ => ?_
    split_ifs with hne
    · exact failsWith_ok
    · exact ih s' hne (by omega)

theorem ends_get_data {nocase readescapes strip : Bool} :
    Ends (src.get_data pbegin pend nocase readescapes strip) :=
  ends_copy.bind fun _ _ => failsWith_ok

theorem ends_readLegacyTag {ops : Nat} : Ends (readLegacyTag src pbegin pend ops) := by
  rw [readLegacyTag]
  cases src.buf[pbegin]? with
  | none => exact ends_read
  | some c =>
    dsimp only
    split <;> exact failsWith_ok

theorem ends_readTagName {ops : Nat} : Ends (readTagName src ops pbegin pend) := by
  rw [readTagName]
  split
  · exact failsWith_ok
  · split
    · exact failsWith_ok
    · refine ends_readLegacyTag.bind fun tag _ => ?_
      cases tag <;> exact failsWith_ok

theorem ends_readTag (hle : pbegin ≤ pend) (hend : pend ≤ src.buf.length) : Ends (readTag src pbegin pend) := by
  have hops : Ends (readOps src pbegin pend) := by
    obtain ⟨-, hhigh⟩ := nameEnd_le hle hend
    rw [readOps]
    split_ifs with hne
    · exact failsWith_ok
    · obtain ⟨-, hmods⟩ := modifiersEnd_le (show src.nameEnd pbegin pend + 1 ≤ pend by omega) hend
      exact ends_eachPart (Nat.zero_le _) (hmods.trans hend)
        (fun _ _ _ _ _ _ _ => ends_get_data.bind fun _ _ => failsWith_ok) 0
  exact hops.bind fun _ _ => ends_readTagName

variable {α : Type} {nested : Bool → Nat → Nat → Except Fault α} {start : Nat}
  (hnested : ∀ nocase p q, start ≤ p → p ≤ q → q ≤ src.buf.length → Ends (nested nocase p q))
include hnested

theorem ends_addComponent {aOps index : Nat} {sdv : Value α} (hstart : start ≤ pbegin) (hle : pbegin ≤ pend)
    (hend : pend ≤ src.buf.length) : Ends (addComponent src nested aOps sdv index pbegin pend) := by
  rw [addComponent]
  split_ifs
  · exact (ends_get_data.bind fun _ _ => failsWith_ok).bind fun _ _ => failsWith_ok
  · exact (ends_get_data.bind fun _ _ => failsWith_ok).bind fun _ _ => failsWith_ok
  · exact (hnested _ pbegin pend hstart hle hend).bind fun _ _ => failsWith_ok
  · exact ends_get_data.bind fun _ _ => failsWith_ok

theorem ends_tokenizer {ops : Nat} {partNocase : Bool} (hstart : start ≤ pbegin) (hend : pend ≤ src.buf.length) :
    Ends (tokenizer src nested pbegin pend ops partNocase) := by
  refine ends_eachPart hstart hend (fun tokens j p q hp hpq hq => ?_) []
  split_ifs
  · have hvalue : Ends (addValue src nested p q (tokenizerOps ops partNocase)) :=
      ends_eachPart hp hq (fun sdv i p' q' hp' hpq' hq' => ends_addComponent hnested hp' hpq' hq') _
    exact hvalue.bind fun _ _ => failsWith_ok
  · exact failsWith_ok

theorem ends_readTagText {part : Part α} (hstart : start ≤ pbegin) (hle : pbegin ≤ pend)
    (hend : pend ≤ src.buf.length) : Ends (readTagText src nested pbegin pend part) := by
  have hinside := tagText_inside hle hend
  rw [readTagText]
  split_ifs
  · exact failsWith_ok
  · cases htext : src.tagText pbegin pend with
    | sdexversion values => exact ends_get_data.bind fun _ _ => failsWith_ok
    | paramlengthfixed values | paramlengthmin values =>
      exact (ends_get_data.bind fun _ _ => failsWith_ok).bind fun _ _ => failsWith_ok
    | tag t =>
      rw [htext] at hinside
      obtain ⟨hbegin, hname, hdend, hvalues, hlast⟩ := hinside
      dsimp only
      rw [addTag]
      refine (ends_readTag hname (hdend.trans hend)).bind fun tag _ => ?_
      cases tag with
      | none => exact failsWith_ok
      | some tag => exact (ends_tokenizer hnested (hstart.trans hvalues) hend).bind fun _ _ => failsWith_ok

theorem ends_partLoop {readescapes name : Bool} {part : Part α} (hstart : start ≤ pbegin) (hle : pbegin ≤ pend)
    (hend : pend ≤ src.buf.length) : Ends (partLoop src nested readescapes pend part name pbegin) := by
  have hname : ∀ {part : Part α} {name : Bool} {p q : Nat}, Ends (readName src readescapes part name p q) := by
    intro part name p q
    rw [readName]
    split_ifs
    · exact failsWith_ok
    · exact ends_get_data.bind fun _ _ => failsWith_ok
  induction hn : pend - pbegin using Nat.strong_induction_on generalizing pbegin part name with
  | _ n ih =>
    have hfind : Total (fun r => pbegin ≤ r ∧ r ≤ pend) (findTagBegin src.buf pbegin pend readescapes) :=
      findTagBegin_total hle hend
    obtain ⟨phi, hphi, hlow, hhigh⟩ := hfind
    by_cases hne : phi = pend
    · subst hne
      rw [partLoop_last hphi]
      exact hname
    · have hfind : Total (fun r => phi + 1 ≤ r ∧ r ≤ pend) (findTagEnd src.buf (phi + 1) pend readescapes) :=
        findTagEnd_total (by omega) hend
      obtain ⟨e, he, hlow', hhigh'⟩ := hfind
      obtain ⟨hbehind, hbehind'⟩ := behind_le hhigh'
      rw [partLoop_turn hphi hne he]
      refine hname.bind fun part' _ => ?_
      refine (ends_readTagText hnested (by omega) hlow' (hhigh'.trans hend)).bind fun part'' _ => ?_
      split_ifs
      · exact failsWith_ok
      · exact ih _ (by omega) (by omega) hbehind' rfl

theorem ends_appendLoop {nocase readescapes : Bool} {parts : List (Part α)} (hstart : start ≤ pbegin + 2)
    (hle : pbegin ≤ pend) (hend : pend ≤ src.buf.length) :
    Ends (appendLoop src nested nocase readescapes pend parts pbegin) := by
  have htext : ∀ {parts : List (Part α)} {p q : Nat}, Ends (addText src nocase readescapes parts p q) := by
    intro parts p q
    rw [addText]
    split_ifs
    · exact failsWith_ok
    · exact ends_get_data.bind fun _ _ => failsWith_ok
  induction hn : pend - pbegin using Nat.strong_induction_on generalizing pbegin parts with
  | _ n ih =>
    have hfind : Total (fun r => pbegin ≤ r ∧ (r = pend ∨ r + 2 ≤ pend))
        (findParamBegin src.buf pbegin pend readescapes) := findParamBegin_total hle hend
    obtain ⟨phi, hphi, hlow, hhigh⟩ := hfind
    by_cases hne : phi = pend
    · subst hne
      rw [appendLoop_last hphi]
      exact htext
    · have hfind : Total (fun r => phi + 2 ≤ r ∧ r ≤ pend) (findParamEnd src.buf (phi + 2) pend true) :=
        findParamEnd_total (hhigh.resolve_left hne) hend
      obtain ⟨e, he, hlow', hhigh'⟩ := hfind
      obtain ⟨hbehind, hbehind'⟩ := behind_le hhigh'
      rw [appendLoop_turn hphi hne he]
      refine htext.bind fun parts' _ => ?_
      have hparam : Ends (readParam src nested nocase readescapes (phi + 2) e) :=
        ends_partLoop hnested (by omega) hlow' (hhigh'.trans hend)
      refine hparam.bind fun part _ => ?_
      split_ifs
      · exact failsWith_ok
      · exact ih _ (by omega) (by omega) hbehind' rfl

end

/-- A pattern in a value begins further on, so the depth lasts. -/
theorem ends_assign {src : Source} {n : Nat} {nocase readescapes : Bool} {pbegin pend : Nat} (hle : pbegin ≤ pend)
    (hend : pend ≤ src.buf.length) (hn : src.buf.length - pbegin < n) :
    Ends (SdEx.assign src n nocase readescapes pbegin pend) := by
  induction n generalizing nocase readescapes pbegin pend with
  | zero => omega
  | succ n ih =>
    rw [SdEx.assign, append]
    split_ifs
    · exact failsWith_ok
    · exact ends_appendLoop (fun nocase p q hp hpq hq => ih hpq hq (by omega)) (Nat.le_refl _) hle hend

/-- Reading a pattern always ends, and it reads nothing beyond the end if and only if the pattern is safe. -/
theorem assign_safe_iff (src : Source) (nocase readescapes : Bool) :
    SdEx.assign src (src.buf.length + 1) nocase readescapes 0 src.buf.length ≠ .error .endless ∧
    ((∃ e, SdEx.assign src (src.buf.length + 1) nocase readescapes 0 src.buf.length = .ok e) ↔
      ParseSafe src (src.buf.length + 1) nocase readescapes 0 src.buf.length) := by
  have hdepth : src.buf.length - 0 < src.buf.length + 1 := by omega
  refine ⟨fun h => ends_assign (Nat.zero_le _) (Nat.le_refl _) hdepth _ h rfl, ?_⟩
  rw [← succeeds_assign (Nat.zero_le _) (Nat.le_refl _) hdepth]
  exact ⟨fun ⟨e, he⟩ => ⟨e, he, trivial⟩, fun ⟨e, he, _⟩ => ⟨e, he⟩⟩

/-- `%[a{d=%}]` -/
def percentLast : Source := ⟨str "%[a\x7bd=%\x7d]", id, fun _ _ => 0⟩

theorem not_assign_safe : ¬∀ (src : Source) (nocase readescapes : Bool),
    ∃ e, SdEx.assign src (src.buf.length + 1) nocase readescapes 0 src.buf.length = .ok e := by
  intro h
  obtain ⟨e, he⟩ := h percentLast false true
  have hread : (match SdEx.assign percentLast (percentLast.buf.length + 1) false true 0 percentLast.buf.length with
      | .ok _ => true
      | .error _ => false) = false := by
    decide +kernel
  rw [he] at hread
  cases hread

end Dcpp.SdExFull
