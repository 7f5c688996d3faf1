import Mathlib.Tactic.SplitIfs
import Dcpp.Bytes
import Dcpp.Library.Correctness

-- The searches of `SdExFull` in a pattern. The pointers are places in the characters that can be read.
namespace Dcpp.SdExFull

open Correctness

/-- How reading a pattern goes wrong: a character is read at or beyond the end, or a string is made of a range that ends
before it begins, or it does not end. -/
inductive Fault
  | read | length | endless
  deriving DecidableEq, Repr

variable (buf : Bytes)

/-- The string of a range. -/
def copy (pbegin pend : Nat) : Except Fault Bytes :=
  if pend < pbegin then .error .length
  else if buf.length < pend then .error .read
  else .ok ((buf.take pend).drop pbegin)

/-- The range that a warning is about, if there is one. -/
def warn (w : Bool) (plo pend : Nat) : Except Fault Bytes := if w then copy buf plo pend else .ok []

/-- Where it goes on behind a backslash. -/
def skipEscaped (readescapes : Bool) (pbegin pend : Nat) : Nat :=
  let pbegin := pbegin + readescapes.toNat
  if pbegin ≠ pend then pbegin + 1 else pbegin

theorem lt_skipEscaped (readescapes : Bool) {pbegin pend : Nat} (h : pbegin ≠ pend) :
    pbegin < skipEscaped readescapes pbegin pend := by
  cases readescapes <;> simp only [skipEscaped, Bool.toNat_false, Bool.toNat_true] <;> split_ifs <;> omega

theorem skipEscaped_le (readescapes : Bool) {pbegin pend : Nat} (h : pbegin < pend) :
    skipEscaped readescapes pbegin pend ≤ pend := by
  cases readescapes <;> simp only [skipEscaped, Bool.toNat_false, Bool.toNat_true] <;> split_ifs <;> omega

/-- Where it goes on behind a character that ends something, if one was found. -/
def behind (phi pend : Nat) : Nat := if phi ≠ pend then phi + 1 else phi

/-- The loop of `findParamBegin`. A warning has the text from `plo` on. -/
def findParamBeginLoop (readescapes : Bool) (plo pend pbegin : Nat) : Except Fault Nat :=
  if _hne : pbegin = pend then .ok pend
  else
    match _hc : buf[pbegin]? with
    | none => .error .read
    | some c =>
      if c = byte '\\' then findParamBeginLoop readescapes plo pend (skipEscaped readescapes pbegin pend)
      else if c = byte '%' then
        if pbegin + 1 = pend then .ok pend
        else
          match buf[pbegin + 1]? with
          | none => .error .read
          | some d =>
            if d = byte '[' then .ok pbegin else findParamBeginLoop readescapes plo pend (pbegin + 1)
      else do
        let _ ← warn buf (c ∈ str "[]\x7b\x7d") plo pend
        findParamBeginLoop readescapes plo pend (pbegin + 1)
termination_by buf.length - pbegin
decreasing_by
  all_goals have hlt := (List.getElem?_eq_some_iff.mp _hc).1
  · have hskip := lt_skipEscaped readescapes _hne
    omega
  all_goals omega

def findParamBegin (pbegin pend : Nat) (readescapes : Bool) : Except Fault Nat :=
  findParamBeginLoop buf readescapes pbegin pend pbegin

/-- The loop of `findTagBegin`. -/
def findTagBeginLoop (readescapes : Bool) (plo pend pbegin : Nat) : Except Fault Nat :=
  if _hne : pbegin = pend then .ok pend
  else
    match _hc : buf[pbegin]? with
    | none => .error .read
    | some c =>
      if c = byte '\\' then findTagBeginLoop readescapes plo pend (skipEscaped readescapes pbegin pend)
      else if c = byte '\x7b' then .ok pbegin
      else do
        let _ ← warn buf (c ∈ str "\x7d[]") plo pend
        findTagBeginLoop readescapes plo pend (pbegin + 1)
termination_by buf.length - pbegin
decreasing_by
  all_goals have hlt := (List.getElem?_eq_some_iff.mp _hc).1
  · have hskip := lt_skipEscaped readescapes _hne
    omega
  all_goals omega

def findTagBegin (pbegin pend : Nat) (readescapes : Bool) : Except Fault Nat :=
  findTagBeginLoop buf readescapes pbegin pend pbegin

/-- The brackets that are counted: those of the end that is searched, and those of the other kind around it. -/
structure Brackets where
  open₁ : UInt8
  close₁ : UInt8
  open₂ : UInt8
  close₂ : UInt8

/-- The counts, and the first character that may be the end. -/
structure Counts where
  count1 : Nat
  count2 : Nat
  popt : Nat

/-- What a character does to the counts: whether there is a warning, and the counts behind it, unless it is the end. -/
def Counts.next (b : Brackets) (pbegin pend : Nat) (c : UInt8) (k : Counts) : Bool × Option Counts :=
  if c = b.open₁ then
    if k.count2 = 0 then (true, some k) else (false, some { k with count1 := k.count1 + 1 })
  else if c = b.close₁ then
    if k.count1 = 0 then
      if k.count2 = 0 then (k.popt ≠ pend, none)
      else (false, some { k with popt := if k.popt = pend then pbegin else k.popt })
    else (false, some { k with count1 := k.count1 - 1 })
  else if c = b.open₂ then (false, some { k with count2 := k.count2 + 1 })
  else if c = b.close₂ then
    if k.count2 = 0 then (true, some k) else (false, some { k with count2 := k.count2 - 1 })
  else (false, some k)

/-- The loop of `findParamEnd` and `findTagEnd`, which only differ in their brackets. -/
def findEndLoop (b : Brackets) (readescapes : Bool) (plo pend pbegin : Nat) (k : Counts) : Except Fault Nat :=
  if _hne : pbegin = pend then do
    let _ ← warn buf true plo pend
    return k.popt
  else
    match _hc : buf[pbegin]? with
    | none => .error .read
    | some c =>
      if c = byte '\\' then findEndLoop b readescapes plo pend (skipEscaped readescapes pbegin pend) k
      else do
        let _ ← warn buf (k.next b pbegin pend c).1 plo pend
        match (k.next b pbegin pend c).2 with
        | none => return pbegin
        | some k => findEndLoop b readescapes plo pend (pbegin + 1) k
termination_by buf.length - pbegin
decreasing_by
  all_goals have hlt := (List.getElem?_eq_some_iff.mp _hc).1
  · have hskip := lt_skipEscaped readescapes _hne
    omega
  · omega

def findParamEnd (pbegin pend : Nat) (readescapes : Bool) : Except Fault Nat :=
  findEndLoop buf ⟨byte '[', byte ']', byte '\x7b', byte '\x7d'⟩ readescapes pbegin pend pbegin ⟨0, 0, pend⟩

def findTagEnd (pbegin pend : Nat) (readescapes : Bool) : Except Fault Nat :=
  findEndLoop buf ⟨byte '\x7b', byte '\x7d', byte '[', byte ']'⟩ readescapes pbegin pend pbegin ⟨0, 0, pend⟩

variable {buf} {pbegin pend : Nat} {readescapes : Bool}

theorem copy_total {P : Bytes → Prop} (hle : pbegin ≤ pend) (hend : pend ≤ buf.length)
    (h : P ((buf.take pend).drop pbegin)) : Total P (copy buf pbegin pend) := by
  rw [copy, if_neg (Nat.not_lt.mpr hle), if_neg (Nat.not_lt.mpr hend)]
  exact total_ok h

/-- A warning has a text where the range is in order. -/
theorem warn_total {w : Bool} {plo : Nat} (hle : plo ≤ pend) (hend : pend ≤ buf.length) :
    Total (fun _ => True) (warn buf w plo pend) := by
  cases w with
  | false => exact total_ok trivial
  | true => exact copy_total hle hend trivial

theorem warn_partial {w : Bool} {plo : Nat} : Partial (fun _ => True) (warn buf w plo pend) := fun _ _ => trivial

theorem Counts.next_popt {b : Brackets} {c : UInt8} {k k' : Counts} (h : (k.next b pbegin pend c).2 = some k') :
    k'.popt = k.popt ∨ k'.popt = pbegin := by
  rw [Counts.next] at h
  split_ifs at h
  all_goals obtain rfl := Option.some_inj.mp h
  all_goals first | exact Or.inl rfl | exact Or.inr rfl

/-- An end is not in front of the place where it is searched from. -/
theorem findEndLoop_le {b : Brackets} {plo start : Nat} {k : Counts} (hstart : start ≤ pbegin)
    (hpopt : k.popt = pend ∨ start ≤ k.popt) :
    Partial (start ≤ ·) (findEndLoop buf b readescapes plo pend pbegin k) := by
  fun_induction findEndLoop buf b readescapes plo pend pbegin k with
  | case1 k =>
    refine warn_partial.bind fun _ _ => partial_ok ?_
    omega
  | case2 => exact partial_error
  | case3 pbegin k hne hc ih => exact ih (by have := lt_skipEscaped readescapes hne; omega) hpopt
  | case4 pbegin k hne c hc hescape ih =>
    refine warn_partial.bind fun _ _ => ?_
    split
    · exact partial_ok hstart
    · next k' hnext =>
      refine ih k' (by omega) ?_
      obtain heq | heq := Counts.next_popt hnext
      · rwa [heq]
      · exact Or.inr (heq ▸ hstart)

/-- The end is found inside the range. -/
theorem findEndLoop_total {b : Brackets} {plo start : Nat} {k : Counts} (hplo : plo ≤ pend) (hend : pend ≤ buf.length)
    (hstart : start ≤ pbegin) (hle : pbegin ≤ pend) (hpopt : start ≤ k.popt ∧ k.popt ≤ pend) :
    Total (fun r => start ≤ r ∧ r ≤ pend) (findEndLoop buf b readescapes plo pend pbegin k) := by
  fun_induction findEndLoop buf b readescapes plo pend pbegin k with
  | case1 k => exact (warn_total hplo hend).bind fun _ _ => total_ok hpopt
  | case2 pbegin k hne hc =>
    have hlt := List.getElem?_eq_none_iff.mp hc
    omega
  | case3 pbegin k hne hc ih =>
    have hlt := lt_skipEscaped readescapes hne
    exact ih (by omega) (skipEscaped_le readescapes (by omega)) hpopt
  | case4 pbegin k hne c hc hescape ih =>
    refine (warn_total hplo hend).bind fun _ _ => ?_
    split
    · exact total_ok ⟨hstart, hle⟩
    · next k' hnext =>
      refine ih k' (by omega) (by omega) ?_
      obtain heq | heq := Counts.next_popt hnext
      · rwa [heq]
      · exact heq ▸ ⟨hstart, hle⟩

theorem findParamEnd_le : Partial (pbegin ≤ ·) (findParamEnd buf pbegin pend readescapes) :=
  findEndLoop_le (Nat.le_refl _) (Or.inl rfl)

theorem findParamEnd_total (hle : pbegin ≤ pend) (hend : pend ≤ buf.length) :
    Total (fun r => pbegin ≤ r ∧ r ≤ pend) (findParamEnd buf pbegin pend readescapes) :=
  findEndLoop_total hle hend (Nat.le_refl _) hle ⟨hle, (Nat.le_refl _)⟩

theorem findTagEnd_le : Partial (pbegin ≤ ·) (findTagEnd buf pbegin pend readescapes) :=
  findEndLoop_le (Nat.le_refl _) (Or.inl rfl)

theorem findTagEnd_total (hle : pbegin ≤ pend) (hend : pend ≤ buf.length) :
    Total (fun r => pbegin ≤ r ∧ r ≤ pend) (findTagEnd buf pbegin pend readescapes) :=
  findEndLoop_total hle hend (Nat.le_refl _) hle ⟨hle, (Nat.le_refl _)⟩

theorem findParamBegin_lt :
    Partial (fun r => r = pend ∨ pbegin ≤ r ∧ r < buf.length) (findParamBegin buf pbegin pend readescapes) := by
  have hloop : ∀ plo start, start ≤ pbegin → Partial (fun r => r = pend ∨ start ≤ r ∧ r < buf.length)
      (findParamBeginLoop buf readescapes plo pend pbegin) := by
    intro plo start hstart
    fun_induction findParamBeginLoop buf readescapes plo pend pbegin with
    | case1 => exact partial_ok (Or.inl rfl)
    | case2 | case5 => exact partial_error
    | case3 pbegin hne hc ih =>
      have hlt := lt_skipEscaped readescapes hne
      exact ih (by omega)
    | case4 => exact partial_ok (Or.inl rfl)
    | case6 pbegin hne hlast hc =>
      have hlt := (List.getElem?_eq_some_iff.mp hc).1
      exact partial_ok (Or.inr ⟨hstart, hlt⟩)
    | case7 pbegin hne hlast d hd hbracket hc hescape ih => exact ih (by omega)
    | case8 pbegin hne c hc hescape hpercent ih => exact warn_partial.bind fun _ _ => ih (by omega)
  exact hloop pbegin pbegin (Nat.le_refl _)

/-- The begin of a parameter, which takes two characters, is found inside the range. -/
theorem findParamBegin_total (hle : pbegin ≤ pend) (hend : pend ≤ buf.length) :
    Total (fun r => pbegin ≤ r ∧ (r = pend ∨ r + 2 ≤ pend)) (findParamBegin buf pbegin pend readescapes) := by
  have hloop : ∀ plo start, plo ≤ pend → start ≤ pbegin → pbegin ≤ pend →
      Total (fun r => start ≤ r ∧ (r = pend ∨ r + 2 ≤ pend))
        (findParamBeginLoop buf readescapes plo pend pbegin) := by
    clear hle
    intro plo start hplo hstart hle
    fun_induction findParamBeginLoop buf readescapes plo pend pbegin with
    | case1 => exact total_ok ⟨hstart, Or.inl rfl⟩
    | case2 pbegin hne hc =>
      have hlt := List.getElem?_eq_none_iff.mp hc
      omega
    | case3 pbegin hne hc ih =>
      have hlt := lt_skipEscaped readescapes hne
      exact ih (by omega) (skipEscaped_le readescapes (by omega))
    | case4 pbegin hne hlast => exact total_ok ⟨by omega, Or.inl rfl⟩
    | case5 pbegin hne hlast hd =>
      have hlt := List.getElem?_eq_none_iff.mp hd
      omega
    | case6 pbegin hne hlast => exact total_ok ⟨hstart, Or.inr (by omega)⟩
    | case7 pbegin hne hlast d hd hbracket hc hescape ih => exact ih (by omega) (by omega)
    | case8 pbegin hne c hc hescape hpercent ih =>
      exact (warn_total hplo hend).bind fun _ _ => ih (by omega) (by omega)
  exact hloop pbegin pbegin hle (Nat.le_refl _) hle

theorem findTagBegin_lt :
    Partial (fun r => r = pend ∨ pbegin ≤ r ∧ r < buf.length) (findTagBegin buf pbegin pend readescapes) := by
  have hloop : ∀ plo start, start ≤ pbegin → Partial (fun r => r = pend ∨ start ≤ r ∧ r < buf.length)
      (findTagBeginLoop buf readescapes plo pend pbegin) := by
    intro plo start hstart
    fun_induction findTagBeginLoop buf readescapes plo pend pbegin with
    | case1 => exact partial_ok (Or.inl rfl)
    | case2 => exact partial_error
    | case3 pbegin hne hc ih =>
      have hlt := lt_skipEscaped readescapes hne
      exact ih (by omega)
    | case4 pbegin hne hc =>
      have hlt := (List.getElem?_eq_some_iff.mp hc).1
      exact partial_ok (Or.inr ⟨hstart, hlt⟩)
    | case5 pbegin hne c hc hescape htag ih => exact warn_partial.bind fun _ _ => ih (by omega)
  exact hloop pbegin pbegin (Nat.le_refl _)

theorem findTagBegin_total (hle : pbegin ≤ pend) (hend : pend ≤ buf.length) :
    Total (fun r => pbegin ≤ r ∧ r ≤ pend) (findTagBegin buf pbegin pend readescapes) := by
  have hloop : ∀ plo start, plo ≤ pend → start ≤ pbegin → pbegin ≤ pend →
      Total (fun r => start ≤ r ∧ r ≤ pend) (findTagBeginLoop buf readescapes plo pend pbegin) := by
    clear hle
    intro plo start hplo hstart hle
    fun_induction findTagBeginLoop buf readescapes plo pend pbegin with
    | case1 => exact total_ok ⟨hstart, Nat.le_refl _⟩
    | case2 pbegin hne hc =>
      have hlt := List.getElem?_eq_none_iff.mp hc
      omega
    | case3 pbegin hne hc ih =>
      have hlt := lt_skipEscaped readescapes hne
      exact ih (by omega) (skipEscaped_le readescapes (by omega))
    | case4 pbegin hne hc => exact total_ok ⟨hstart, hle⟩
    | case5 pbegin hne c hc hescape htag ih =>
      exact (warn_total hplo hend).bind fun _ _ => ih (by omega) (by omega)
  exact hloop pbegin pbegin hle (Nat.le_refl _) hle

variable (buf) in
/-- The loop of `findSeparator`, which always reads escapes. Where a `%` is the last character, what stands at the end is
compared, and the loop goes on behind it. -/
def findSeparatorLoop (separator : UInt8) (plo pend pbegin : Nat) : Except Fault Nat :=
  if _hne : pbegin = pend then .ok pend
  else
    match _hc : buf[pbegin]? with
    | none => .error .read
    | some c =>
      if c = byte '\\' then findSeparatorLoop separator plo pend (skipEscaped true pbegin pend)
      else if c = byte '%' then
        match buf[pbegin + 1]? with
        | none => .error .read
        | some d =>
          if pbegin + 1 = pend then
            if d = separator then .ok pend else findSeparatorLoop separator plo pend (pbegin + 2)
          else if d = byte '[' then
            match _he : findParamEnd buf (pbegin + 2) pend true with
            | .error f => .error f
            | .ok phi => findSeparatorLoop separator plo pend (behind phi pend)
          else findSeparatorLoop separator plo pend (pbegin + 2)
      else do
        let _ ← warn buf (c ∈ str "[]\x7b\x7d") plo pend
        if c = separator then return pbegin else findSeparatorLoop separator plo pend (pbegin + 1)
termination_by buf.length - pbegin
decreasing_by
  all_goals have hlt := (List.getElem?_eq_some_iff.mp _hc).1
  · have hskip := lt_skipEscaped true _hne
    omega
  · omega
  · have hphi : pbegin + 2 ≤ phi := findParamEnd_le phi _he
    rw [behind]
    split <;> omega
  all_goals omega

variable (buf) in
def findSeparator (pbegin pend : Nat) (separator : UInt8) : Except Fault Nat :=
  findSeparatorLoop buf separator pbegin pend pbegin

theorem findSeparatorLoop_le {separator : UInt8} {plo start : Nat} (hstart : start ≤ pbegin) :
    Partial (fun r => start ≤ r ∧ (r = pend ∨ r < buf.length))
      (findSeparatorLoop buf separator plo pend pbegin) := by
  fun_induction findSeparatorLoop buf separator plo pend pbegin with
  | case1 => exact partial_ok ⟨hstart, Or.inl rfl⟩
  | case2 | case4 | case7 => exact partial_error
  | case3 pbegin hne hc ih =>
    have hlt := lt_skipEscaped true hne
    exact ih (by omega)
  | case5 pbegin hne hlast => exact partial_ok ⟨by omega, Or.inl rfl⟩
  | case6 pbegin hne d hd hlast hsep hc hescape ih => exact ih (by omega)
  | case8 pbegin hne hlast phi hphi hc hescape hd ih =>
    have hle : pbegin + 2 ≤ phi := findParamEnd_le phi hphi
    exact ih (by rw [behind]; split <;> omega)
  | case9 pbegin hne d hd hlast hbracket hc hescape ih => exact ih (by omega)
  | case10 pbegin hne c hc hescape hpercent ih =>
    refine warn_partial.bind fun _ _ => ?_
    split_ifs
    · exact partial_ok ⟨hstart, Or.inr (List.getElem?_eq_some_iff.mp hc).1⟩
    · exact ih (by omega)

/-- A separator is not in front of the place where it is searched from, and it is read. -/
theorem findSeparator_le {separator : UInt8} : Partial (fun r => pbegin ≤ r ∧ (r = pend ∨ r < buf.length))
    (findSeparator buf pbegin pend separator) :=
  findSeparatorLoop_le (Nat.le_refl _)

/-- The search comes to a `%` as the last character, and there is no separator behind that one. -/
inductive Overruns (buf : Bytes) (separator : UInt8) (pend : Nat) : Nat → Prop
  | last {pbegin : Nat} : pbegin + 1 = pend → buf[pbegin]? = some (byte '%') → buf[pend]? ≠ some separator →
      Overruns buf separator pend pbegin
  | escaped {pbegin : Nat} : pbegin < pend → buf[pbegin]? = some (byte '\\') →
      Overruns buf separator pend (skipEscaped true pbegin pend) → Overruns buf separator pend pbegin
  | param {pbegin phi : Nat} : pbegin + 1 < pend → buf[pbegin]? = some (byte '%') →
      buf[pbegin + 1]? = some (byte '[') → findParamEnd buf (pbegin + 2) pend true = .ok phi →
      Overruns buf separator pend (behind phi pend) → Overruns buf separator pend pbegin
  | percent {pbegin : Nat} : pbegin + 1 < pend → buf[pbegin]? = some (byte '%') →
      buf[pbegin + 1]? ≠ some (byte '[') → Overruns buf separator pend (pbegin + 2) →
      Overruns buf separator pend pbegin
  | other {pbegin : Nat} {c : UInt8} : pbegin < pend → buf[pbegin]? = some c → c ≠ byte '\\' → c ≠ byte '%' →
      c ≠ separator → Overruns buf separator pend (pbegin + 1) → Overruns buf separator pend pbegin

theorem behind_le {phi : Nat} (h : phi ≤ pend) : phi ≤ behind phi pend ∧ behind phi pend ≤ pend := by
  rw [behind]
  split <;> omega

/-- The separator, or the end, is found inside the range. -/
theorem findSeparator_total {separator : UInt8} (hle : pbegin ≤ pend) (hend : pend ≤ buf.length)
    (hover : ¬Overruns buf separator pend pbegin) :
    Total (fun r => pbegin ≤ r ∧ r ≤ pend) (findSeparator buf pbegin pend separator) := by
  have hloop : ∀ plo start, plo ≤ pend → start ≤ pbegin → pbegin ≤ pend → ¬Overruns buf separator pend pbegin →
      Total (fun r => start ≤ r ∧ r ≤ pend) (findSeparatorLoop buf separator plo pend pbegin) := by
    clear hle hover
    intro plo start hplo hstart hle hover
    fun_induction findSeparatorLoop buf separator plo pend pbegin with
    | case1 => exact total_ok ⟨hstart, Nat.le_refl _⟩
    | case2 pbegin hne hc =>
      have hlt := List.getElem?_eq_none_iff.mp hc
      omega
    | case3 pbegin hne hc ih =>
      have hlt := lt_skipEscaped true hne
      exact ih (by omega) (skipEscaped_le true (by omega)) fun h => hover (.escaped (by omega) hc h)
    | case4 pbegin hne hd hc hescape =>
      have hlt := List.getElem?_eq_none_iff.mp hd
      obtain rfl : pbegin + 1 = pend := by omega
      exact absurd (.last rfl hc (by rw [hd]; exact fun h => nomatch h)) hover
    | case5 pbegin hne hlast => exact total_ok ⟨by omega, Nat.le_refl _⟩
    | case6 pbegin hne d hd hlast hsep hc hescape ih =>
      refine absurd (.last hlast hc ?_) hover
      rw [← hlast, hd]
      exact fun h => hsep (Option.some_inj.mp h)
    | case7 pbegin hne hlast f hf =>
      obtain ⟨phi, hphi, -⟩ := findParamEnd_total (show pbegin + 2 ≤ pend by omega) hend
      rw [hf] at hphi
      cases hphi
    | case8 pbegin hne hlast phi hphi hc hescape hd ih =>
      obtain ⟨r, hr, hlow, hhigh⟩ := findParamEnd_total (show pbegin + 2 ≤ pend by omega) hend
      rw [hphi] at hr
      cases hr
      obtain ⟨hle, hpend⟩ := behind_le hhigh
      exact ih (by omega) hpend fun h => hover (.param (by omega) hc hd hphi h)
    | case9 pbegin hne d hd hlast hbracket hc hescape ih =>
      refine ih (by omega) (by omega) fun h => hover (.percent (by omega) hc ?_ h)
      rw [hd]
      exact fun h => hbracket (Option.some_inj.mp h)
    | case10 pbegin hne c hc hescape hpercent ih =>
      refine (warn_total hplo hend).bind fun _ _ => ?_
      split_ifs with hsep
      · exact total_ok ⟨hstart, hle⟩
      · exact ih (by omega) (by omega) fun h => hover (.other (by omega) hc hescape hpercent hsep h)
  exact hloop pbegin pbegin hle (Nat.le_refl _) hle hover

/-- Otherwise, what is found is behind the range. -/
theorem findSeparator_overruns {separator : UInt8} (hover : Overruns buf separator pend pbegin) :
    Partial (pend < ·) (findSeparator buf pbegin pend separator) := by
  have hloop : ∀ plo, Partial (pend < ·) (findSeparatorLoop buf separator plo pend pbegin) := by
    intro plo
    induction hover with
    | @last pbegin hlast hc hsep =>
      rw [findSeparatorLoop, dif_neg (by omega)]
      split
      · exact partial_error
      · next c hc' =>
        obtain rfl := Option.some_inj.mp (hc'.symm.trans hc)
        rw [if_neg (by decide), if_pos rfl]
        split
        · exact partial_error
        · next d hd =>
          rw [if_pos hlast, if_neg (by rintro rfl; exact hsep (hlast ▸ hd))]
          exact (findSeparatorLoop_le (Nat.le_refl _)).imp fun r hr => by omega
    | @escaped pbegin hlt hc hover ih =>
      rw [findSeparatorLoop, dif_neg (by omega)]
      split
      · exact partial_error
      · next c hc' =>
        obtain rfl := Option.some_inj.mp (hc'.symm.trans hc)
        rw [if_pos rfl]
        exact ih
    | @param pbegin phi hlt hc hd hphi hover ih =>
      rw [findSeparatorLoop, dif_neg (by omega)]
      split
      · exact partial_error
      · next c hc' =>
        obtain rfl := Option.some_inj.mp (hc'.symm.trans hc)
        rw [if_neg (by decide), if_pos rfl, hd]
        dsimp only
        rw [if_neg (by omega), if_pos rfl]
        split
        · exact partial_error
        · next phi' hphi' =>
          cases hphi.symm.trans hphi'
          exact ih
    | @percent pbegin hlt hc hd hover ih =>
      rw [findSeparatorLoop, dif_neg (by omega)]
      split
      · exact partial_error
      · next c hc' =>
        obtain rfl := Option.some_inj.mp (hc'.symm.trans hc)
        rw [if_neg (by decide), if_pos rfl]
        split
        · exact partial_error
        · next d hd' =>
          rw [if_neg (by omega), if_neg (by rintro rfl; exact hd hd')]
          exact ih
    | @other pbegin c hlt hc hescape hpercent hsep hover ih =>
      rw [findSeparatorLoop, dif_neg (by omega)]
      split
      · exact partial_error
      · next c' hc' =>
        obtain rfl := Option.some_inj.mp (hc'.symm.trans hc)
        rw [if_neg hescape, if_neg hpercent]
        refine warn_partial.bind fun _ _ => ?_
        rw [if_neg hsep]
        exact ih
  exact hloop pbegin

end Dcpp.SdExFull
