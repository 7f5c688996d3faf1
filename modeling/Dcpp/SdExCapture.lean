import Dcpp.Library.Defined
import Dcpp.SdExOperators

-- Which parameters a match leaves: a matcher that puts them back wherever something fails, and when `check` is it.
namespace Dcpp.SdExFull

open Defined

section Definedness

/-- The second has the outcomes of the first. -/
def Extends {α : Type} (f g : Tag → Value α → SdExString → ParamMap → Outcome) : Prop :=
  ∀ t v s params, Le (f t v s params) (g t v s params)

structure Nested.Extends {α : Type} (n m : Nested α) : Prop where
  check : ∀ e d params, Le (n.check e d params) (m.check e d params)
  format : ∀ e params, Le (n.format e params) (m.format e params)

variable {toLower : Bytes → Bytes} {α : Type}

section

variable {f g : Tag → Value α → SdExString → ParamMap → Outcome}

theorem valuesLoop_le (h : Extends f g) (t : Tag) (values : List (Value α)) (valid : Bool) (prev : Int) (s : SdExString)
    (params : ParamMap) : Le (valuesLoop f t values valid prev s params) (valuesLoop g t values valid prev s params) := by
  induction values generalizing valid prev s params with
  | nil => exact Le.refl _
  | cons v values ih =>
    cases hv : f t v s params with
    | none =>
      rw [valuesLoop, hv]
      exact none_le _
    | some r =>
      obtain ⟨b, s', params'⟩ := r
      rw [valuesLoop_cons hv, valuesLoop_cons (h t v s params _ hv)]
      cases operator t.getOps with
      | and =>
        cases inverted t.getOps b with
        | false => exact Le.refl _
        | true => exact ih _ _ _ _
      | or =>
        cases inverted t.getOps b with
        | false => exact ih _ _ _ _
        | true => exact Le.refl _
      | xor =>
        cases inverted t.getOps b with
        | false => exact ih _ _ _ _
        | true => exact .ite (fun _ => Le.refl _) fun _ => ih _ _ _ _
      | xnor => exact .ite (fun _ => Le.refl _) fun _ => ih _ _ _ _

theorem checkTags_le (h : Extends f g) (tags : List (Tag × List (Value α))) (s : SdExString) (params : ParamMap) :
    Le (checkTags f tags s params) (checkTags g tags s params) := by
  induction tags generalizing s params with
  | nil => exact Le.refl _
  | cons x tags ih =>
    obtain ⟨t, values⟩ := x
    rw [checkTags, checkTags]
    refine .ite (fun _ => ih s params) fun _ => .bind (valuesLoop_le h _ _ _ _ _ _) fun r _ => ?_
    exact .ite (fun _ => Le.refl _) fun _ => ih _ _

theorem checkRun_le (h : Extends f g) (line : Bytes) (keep : Bool) (dend : Nat) (run : List (Part α)) (tmpbegin : Nat)
    (m : Matching) : Le (checkRun f line keep dend run tmpbegin m) (checkRun g line keep dend run tmpbegin m) := by
  induction run generalizing tmpbegin m with
  | nil => exact Le.refl _
  | cons cur run ih =>
    rw [checkRun, checkRun]
    refine .bind (checkTags_le h _ _ _) fun r _ => ?_
    exact .ite (fun _ => Le.refl _) fun _ => .ite (fun _ => Le.refl _) fun _ => ih _ _

theorem checkParts_le (h : Extends f g) (line : Bytes) (keep : Bool) (parts run : List (Part α)) (m : Matching) :
    Le (checkParts toLower f line keep parts run m) (checkParts toLower g line keep parts run m) := by
  induction parts generalizing run m with
  | nil =>
    cases run with
    | nil => exact Le.refl _
    | cons cur run =>
      rw [checkParts, checkParts]
      exact .ite (fun _ => Le.refl _) fun _ => .ite (fun _ => Le.refl _) fun _ => checkRun_le h _ _ _ _ _ _
  | cons pi parts ih =>
    cases run with
    | nil =>
      rw [checkParts, checkParts]
      refine .ite (fun _ => ih _ _) fun _ => .ite (fun _ => Le.refl _) fun _ => ?_
      exact .ite (fun _ => Le.refl _) fun _ => ih _ _
    | cons cur run =>
      rw [checkParts, checkParts]
      refine .ite (fun _ => ih _ _) fun _ => .ite (fun _ => Le.refl _) fun _ => ?_
      cases findText toLower line (cur :: run) pi (m.phi + combinedLength (cur :: run)) with
      | none => exact Le.refl _
      | some dend =>
        refine .ite (fun _ => Le.refl _) fun _ => .bind (checkRun_le h _ _ _ _ _ _) fun r _ => ?_
        exact .ite (fun _ => Le.refl _) fun _ => ih _ _

theorem check_le (h : Extends f g) (parts : List (Part α)) (line : Bytes) (params : Option ParamMap) :
    Le (check toLower f parts line params) (check toLower g parts line params) :=
  .bind (checkParts_le h _ _ _ _ _) fun _ _ => Le.refl _

theorem formatLoop_le (h : Extends f g) (i j k : Bool) (parts : List (Part α)) (sdstrings : List SdExString)
    (params : ParamMap) : Le (formatLoop f i j k parts sdstrings params) (formatLoop g i j k parts sdstrings params) := by
  induction parts generalizing sdstrings params with
  | nil => exact Le.refl _
  | cons pi parts ih =>
    rw [formatLoop, formatLoop]
    refine .ite (fun _ => ih _ _) fun _ => .ite (fun _ => Le.refl _) fun _ => ?_
    refine .bind (checkTags_le h _ _ _) fun r _ => ?_
    exact .ite (fun _ => Le.refl _) fun _ => ih _ _

theorem overloads_extends (h : Extends f g) : (overloads toLower f).Extends (overloads toLower g) where
  check _ _ _ := .bind (check_le h _ _ _) fun _ _ => Le.refl _
  format _ _ := .bind (.bind (formatLoop_le h _ _ _ _ _ _) fun _ _ => Le.refl _) fun _ _ => Le.refl _

end

section

variable {n m : Nested α}

theorem checkAny_le (h : n.Extends m) (d : Bytes) (sdexs : List α) (params : ParamMap) :
    Le (Function.checkAny n d sdexs params) (Function.checkAny m d sdexs params) := by
  induction sdexs generalizing params with
  | nil => exact Le.refl _
  | cons psi sdexs ih =>
    rw [Function.checkAny, Function.checkAny]
    exact .bind (h.check _ _ _) fun r _ => .ite (fun _ => Le.refl _) fun _ => ih _

theorem runFunction_le (h : n.Extends m) (f : Function) (v : Value α) (s : SdExString) (params : ParamMap) :
    Le (f.runFunction toLower n v s params) (f.runFunction toLower m v s params) := by
  cases f with
  | ifelse =>
    rw [Function.runFunction, Function.runFunction, Function.runIfelse, Function.runIfelse]
    obtain _ | ⟨condition, _ | ⟨yes, rest⟩⟩ := v.sdexs
    · exact Le.refl _
    · exact Le.refl _
    · refine .bind (h.check _ _ _) fun r _ => .ite (fun _ => ?_) fun _ => ?_
      · exact .bind (h.check _ _ _) fun _ _ => Le.refl _
      · cases rest with
        | nil => exact Le.refl _
        | cons no rest => exact .bind (h.check _ _ _) fun _ _ => Le.refl _
  | pattern => exact .bind (checkAny_le h _ _ _) fun _ _ => Le.refl _
  | validate =>
    rw [Function.runFunction, Function.runFunction, Function.runValidate, Function.runValidate]
    cases v.strings with
    | nil => exact Le.refl _
    | cons name strings =>
      dsimp only
      cases params name with
      | none => exact Le.refl _
      | some p => exact .bind (checkAny_le h _ _ _) fun _ _ => Le.refl _
  | format =>
    rw [Function.runFunction, Function.runFunction, Function.runFormat, Function.runFormat]
    cases v.sdexs with
    | nil => exact Le.refl _
    | cons fmt rest => exact .ite (fun _ => Le.refl _) fun _ => .bind (h.format _ _) fun _ _ => Le.refl _
  | split =>
    rw [Function.runFunction, Function.runFunction, Function.runSplit, Function.runSplit]
    obtain _ | ⟨part1, _ | ⟨part2, rest⟩⟩ := v.sdexs
    · exact Le.refl _
    · exact Le.refl _
    · refine .bind (Le.refl _) fun halves _ => ?_
      cases halves with
      | none => exact Le.refl _
      | some halves =>
        refine .bind (h.check _ _ _) fun r _ => .ite (fun _ => Le.refl _) fun _ => ?_
        exact .bind (h.check _ _ _) fun _ _ => Le.refl _
  | _ => exact Le.refl _

theorem tagCheck_extends (h : n.Extends m) : Extends (Tag.check toLower n) (Tag.check toLower m) := by
  intro t v s params
  rw [Tag.check, Tag.check]
  cases t.function with
  | none => exact Le.refl _
  | some f => exact runFunction_le h f v s params

end

end Definedness

section

variable (toLower : Bytes → Bytes) {α : Type} (nested : Nested α)

/-- A value whose function fails, or whose tag's NOT inverts it, puts the parameters back. -/
def rollback (t : Tag) (v : Value α) (s : SdExString) (params : ParamMap) : Outcome := do
  let (b, s, params') ← t.check toLower nested v s params
  return (b, s, if b && !hasFlag t.getOps OP_NOT then params' else params)

/-- NOT inverts a function that has bound something, or the condition of an if/else matches and binds something but
what it chooses does not match. -/
def Leaks (t : Tag) (v : Value α) (s : SdExString) (params : ParamMap) : Prop :=
  (hasFlag t.getOps OP_NOT = true ∧ ∃ s' params', t.check toLower nested v s params = some (true, s', params') ∧
    params' ≠ params) ∨
  (t.function = some .ifelse ∧ ∃ condition yes rest, v.sdexs = condition :: yes :: rest ∧ ∃ bound params',
    nested.check condition (Function.compared toLower v s.data) params = some (true, bound) ∧ bound ≠ params ∧
      nested.check yes (Function.compared toLower v s.data) bound = some (false, params'))

open Classical in
/-- A check that stops at a leak. -/
noncomputable def guarded (t : Tag) (v : Value α) (s : SdExString) (params : ParamMap) : Outcome :=
  if Leaks toLower nested t v s params then none else t.check toLower nested v s params

end

/-- The matcher whose alternatives and nested patterns are transactions. -/
def SdEx.transactional (toLower : Bytes → Bytes) : (n : Nat) → Nested (SdEx n) :=
  SdEx.baseWith toLower fun _ nested => rollback toLower nested

noncomputable def SdEx.guarded (toLower : Bytes → Bytes) : (n : Nat) → Nested (SdEx n) :=
  SdEx.baseWith toLower fun _ nested => SdExFull.guarded toLower nested

/-- No value that is checked on the way leaks, in the pattern or in those in its values. -/
def LeakFree (toLower : Bytes → Bytes) {n : Nat} (e : SdEx (n + 1)) (line : Bytes) (params : ParamMap) : Prop :=
  (check toLower (guarded toLower (SdEx.guarded toLower n)) e line (some params)).isSome

section

variable {toLower : Bytes → Bytes} {α : Type} {nested : Nested α}

/-- A failed check of a pattern leaves the parameters. -/
def Nested.Restores (nested : Nested α) : Prop :=
  ∀ e d params params', nested.check e d params = some (false, params') → params' = params

theorem check_false {tagCheck : Tag → Value α → SdExString → ParamMap → Outcome} {parts : List (Part α)} {line : Bytes}
    {params params' : Option ParamMap} {pieces : List SdExString}
    (h : check toLower tagCheck parts line params = some (false, pieces, params')) : params' = params := by
  obtain ⟨⟨b, m⟩, -, h⟩ := Option.bind_eq_some_iff.mp h
  cases b <;> cases h
  rfl

theorem overloads_restores (toLower : Bytes → Bytes) (tagCheck : Tag → Value α → SdExString → ParamMap → Outcome) :
    (overloads toLower tagCheck).Restores := by
  intro parts d params params' h
  obtain ⟨⟨b, pieces, params''⟩, hcheck, h⟩ := Option.bind_eq_some_iff.mp h
  cases h
  rw [check_false hcheck]
  rfl

theorem baseWith_restores (toLower : Bytes → Bytes)
    (tagCheck : (α : Type) → Nested α → Tag → Value α → SdExString → ParamMap → Outcome) (n : Nat) :
    (SdEx.baseWith toLower tagCheck n).Restores := by
  cases n with
  | zero => exact fun e => nomatch e
  | succ n => exact overloads_restores toLower _

theorem checkAny_false (hn : nested.Restores) {d : Bytes} {sdexs : List α} {params params' : ParamMap}
    (h : Function.checkAny nested d sdexs params = some (false, params')) : params' = params := by
  induction sdexs generalizing params with
  | nil =>
    cases h
    rfl
  | cons psi sdexs ih =>
    rw [Function.checkAny] at h
    obtain ⟨⟨b, params''⟩, hcheck, h⟩ := Option.bind_eq_some_iff.mp h
    cases b with
    | true => cases h
    | false => rw [ih h, hn _ _ _ _ hcheck]

/-- A function that fails leaves the parameters, but for the if/else. -/
theorem runFunction_false (hn : nested.Restores) {f : Function} {v : Value α} {s s' : SdExString}
    {params params' : ParamMap} (h : f.runFunction toLower nested v s params = some (false, s', params'))
    (hleak : ∀ condition yes rest bound params'', f = .ifelse → v.sdexs = condition :: yes :: rest →
      nested.check condition (Function.compared toLower v s.data) params = some (true, bound) →
        nested.check yes (Function.compared toLower v s.data) bound = some (false, params'') → bound = params) :
    params' = params := by
  by_cases hf : f ∉ [Function.ifelse, .pattern, .validate, .copy, .format, .split]
  · exact (runFunction_params hf h).2
  simp only [List.mem_cons, List.not_mem_nil, or_false, not_not] at hf
  obtain rfl | rfl | rfl | rfl | rfl | rfl := hf
  · rw [Function.runFunction, Function.runIfelse] at h
    dsimp only at h
    split at h
    next condition yes rest hsdexs =>
      obtain ⟨⟨b, bound⟩, hcondition, h⟩ := Option.bind_eq_some_iff.mp h
      cases b with
      | true =>
        obtain ⟨⟨b, params''⟩, hyes, h⟩ := Option.bind_eq_some_iff.mp h
        cases h
        rw [hn _ _ _ _ hyes]
        exact hleak condition yes rest bound _ rfl hsdexs hcondition hyes
      | false =>
        rw [← hn _ _ _ _ hcondition]
        cases rest with
        | nil =>
          cases h
          rfl
        | cons no rest =>
          obtain ⟨⟨b, params''⟩, hno, h⟩ := Option.bind_eq_some_iff.mp h
          cases h
          exact hn _ _ _ _ hno
    next =>
      cases h
      rfl
  · obtain ⟨⟨b, params''⟩, hcheck, h⟩ := Option.bind_eq_some_iff.mp h
    cases h
    exact checkAny_false hn hcheck
  · rw [Function.runFunction, Function.runValidate] at h
    split at h
    · cases h
      rfl
    · split at h
      · cases h
        rfl
      · obtain ⟨⟨b, params''⟩, hcheck, h⟩ := Option.bind_eq_some_iff.mp h
        cases h
        exact checkAny_false hn hcheck
  · cases h
  · rw [Function.runFunction, Function.runFormat] at h
    split at h
    · cases h
    · split_ifs at h
      obtain ⟨r, -, h⟩ := Option.bind_eq_some_iff.mp h
      cases h
  · rw [Function.runFunction, Function.runSplit] at h
    split at h
    next part1 part2 rest hsdexs =>
      obtain ⟨halves, -, h⟩ := Option.bind_eq_some_iff.mp h
      cases halves with
      | none =>
        cases h
        rfl
      | some halves =>
        obtain ⟨⟨b, params1⟩, -, h⟩ := Option.bind_eq_some_iff.mp h
        cases b with
        | false =>
          cases h
          rfl
        | true =>
          obtain ⟨⟨b, params2⟩, -, h⟩ := Option.bind_eq_some_iff.mp h
          cases b <;> cases h
          rfl
    next =>
      cases h
      rfl

variable (toLower)

theorem guarded_eq_check (nested : Nested α) {t : Tag} (hnot : hasFlag t.getOps OP_NOT = false)
    (hifelse : t.function ≠ some .ifelse) : guarded toLower nested t = t.check toLower nested := by
  funext v s params
  apply if_neg
  rw [Leaks, hnot, not_or]
  exact ⟨fun h => Bool.noConfusion h.1, fun h => hifelse h.1⟩

theorem guarded_extends_check (nested : Nested α) : Extends (guarded toLower nested) (Tag.check toLower nested) := by
  intro t v s params r h
  rw [guarded] at h
  split at h
  · cases h
  · exact h

/-- Where nothing leaks there is nothing to be put back. -/
theorem guarded_extends_rollback (hn : nested.Restores) :
    Extends (guarded toLower nested) (rollback toLower nested) := by
  intro t v s params r h
  rw [guarded] at h
  split at h
  · cases h
  · next hleak =>
    obtain ⟨b, s', params'⟩ := r
    rw [Leaks, not_or] at hleak
    rw [rollback, h]
    simp only [Option.bind_eq_bind, Option.bind_some]
    split_ifs with hkeep
    · rfl
    · have hsame : params' = params := by
        cases b with
        | true =>
          by_contra hne
          exact hleak.1 ⟨by simpa using hkeep, s', params', h, hne⟩
        | false =>
          rw [Tag.check] at h
          cases hf : t.function with
          | none =>
            rw [hf] at h
            cases h
            rfl
          | some f =>
            rw [hf] at h
            refine runFunction_false hn h fun condition yes rest bound params'' hif hsdexs hcondition hyes => ?_
            by_contra hne
            exact hleak.2 ⟨by rw [hf, hif], condition, yes, rest, hsdexs, bound, params'', hcondition, hne, hyes⟩
      rw [hsame]
      rfl

theorem rollback_extends {n m : Nested α} (h : n.Extends m) : Extends (rollback toLower n) (rollback toLower m) :=
  fun t v s params => .bind (tagCheck_extends h t v s params) fun _ _ => Le.refl _

theorem Extends.trans {f g h : Tag → Value α → SdExString → ParamMap → Outcome} (hfg : Extends f g)
    (hgh : Extends g h) : Extends f h := fun t v s params => (hfg t v s params).trans (hgh t v s params)

theorem guarded_extends_base (n : Nat) : (SdEx.guarded toLower n).Extends (SdEx.base toLower n) := by
  induction n with
  | zero => exact ⟨(nomatch ·), (nomatch ·)⟩
  | succ n ih => exact overloads_extends ((guarded_extends_check toLower _).trans (tagCheck_extends ih))

theorem guarded_extends_transactional (n : Nat) :
    (SdEx.guarded toLower n).Extends (SdEx.transactional toLower n) := by
  induction n with
  | zero => exact ⟨(nomatch ·), (nomatch ·)⟩
  | succ n ih =>
    exact overloads_extends ((guarded_extends_rollback toLower (baseWith_restores toLower _ n)).trans
      (rollback_extends toLower ih))

end

section

/-- The parameters differ at most at these names. -/
def Frames (names : Bytes → Prop) (params params' : ParamMap) : Prop := ∀ name, ¬names name → params' name = params name

variable {names : Bytes → Prop} {params params' params'' : ParamMap}

theorem Frames.refl (names : Bytes → Prop) (params : ParamMap) : Frames names params params := fun _ _ => rfl

theorem Frames.trans (h : Frames names params params') (h' : Frames names params' params'') :
    Frames names params params'' := fun name hname => (h' name hname).trans (h name hname)

theorem frames_update {name : Bytes} (hname : names name) (params : ParamMap) (p : Option Param) :
    Frames names params (Function.update params name p) := by
  intro other hother
  apply Function.update_of_ne
  rintro rfl
  exact hother hname

variable {α : Type} {toLower : Bytes → Bytes} {nested : Nested α}

/-- Checking one of the values sets no other parameters. -/
def TagFrames (names : Bytes → Prop) (toLower : Bytes → Bytes) (nested : Nested α) (x : Tag × List (Value α)) : Prop :=
  ∀ v ∈ x.2, ∀ s params r, x.1.check toLower nested v s params = some r → Frames names params r.2.2

theorem checkTags_frames {tags : List (Tag × List (Value α))} (h : ∀ x ∈ tags, TagFrames names toLower nested x)
    {s : SdExString} {r : Bool × SdExString × ParamMap}
    (hr : checkTags (Tag.check toLower nested) tags s params = some r) : Frames names params r.2.2 :=
  checkTags_rel (R := fun _ params r => Frames names params r.2.2) (fun _ _ params => .refl names params)
    (fun _ _ _ _ _ _ => .trans) h hr

/-- The part and its tags set no other parameters. -/
def PartFrames (names : Bytes → Prop) (toLower : Bytes → Bytes) (nested : Nested α) (pi : Part α) : Prop :=
  pi.param = true → (pi.text ≠ [] → names pi.text) ∧ ∀ x ∈ pi.tags, TagFrames names toLower nested x

theorem checkRun_frames {line : Bytes} {keep : Bool} {dend : Nat} {run : List (Part α)}
    (h : ∀ pi ∈ run, pi.param = true ∧ PartFrames names toLower nested pi) {tmpbegin : Nat} {m : Matching}
    {r : Bool × Matching} (hr : checkRun (Tag.check toLower nested) line keep dend run tmpbegin m = some r) :
    Frames names m.tmpParams r.2.tmpParams := by
  induction run generalizing tmpbegin m with
  | nil =>
    cases hr
    exact fun _ _ => rfl
  | cons cur run ih =>
    have hrest : ∀ pi ∈ run, pi.param = true ∧ PartFrames names toLower nested pi := fun pi hpi =>
      h pi (List.mem_cons_of_mem _ hpi)
    obtain ⟨hparam, hcur⟩ := h cur List.mem_cons_self
    rw [checkRun] at hr
    obtain ⟨⟨b, s', params'⟩, htags, hr⟩ := Option.bind_eq_some_iff.mp hr
    have hframes := checkTags_frames (hcur hparam).2 htags
    cases b with
    | false =>
      cases hr
      exact hframes
    | true =>
      simp only [Bool.not_true, Bool.false_eq_true, if_false, Option.ite_none_left_eq_some] at hr
      refine (hframes.trans ?_).trans (ih hrest hr.2)
      dsimp only
      split_ifs with hset
      · simp only [Bool.and_eq_true, decide_eq_true_eq] at hset
        have hname : s'.name = cur.text := (checkTags_keeps htags).name
        rw [ParamMap.set, hname]
        exact frames_update ((hcur hparam).1 (hname ▸ hset.2)) _ _
      · exact fun _ _ => rfl

theorem checkParts_frames {line : Bytes} {keep : Bool} {parts run : List (Part α)}
    (h : ∀ pi ∈ parts, PartFrames names toLower nested pi)
    (hrun : ∀ pi ∈ run, pi.param = true ∧ PartFrames names toLower nested pi) {m : Matching} {r : Bool × Matching}
    (hr : checkParts toLower (Tag.check toLower nested) line keep parts run m = some r) :
    Frames names m.tmpParams r.2.tmpParams := by
  induction parts generalizing run m with
  | nil =>
    cases run with
    | nil =>
      cases hr
      exact fun _ _ => rfl
    | cons cur run =>
      rw [checkParts] at hr
      split at hr
      · cases hr
        exact fun _ _ => rfl
      · split at hr
        · cases hr
          exact fun _ _ => rfl
        · exact (checkRun_frames hrun hr :)
  | cons pi parts ih =>
    have hrest : ∀ pi ∈ parts, PartFrames names toLower nested pi := fun pi hpi => h pi (List.mem_cons_of_mem _ hpi)
    have hnil : ∀ pi ∈ ([] : List (Part α)), pi.param = true ∧ PartFrames names toLower nested pi :=
      fun _ hpi => absurd hpi List.not_mem_nil
    have hparam (hpi : pi.param = true) : ∀ qi ∈ run ++ [pi], qi.param = true ∧ PartFrames names toLower nested qi := by
      intro qi hqi
      rw [List.mem_append, List.mem_singleton] at hqi
      obtain hqi | rfl := hqi
      · exact hrun qi hqi
      · exact ⟨hpi, h _ List.mem_cons_self⟩
    cases run with
    | nil =>
      rw [checkParts] at hr
      split at hr
      next hpi => exact (ih hrest (hparam hpi) hr :)
      next =>
        split at hr
        · cases hr
          exact fun _ _ => rfl
        · split at hr
          · cases hr
          · exact (ih hrest hnil hr :)
    | cons cur run =>
      rw [checkParts] at hr
      split at hr
      next hpi => exact (ih hrest (hparam hpi) hr :)
      next =>
        split at hr
        · cases hr
          exact fun _ _ => rfl
        · split at hr
          · cases hr
            exact fun _ _ => rfl
          · dsimp only at hr
            split at hr
            · cases hr
            · obtain ⟨⟨b, m'⟩, hcheck, hr⟩ := Option.bind_eq_some_iff.mp hr
              refine (checkRun_frames hrun hcheck :).trans ?_
              cases b with
              | false =>
                cases hr
                exact fun _ _ => rfl
              | true => exact (ih hrest hnil hr :)

theorem check_frames {parts : List (Part α)} (h : ∀ pi ∈ parts, PartFrames names toLower nested pi) {line : Bytes} {b : Bool}
    {pieces : List SdExString} {r : Option ParamMap}
    (hr : check toLower (Tag.check toLower nested) parts line (some params) = some (b, pieces, r)) :
    Frames names params (r.getD fun _ => none) := by
  obtain ⟨⟨b, m⟩, hparts, hr⟩ := Option.bind_eq_some_iff.mp hr
  have hframes := checkParts_frames h (fun _ hpi => absurd hpi List.not_mem_nil) hparts
  cases b with
  | false =>
    cases hr
    exact fun _ _ => rfl
  | true =>
    cases hr
    exact hframes

theorem formatLoop_frames {parts : List (Part α)} (h : ∀ pi ∈ parts, PartFrames names toLower nested pi) {i j : Bool}
    {sdstrings : List SdExString} {r : Bool × List SdExString × ParamMap}
    (hr : formatLoop (Tag.check toLower nested) i j false parts sdstrings params = some r) : Frames names params r.2.2 := by
  induction parts generalizing sdstrings params with
  | nil =>
    cases hr
    exact fun _ _ => rfl
  | cons pi parts ih =>
    have hrest : ∀ pi ∈ parts, PartFrames names toLower nested pi := fun pi hpi => h pi (List.mem_cons_of_mem _ hpi)
    rw [formatLoop] at hr
    split at hr
    · exact ih hrest hr
    next hparam =>
      split at hr
      · cases hr
        exact fun _ _ => rfl
      · obtain ⟨⟨b, s', params'⟩, htags, hr⟩ := Option.bind_eq_some_iff.mp hr
        have hframes := checkTags_frames (h pi List.mem_cons_self (by simpa using hparam)).2 htags
        have hsame : Frames names params params' := by
          refine Frames.trans ?_ hframes
          cases if pi.text = [] then none else params pi.text <;> exact fun _ _ => rfl
        refine hsame.trans ?_
        dsimp only at hr
        split at hr
        · cases hr
          exact fun _ _ => rfl
        · exact ih hrest hr

theorem format_frames {parts : List (Part α)} (h : ∀ pi ∈ parts, PartFrames names toLower nested pi) {i j b : Bool}
    {sdstrings : List SdExString} (hr : format (Tag.check toLower nested) parts params i j false = some (b, sdstrings, params')) :
    Frames names params params' := by
  obtain ⟨⟨b, pieces, tmpParams⟩, hloop, hr⟩ := Option.bind_eq_some_iff.mp hr
  have hframes := formatLoop_frames h hloop
  cases b with
  | false =>
    cases hr
    exact fun _ _ => rfl
  | true =>
    cases hr
    exact hframes

/-- The patterns set no other parameters. -/
def NestedFrames (names : Bytes → Prop) (nested : Nested α) (sdexs : List α) : Prop :=
  ∀ e ∈ sdexs,
    (∀ d params b params', nested.check e d params = some (b, params') → Frames names params params') ∧
    ∀ params d params', nested.format e params = some (d, params') → Frames names params params'

theorem checkAny_frames {sdexs : List α} (h : NestedFrames names nested sdexs) {d : Bytes} {b : Bool}
    (hr : Function.checkAny nested d sdexs params = some (b, params')) : Frames names params params' := by
  induction sdexs generalizing params with
  | nil =>
    cases hr
    exact fun _ _ => rfl
  | cons psi sdexs ih =>
    rw [Function.checkAny] at hr
    obtain ⟨⟨b', params''⟩, hcheck, hr⟩ := Option.bind_eq_some_iff.mp hr
    refine Frames.trans ((h psi List.mem_cons_self).1 _ _ _ _ hcheck) ?_
    cases b' with
    | true =>
      cases hr
      exact fun _ _ => rfl
    | false => exact ih (fun e he => h e (List.mem_cons_of_mem _ he)) hr

theorem runFunction_frames {f : Function} {v : Value α} (h : NestedFrames names nested v.sdexs)
    (hcopy : f = .copy → ∀ si ∈ v.strings, si ≠ [] → names si) {s : SdExString} {r : Bool × SdExString × ParamMap}
    (hr : f.runFunction toLower nested v s params = some r) : Frames names params r.2.2 := by
  by_cases hf : f ∉ [Function.ifelse, .pattern, .validate, .copy, .format, .split]
  · rw [(runFunction_params hf hr).2]
    exact fun _ _ => rfl
  simp only [List.mem_cons, List.not_mem_nil, or_false, not_not] at hf
  obtain rfl | rfl | rfl | rfl | rfl | rfl := hf
  · rw [Function.runFunction, Function.runIfelse] at hr
    dsimp only at hr
    split at hr
    next condition yes rest hsdexs =>
      rw [hsdexs] at h
      obtain ⟨⟨b, bound⟩, hcondition, hr⟩ := Option.bind_eq_some_iff.mp hr
      have hbound := (h condition List.mem_cons_self).1 _ _ _ _ hcondition
      cases b with
      | true =>
        obtain ⟨⟨b, params''⟩, hyes, hr⟩ := Option.bind_eq_some_iff.mp hr
        cases hr
        exact hbound.trans ((h yes (List.mem_cons_of_mem _ List.mem_cons_self)).1 _ _ _ _ hyes)
      | false =>
        cases rest with
        | nil =>
          cases hr
          exact hbound
        | cons no rest =>
          obtain ⟨⟨b, params''⟩, hno, hr⟩ := Option.bind_eq_some_iff.mp hr
          cases hr
          have hmem : no ∈ condition :: yes :: no :: rest := by simp
          exact hbound.trans ((h no hmem).1 _ _ _ _ hno)
    next =>
      cases hr
      exact fun _ _ => rfl
  · obtain ⟨⟨b, params''⟩, hcheck, hr⟩ := Option.bind_eq_some_iff.mp hr
    cases hr
    exact checkAny_frames h hcheck
  · rw [Function.runFunction, Function.runValidate] at hr
    split at hr
    · cases hr
      exact fun _ _ => rfl
    · split at hr
      · cases hr
        exact fun _ _ => rfl
      · obtain ⟨⟨b, params''⟩, hcheck, hr⟩ := Option.bind_eq_some_iff.mp hr
        cases hr
        exact checkAny_frames h hcheck
  · cases hr
    have hnames := hcopy rfl
    dsimp only
    generalize v.strings = strings at hnames
    induction strings generalizing params with
    | nil => exact fun _ _ => rfl
    | cons si strings ih =>
      rw [List.foldl_cons]
      refine Frames.trans ?_ (ih fun si hsi => hnames si (List.mem_cons_of_mem _ hsi))
      split_ifs with hsi
      · exact fun _ _ => rfl
      · exact frames_update (hnames si List.mem_cons_self hsi) _ _
  · rw [Function.runFunction, Function.runFormat] at hr
    split at hr
    · cases hr
      exact fun _ _ => rfl
    next fmt rest hsdexs =>
      rw [hsdexs] at h
      split_ifs at hr
      obtain ⟨⟨d, params''⟩, hformat, hr⟩ := Option.bind_eq_some_iff.mp hr
      cases hr
      exact (h fmt List.mem_cons_self).2 _ _ _ hformat
  · rw [Function.runFunction, Function.runSplit] at hr
    split at hr
    next part1 part2 rest hsdexs =>
      rw [hsdexs] at h
      obtain ⟨halves, -, hr⟩ := Option.bind_eq_some_iff.mp hr
      cases halves with
      | none =>
        cases hr
        exact fun _ _ => rfl
      | some halves =>
        obtain ⟨⟨b, params1⟩, hpart1, hr⟩ := Option.bind_eq_some_iff.mp hr
        have hframes1 := (h part1 List.mem_cons_self).1 _ _ _ _ hpart1
        cases b with
        | false =>
          cases hr
          exact fun _ _ => rfl
        | true =>
          obtain ⟨⟨b, params2⟩, hpart2, hr⟩ := Option.bind_eq_some_iff.mp hr
          have hframes2 := (h part2 (List.mem_cons_of_mem _ List.mem_cons_self)).1 _ _ _ _ hpart2
          cases b with
          | false =>
            cases hr
            exact fun _ _ => rfl
          | true =>
            cases hr
            exact hframes1.trans hframes2
    next =>
      cases hr
      exact fun _ _ => rfl

theorem tagFrames_check {x : Tag × List (Value α)} (h : ∀ v ∈ x.2, NestedFrames names nested v.sdexs)
    (hcopy : x.1.function = some .copy → ∀ v ∈ x.2, ∀ si ∈ v.strings, si ≠ [] → names si) :
    TagFrames names toLower nested x := by
  intro v hv s params r hr
  rw [Tag.check] at hr
  cases hf : x.1.function with
  | none =>
    rw [hf] at hr
    cases hr
    exact fun _ _ => rfl
  | some f =>
    rw [hf] at hr
    exact runFunction_frames (h v hv) (fun hcp => hcopy (by rw [hf, hcp]) v hv) hr

end

/-- The names that a pattern's parts and tags bind, or those of the patterns in its values. -/
def SdEx.Binds : (n : Nat) → SdEx n → Bytes → Prop
  | 0, _, _ => False
  | n + 1, e, name =>
    ∃ pi ∈ SdEx.parts e, pi.param = true ∧ (pi.text = name ∨ ∃ x ∈ pi.tags, ∃ v ∈ x.2,
      (x.1.function = some .copy ∧ name ∈ v.strings) ∨ ∃ e ∈ v.sdexs, SdEx.Binds n e name)

theorem partFrames (toLower : Bytes → Bytes) (n : Nat) (e : SdEx (n + 1)) :
    ∀ pi ∈ e.parts, PartFrames (SdEx.Binds (n + 1) e) toLower (SdEx.base toLower n) pi := by
  have hmono {names names' : Bytes → Prop} (hle : ∀ name, names name → names' name) {params params' : ParamMap}
      (h : Frames names params params') : Frames names' params params' := fun name hname =>
    h name fun hn => hname (hle name hn)
  induction n with
  | zero =>
    intro pi hpi hparam
    refine ⟨fun _ => ⟨pi, hpi, hparam, Or.inl rfl⟩, fun x hx => tagFrames_check (fun _ _ e => nomatch e) ?_⟩
    exact fun hcopy v hv si hsi _ => ⟨pi, hpi, hparam, Or.inr ⟨x, hx, v, hv, Or.inl ⟨hcopy, hsi⟩⟩⟩
  | succ n ih =>
    intro pi hpi hparam
    refine ⟨fun _ => ⟨pi, hpi, hparam, Or.inl rfl⟩, fun x hx => tagFrames_check (fun v hv e' he' => ?_) ?_⟩
    · have hle : ∀ name, SdEx.Binds (n + 1) e' name → SdEx.Binds (n + 2) e name := fun name hname =>
        ⟨pi, hpi, hparam, Or.inr ⟨x, hx, v, hv, Or.inr ⟨e', he', hname⟩⟩⟩
      constructor
      · intro d params b params' h
        obtain ⟨⟨b, pieces, params''⟩, hcheck, hr⟩ := Option.bind_eq_some_iff.mp h
        cases hr
        exact hmono hle (check_frames (ih e') hcheck)
      · intro params d params' h
        obtain ⟨⟨b, pieces, params''⟩, hformat, hr⟩ := Option.bind_eq_some_iff.mp h
        cases hr
        exact hmono hle (format_frames (ih e') hformat)
    · exact fun hcopy v hv si hsi _ => ⟨pi, hpi, hparam, Or.inr ⟨x, hx, v, hv, Or.inl ⟨hcopy, hsi⟩⟩⟩

/-- When `check` fails the parameters are as before. When it matches they differ at most at names that the pattern
binds; and where nothing leaks its pieces and the parameters after it are those of the matcher that puts the parameters
back wherever something fails. -/
theorem check_captures (toLower : Bytes → Bytes) {n : Nat} (e : SdEx (n + 1)) (line : Bytes) (params : ParamMap) :
    (∀ pieces params', check toLower (Tag.check toLower (SdEx.base toLower n)) e line (some params) =
      some (false, pieces, params') → params' = some params) ∧
    (∀ pieces params', check toLower (Tag.check toLower (SdEx.base toLower n)) e line (some params) =
      some (true, pieces, some params') → Frames (SdEx.Binds (n + 1) e) params params') ∧
    (LeakFree toLower e line params →
      check toLower (Tag.check toLower (SdEx.base toLower n)) e line (some params) =
        check toLower (rollback toLower (SdEx.transactional toLower n)) e line (some params)) := by
  refine ⟨fun pieces params' h => check_false h, fun pieces params' h => ?_, fun h => ?_⟩
  · exact check_frames (partFrames toLower n e) h
  · obtain ⟨r, hr⟩ := Option.isSome_iff_exists.mp h
    have hcheck := (guarded_extends_check toLower _).trans (tagCheck_extends (guarded_extends_base toLower n))
    have hrollback := (guarded_extends_rollback toLower (baseWith_restores toLower _ n)).trans
      (rollback_extends toLower (guarded_extends_transactional toLower n))
    rw [check_le hcheck _ _ _ _ hr, check_le hrollback _ _ _ _ hr]

def taggedParam {α : Type} (name : Bytes) (f : Function) (values : List (List α)) : Part α :=
  { (Part.ofParam name false : Part α) with
    tags := [(⟨some f, 0⟩, values.map fun sdexs => ⟨[], [], [], sdexs, f.components⟩)] }

/-- `%[x{p=%[a]b}]` -/
def nestedPattern : SdEx 2 := [taggedParam (str "x") .pattern [[[.ofParam (str "a") false, .ofText (str "b") false]]]]

/-- `%[x{if=%[a],zzz;%[b],%[b]}]` -/
def chosenPattern : SdEx 2 :=
  [taggedParam (str "x") .ifelse
    [[[.ofParam (str "a") false], [.ofText (str "zzz") false]],
      [[.ofParam (str "b") false], [.ofParam (str "b") false]]]]

theorem check_captures_nestedPattern :
    check id (Tag.check id (SdEx.base id 1)) nestedPattern (str "1b") (some fun _ => none) =
      check id (rollback id (SdEx.transactional id 1)) nestedPattern (str "1b") (some fun _ => none) := by
  refine (check_captures id nestedPattern (str "1b") fun _ => none).2.2 ?_
  have hplain : guarded id (SdEx.guarded id 1) = fun t =>
      if hasFlag t.getOps OP_NOT = false ∧ t.function ≠ some .ifelse then t.check id (SdEx.guarded id 1)
      else guarded id (SdEx.guarded id 1) t := by
    funext t
    split_ifs with h
    · exact guarded_eq_check id _ h.1 h.2
    · rfl
  rw [LeakFree, hplain]
  rfl

/-- The condition of the first value has matched, what it chooses has not, and the second value matches. -/
theorem not_check_captures :
    ¬∀ (e : SdEx 2) (line : Bytes) (params : ParamMap),
      check id (Tag.check id (SdEx.base id 1)) e line (some params) =
        check id (rollback id (SdEx.transactional id 1)) e line (some params) := by
  intro h
  have hbound := congrArg
    (Option.map fun r : Bool × List SdExString × Option ParamMap => r.2.2.map fun params => (params (str "a")).isSome)
    (h chosenPattern (str "hello") fun _ => none)
  revert hbound
  decide

end Dcpp.SdExFull
