import Dcpp.SdExFull

-- The operators of the tags.
namespace Dcpp.SdExFull

/-- The operators that a tag has for its values. -/
inductive Operator
  | and
  | or
  | xor
  | xnor

def operator (ops : Nat) : Operator :=
  if hasFlag ops OP_AND then .and
  else if hasFlag ops OP_OR then .or
  else if hasFlag ops OP_XOR then .xor
  else if hasFlag ops OP_XNOR then .xnor
  else .or

/-- What an operator asks of the values: all of them, any, only one, or either all or none. -/
def Operator.Accepts : Operator → List Bool → Prop
  | .and, bs => ∀ b ∈ bs, b = true
  | .or, bs => ∃ b ∈ bs, b = true
  | .xor, bs => bs.count true = 1
  | .xnor, bs => (∀ b ∈ bs, b = true) ∨ ∀ b ∈ bs, b = false

instance (o : Operator) (bs : List Bool) : Decidable (o.Accepts bs) := by
  cases o <;> rw [Operator.Accepts] <;> infer_instance

/-- NOT inverts true and false. -/
def inverted (ops : Nat) (b : Bool) : Bool := if hasFlag ops OP_NOT then !b else b

section

variable {α : Type} {tagCheck : Tag → Value α → SdExString → ParamMap → Outcome} {t : Tag} {s : SdExString}
  {params : ParamMap} {truth : Value α → Bool} {values : List (Value α)}

/-- The tag has the truth values on the string and has no side effects there. -/
def Reads (tagCheck : Tag → Value α → SdExString → ParamMap → Outcome) (t : Tag) (s : SdExString) (params : ParamMap)
    (truth : Value α → Bool) (values : List (Value α)) : Prop :=
  ∀ v ∈ values, tagCheck t v s params = some (truth v, s, params)

/-- One round of the loop. -/
theorem valuesLoop_cons {v : Value α} {b : Bool} {s' : SdExString} {params' : ParamMap}
    (h : tagCheck t v s params = some (b, s', params')) (valid : Bool) (prev : Int) :
    valuesLoop tagCheck t (v :: values) valid prev s params =
      match operator t.getOps, inverted t.getOps b with
      | .and, true => valuesLoop tagCheck t values true prev s' params'
      | .and, false => some (false, s', params')
      | .or, true => some (true, s', params')
      | .or, false => valuesLoop tagCheck t values false prev s' params'
      | .xor, true =>
        if prev = 1 then some (false, s', params') else valuesLoop tagCheck t values true 1 s' params'
      | .xor, false => valuesLoop tagCheck t values false prev s' params'
      | .xnor, b =>
        if prev ≠ -1 ∧ prev ≠ b.toInt then some (false, s', params')
        else valuesLoop tagCheck t values b b.toInt s' params' := by
  rw [valuesLoop, h]
  simp only [Option.bind_eq_bind, Option.bind_some]
  rw [operator, inverted]
  generalize (if hasFlag t.getOps OP_NOT = true then !b else b) = c
  cases hasFlag t.getOps OP_AND with
  | true => cases c <;> rfl
  | false =>
    cases hasFlag t.getOps OP_OR with
    | true => cases c <;> rfl
    | false =>
      cases hasFlag t.getOps OP_XOR with
      | true => cases c <;> simp [pure]
      | false =>
        cases hasFlag t.getOps OP_XNOR with
        | true => simp [pure]
        | false => cases c <;> rfl

/-- What every check of a value keeps, and goes on along, the checks of all values do. -/
theorem valuesLoop_rel {R : SdExString → ParamMap → Bool × SdExString × ParamMap → Prop}
    (hrefl : ∀ b s params, R s params (b, s, params))
    (htrans : ∀ s params b s' params' r, R s params (b, s', params') → R s' params' r → R s params r)
    (h : ∀ v ∈ values, ∀ s params r, tagCheck t v s params = some r → R s params r) {valid : Bool} {prev : Int}
    {r : Bool × SdExString × ParamMap} (hr : valuesLoop tagCheck t values valid prev s params = some r) :
    R s params r := by
  induction values generalizing valid prev s params with
  | nil =>
    cases hr
    exact hrefl ..
  | cons v values ih =>
    have hrest : ∀ v ∈ values, ∀ s params r, tagCheck t v s params = some r → R s params r := fun v hv =>
      h v (List.mem_cons_of_mem _ hv)
    cases hv : tagCheck t v s params with
    | none =>
      rw [valuesLoop, hv] at hr
      cases hr
    | some r' =>
      obtain ⟨b, s', params'⟩ := r'
      rw [valuesLoop_cons hv] at hr
      refine htrans _ _ _ _ _ _ (h v List.mem_cons_self s params _ hv) ?_
      split at hr
      · exact ih hrest hr
      · cases hr
        exact hrefl ..
      · cases hr
        exact hrefl ..
      · exact ih hrest hr
      · split at hr
        · cases hr
          exact hrefl ..
        · exact ih hrest hr
      · exact ih hrest hr
      · split at hr
        · cases hr
          exact hrefl ..
        · exact ih hrest hr

theorem checkTags_rel {R : SdExString → ParamMap → Bool × SdExString × ParamMap → Prop}
    (hrefl : ∀ b s params, R s params (b, s, params))
    (htrans : ∀ s params b s' params' r, R s params (b, s', params') → R s' params' r → R s params r)
    {tags : List (Tag × List (Value α))}
    (h : ∀ x ∈ tags, ∀ v ∈ x.2, ∀ s params r, tagCheck x.1 v s params = some r → R s params r)
    {r : Bool × SdExString × ParamMap} (hr : checkTags tagCheck tags s params = some r) : R s params r := by
  induction tags generalizing s params with
  | nil =>
    cases hr
    exact hrefl ..
  | cons x tags ih =>
    have hrest : ∀ x ∈ tags, ∀ v ∈ x.2, ∀ s params r, tagCheck x.1 v s params = some r → R s params r := fun x hx =>
      h x (List.mem_cons_of_mem _ hx)
    obtain ⟨t, values⟩ := x
    rw [checkTags] at hr
    split at hr
    · exact ih hrest hr
    · obtain ⟨⟨b, s', params'⟩, hvalues, hr⟩ := Option.bind_eq_some_iff.mp hr
      refine htrans _ _ _ _ _ _ (valuesLoop_rel hrefl htrans (h _ List.mem_cons_self) hvalues) ?_
      cases b with
      | false =>
        cases hr
        exact hrefl ..
      | true => exact ih hrest hr

/-- A string keeps its name and being a parameter; its position moves on. -/
structure Keeps (s s' : SdExString) : Prop where
  name : s'.name = s.name
  param : s'.param = s.param
  ipos : s.ipos ≤ s'.ipos

theorem Keeps.refl (s : SdExString) : Keeps s s := ⟨rfl, rfl, Nat.le_refl _⟩

theorem Keeps.trans {s s' s'' : SdExString} (h : Keeps s s') (h' : Keeps s' s'') : Keeps s s'' :=
  ⟨h'.name.trans h.name, h'.param.trans h.param, h.ipos.trans h'.ipos⟩

theorem keeps_data (s : SdExString) (data : Bytes) : Keeps s { s with data } := ⟨rfl, rfl, Nat.le_refl _⟩

theorem keeps_cut (s : SdExString) (addPos newLength : Nat) : Keeps s (s.cut addPos newLength) :=
  ⟨rfl, rfl, Nat.le_add_right _ _⟩

/-- Most functions leave the parameters. -/
theorem runFunction_params {toLower : Bytes → Bytes} {nested : Nested α} {f : Function}
    (hf : f ∉ [Function.ifelse, .pattern, .validate, .copy, .format, .split]) {v : Value α}
    {r : Bool × SdExString × ParamMap} (hr : f.runFunction toLower nested v s params = some r) :
    Keeps s r.2.1 ∧ r.2.2 = params := by
  cases f with
  | consists | contains | data | find =>
    cases hr
    exact ⟨.refl s, rfl⟩
  | replace =>
    cases hr
    exact ⟨keeps_data s _, rfl⟩
  | length =>
    rw [Function.runFunction, Function.runLength] at hr
    dsimp only at hr
    split at hr
    · cases hr
      exact ⟨.refl s, rfl⟩
    · split_ifs at hr
      all_goals
        cases hr
        exact ⟨.refl s, rfl⟩
  | number32 =>
    rw [Function.runFunction, Function.runNumber32] at hr
    split at hr
    all_goals
      cases hr
      exact ⟨.refl s, rfl⟩
  | number64 =>
    rw [Function.runFunction, Function.runNumber64] at hr
    split at hr
    all_goals
      cases hr
      exact ⟨.refl s, rfl⟩
  | append | insert =>
    change Function.runInsert v s params = some r at hr
    rw [Function.runInsert] at hr
    dsimp only at hr
    split at hr
    · cases hr
      exact ⟨.refl s, rfl⟩
    · split_ifs at hr
      cases hr
      exact ⟨keeps_data s _, rfl⟩
  | deletedata | strip =>
    obtain ⟨d, -, hr⟩ := Option.bind_eq_some_iff.mp hr
    cases hr
    exact ⟨keeps_data s _, rfl⟩
  | delimit =>
    rw [Function.runFunction, Function.runDelimit] at hr
    split at hr
    · cases hr
      exact ⟨.refl s, rfl⟩
    · split at hr
      · cases hr
        exact ⟨.refl s, rfl⟩
      · obtain ⟨e, -, hr⟩ := Option.bind_eq_some_iff.mp hr
        dsimp only at hr
        split at hr
        · cases hr
          exact ⟨.refl s, rfl⟩
        · split_ifs at hr
          · cases hr
            exact ⟨keeps_cut s _ _, rfl⟩
          all_goals
            first
            | cases hr
              exact ⟨keeps_cut s _ _, rfl⟩
            | cases hr
              exact ⟨.refl s, rfl⟩
  | resize =>
    rw [Function.runFunction, Function.runResize] at hr
    dsimp only at hr
    split_ifs at hr
    cases hr
    exact ⟨keeps_data s _, rfl⟩
  | _ => exact absurd (by decide) hf

theorem runFunction_keeps {toLower : Bytes → Bytes} {nested : Nested α} {f : Function} {v : Value α}
    {r : Bool × SdExString × ParamMap} (hr : f.runFunction toLower nested v s params = some r) : Keeps s r.2.1 := by
  by_cases hf : f ∉ [Function.ifelse, .pattern, .validate, .copy, .format, .split]
  · exact (runFunction_params hf hr).1
  simp only [List.mem_cons, List.not_mem_nil, or_false, not_not] at hf
  obtain rfl | rfl | rfl | rfl | rfl | rfl := hf
  · rw [Function.runFunction, Function.runIfelse] at hr
    dsimp only at hr
    split at hr
    next condition yes rest hsdexs =>
      obtain ⟨⟨b, bound⟩, -, hr⟩ := Option.bind_eq_some_iff.mp hr
      cases b with
      | true =>
        obtain ⟨_, -, hr⟩ := Option.bind_eq_some_iff.mp hr
        cases hr
        exact .refl s
      | false =>
        cases rest with
        | nil =>
          cases hr
          exact .refl s
        | cons no rest =>
          obtain ⟨_, -, hr⟩ := Option.bind_eq_some_iff.mp hr
          cases hr
          exact .refl s
    next =>
      cases hr
      exact .refl s
  · obtain ⟨_, -, hr⟩ := Option.bind_eq_some_iff.mp hr
    cases hr
    exact .refl s
  · rw [Function.runFunction, Function.runValidate] at hr
    split at hr
    · cases hr
      exact .refl s
    · split at hr
      · cases hr
        exact .refl s
      · obtain ⟨_, -, hr⟩ := Option.bind_eq_some_iff.mp hr
        cases hr
        exact .refl s
  · cases hr
    exact .refl s
  · rw [Function.runFunction, Function.runFormat] at hr
    split at hr
    · cases hr
      exact .refl s
    · split_ifs at hr
      obtain ⟨_, -, hr⟩ := Option.bind_eq_some_iff.mp hr
      cases hr
      exact keeps_data s _
  · rw [Function.runFunction, Function.runSplit] at hr
    split at hr
    next part1 part2 rest hsdexs =>
      obtain ⟨halves, -, hr⟩ := Option.bind_eq_some_iff.mp hr
      cases halves with
      | none =>
        cases hr
        exact .refl s
      | some halves =>
        obtain ⟨⟨b, params1⟩, -, hr⟩ := Option.bind_eq_some_iff.mp hr
        cases b with
        | false =>
          cases hr
          exact .refl s
        | true =>
          obtain ⟨⟨b, params2⟩, -, hr⟩ := Option.bind_eq_some_iff.mp hr
          cases b <;> cases hr <;> exact .refl s
    next =>
      cases hr
      exact .refl s

theorem tagCheck_keeps {toLower : Bytes → Bytes} {nested : Nested α} {v : Value α} {r : Bool × SdExString × ParamMap}
    (hr : t.check toLower nested v s params = some r) : Keeps s r.2.1 := by
  rw [Tag.check] at hr
  split at hr
  · exact runFunction_keeps hr
  · cases hr
    exact .refl s

theorem checkTags_keeps {toLower : Bytes → Bytes} {nested : Nested α} {tags : List (Tag × List (Value α))}
    {r : Bool × SdExString × ParamMap} (hr : checkTags (Tag.check toLower nested) tags s params = some r) :
    Keeps s r.2.1 :=
  checkTags_rel (R := fun s _ r => Keeps s r.2.1) (fun _ s _ => .refl s) (fun _ _ _ _ _ _ => .trans)
    (fun _ _ _ _ _ _ _ hr => tagCheck_keeps hr) hr

/-- The conditions without patterns in their values have no side effects. -/
theorem runFunction_condition (toLower : Bytes → Bytes) (nested : Nested α) {f : Function}
    (hf : f ∈ [Function.consists, .contains, .data, .find, .length, .number32, .number64]) (v : Value α)
    (s : SdExString) (params : ParamMap) : ∃ b, f.runFunction toLower nested v s params = some (b, s, params) := by
  simp only [List.mem_cons, List.not_mem_nil, or_false] at hf
  obtain rfl | rfl | rfl | rfl | rfl | rfl | rfl := hf
  · exact ⟨_, rfl⟩
  · exact ⟨_, rfl⟩
  · exact ⟨_, rfl⟩
  · exact ⟨_, rfl⟩
  · rw [Function.runFunction, Function.runLength]
    split
    · exact ⟨_, rfl⟩
    · dsimp only
      split_ifs
      all_goals exact ⟨_, rfl⟩
  · rw [Function.runFunction, Function.runNumber32]
    split
    all_goals exact ⟨_, rfl⟩
  · rw [Function.runFunction, Function.runNumber64]
    split
    all_goals exact ⟨_, rfl⟩

theorem reads_and (ho : operator t.getOps = .and) (h : Reads tagCheck t s params truth values) :
    valuesLoop tagCheck t values true (-1) s params =
      some (values.all fun v => inverted t.getOps (truth v), s, params) := by
  induction values with
  | nil => rfl
  | cons v values ih =>
    rw [valuesLoop_cons (h v List.mem_cons_self), ho, List.all_cons]
    cases inverted t.getOps (truth v) with
    | false => rfl
    | true => exact ih fun v hv => h v (List.mem_cons_of_mem _ hv)

theorem reads_or (ho : operator t.getOps = .or) (h : Reads tagCheck t s params truth values) :
    valuesLoop tagCheck t values false (-1) s params =
      some (values.any fun v => inverted t.getOps (truth v), s, params) := by
  induction values with
  | nil => rfl
  | cons v values ih =>
    rw [valuesLoop_cons (h v List.mem_cons_self), ho, List.any_cons]
    cases inverted t.getOps (truth v) with
    | false => exact ih fun v hv => h v (List.mem_cons_of_mem _ hv)
    | true => rfl

/-- With the memory of a valid value no other may be valid, without it one has to be. -/
theorem reads_xor (ho : operator t.getOps = .xor) (h : Reads tagCheck t s params truth values) (valid : Bool) :
    valuesLoop tagCheck t values valid 1 s params =
        some (decide ((values.map fun v => inverted t.getOps (truth v)).count true = 0), s, params) ∧
      valuesLoop tagCheck t values false (-1) s params =
        some (decide ((values.map fun v => inverted t.getOps (truth v)).count true = 1), s, params) := by
  induction values generalizing valid with
  | nil => cases valid <;> exact ⟨rfl, rfl⟩
  | cons v values ih =>
    have ih := ih fun v hv => h v (List.mem_cons_of_mem _ hv)
    rw [valuesLoop_cons (h v List.mem_cons_self), valuesLoop_cons (h v List.mem_cons_self), ho, List.map_cons]
    cases inverted t.getOps (truth v) with
    | false => exact ih false
    | true => exact ⟨by simp, by simpa using (ih true).1⟩

/-- Behind a first value the others have to be as it is. -/
theorem reads_xnor (ho : operator t.getOps = .xnor) (h : Reads tagCheck t s params truth values) (b : Bool) :
    valuesLoop tagCheck t values b b.toInt s params =
      some (values.all fun v => inverted t.getOps (truth v) = b, s, params) := by
  induction values with
  | nil => cases b <;> rfl
  | cons v values ih =>
    have ih := ih fun v hv => h v (List.mem_cons_of_mem _ hv)
    rw [valuesLoop_cons (h v List.mem_cons_self), ho, List.all_cons]
    cases hv : inverted t.getOps (truth v) <;> cases b
    · exact ih
    · rfl
    · rfl
    · exact ih

/-- The loop over the values of a tag is its operator. -/
theorem valuesLoop_eq (hne : values ≠ []) (h : Reads tagCheck t s params truth values) :
    valuesLoop tagCheck t values false (-1) s params =
      some (decide ((operator t.getOps).Accepts (values.map fun v => inverted t.getOps (truth v))), s, params) := by
  obtain ⟨v, values, rfl⟩ := List.exists_cons_of_ne_nil hne
  cases ho : operator t.getOps with
  | and =>
    have hfirst : valuesLoop tagCheck t (v :: values) false (-1) s params =
        valuesLoop tagCheck t (v :: values) true (-1) s params := rfl
    rw [hfirst, reads_and ho h]
    congr 2
    rw [Bool.eq_iff_iff]
    simp [Operator.Accepts]
  | or =>
    rw [reads_or ho h]
    congr 2
    rw [Bool.eq_iff_iff]
    simp [Operator.Accepts]
  | xor => exact (reads_xor ho h false).2
  | xnor =>
    rw [valuesLoop_cons (h v List.mem_cons_self), ho]
    dsimp only
    rw [if_neg (by simp), reads_xnor ho fun w hw => h w (List.mem_cons_of_mem _ hw)]
    congr 2
    rw [Bool.eq_iff_iff]
    cases hv : inverted t.getOps (truth v) <;> simp [Operator.Accepts, hv]

end

/-- A tag alone. -/
theorem checkTags_singleton {α : Type} (tagCheck : Tag → Value α → SdExString → ParamMap → Outcome) (t : Tag)
    {values : List (Value α)} (hne : values ≠ []) (s : SdExString) (params : ParamMap) :
    checkTags tagCheck [(t, values)] s params = valuesLoop tagCheck t values false (-1) s params := by
  rw [checkTags, if_neg hne]
  cases valuesLoop tagCheck t values false (-1) s params with
  | none => rfl
  | some r =>
    obtain ⟨b, s', params'⟩ := r
    cases b <;> rfl

/-- A tag that accepts, and the string and the parameters after it. -/
def accepted {α : Type} (tagCheck : Tag → Value α → SdExString → ParamMap → Outcome) (st : SdExString × ParamMap)
    (x : Tag × List (Value α)) : Option (SdExString × ParamMap) :=
  match checkTags tagCheck [x] st.1 st.2 with
  | some (true, st) => some st
  | _ => none

/-- Several tags accept when each of them does, on what the ones before it leave. -/
theorem checkTags_eq_true_iff {α : Type} (tagCheck : Tag → Value α → SdExString → ParamMap → Outcome)
    (tags : List (Tag × List (Value α))) (s : SdExString) (params : ParamMap) (st : SdExString × ParamMap) :
    checkTags tagCheck tags s params = some (true, st) ↔
      tags.foldlM (accepted tagCheck) (s, params) = some st := by
  induction tags generalizing s params with
  | nil => simp [checkTags]
  | cons x tags ih =>
    obtain ⟨t, values⟩ := x
    rw [List.foldlM_cons, accepted]
    by_cases hne : values = []
    · rw [checkTags, if_pos hne, ih]
      simp [checkTags, hne]
    · rw [checkTags_singleton tagCheck t hne, checkTags, if_neg hne]
      cases valuesLoop tagCheck t values false (-1) s params with
      | none => simp
      | some r =>
        obtain ⟨b, s', params'⟩ := r
        cases b with
        | false => simp
        | true => simpa using ih s' params'

/-- A tag without side effects accepts as its operator says of its values, NOT first inverting each of them. Of several
such tags every one with values has to accept; and so it is with any other tags, each on what the ones before it
leave. -/
theorem checkTags_spec (toLower : Bytes → Bytes) {α : Type} (nested : Nested α) {tags : List (Tag × List (Value α))}
    {s : SdExString} {params : ParamMap} (truth : Tag → Value α → Bool)
    (h : ∀ x ∈ tags, Reads (Tag.check toLower nested) x.1 s params (truth x.1) x.2) :
    (∀ x ∈ tags, x.2 ≠ [] →
      checkTags (Tag.check toLower nested) [x] s params =
        some (decide ((operator x.1.getOps).Accepts (x.2.map fun v => inverted x.1.getOps (truth x.1 v))), s, params)) ∧
    (∃ b, checkTags (Tag.check toLower nested) tags s params = some (b, s, params) ∧
      (b = true ↔
        ∀ x ∈ tags, x.2 ≠ [] → checkTags (Tag.check toLower nested) [x] s params = some (true, s, params))) ∧
    ∀ (tags : List (Tag × List (Value α))) (s : SdExString) (params : ParamMap) (st : SdExString × ParamMap),
      checkTags (Tag.check toLower nested) tags s params = some (true, st) ↔
        tags.foldlM (accepted (Tag.check toLower nested)) (s, params) = some st := by
  have hone : ∀ x ∈ tags, x.2 ≠ [] → checkTags (Tag.check toLower nested) [x] s params =
      some (decide ((operator x.1.getOps).Accepts (x.2.map fun v => inverted x.1.getOps (truth x.1 v))), s, params) := by
    intro x hx hne
    rw [checkTags_singleton _ x.1 hne, valuesLoop_eq hne (h x hx)]
  refine ⟨hone, ?_, checkTags_eq_true_iff _⟩
  clear h
  induction tags with
  | nil => exact ⟨true, rfl, by simp⟩
  | cons x tags ih =>
    obtain ⟨b, hb, hiff⟩ := ih fun y hy => hone y (List.mem_cons_of_mem _ hy)
    obtain ⟨t, values⟩ := x
    by_cases hne : values = []
    · refine ⟨b, ?_, ?_⟩
      · rw [checkTags, if_pos hne, hb]
      · rw [hiff]
        simp [hne]
    · have ht := hone _ List.mem_cons_self hne
      rw [checkTags_singleton _ t hne] at ht
      rw [checkTags, if_neg hne, ht]
      simp only [Option.bind_eq_bind, Option.bind_some, List.forall_mem_cons, checkTags_singleton _ t hne, ht]
      cases hacc : decide ((operator t.getOps).Accepts (values.map fun v => inverted t.getOps (truth t v))) with
      | false => exact ⟨false, rfl, by simp [hne]⟩
      | true => exact ⟨b, hb, by simp [hiff]⟩

/-- Data that is one of two strings but not both. -/
def eitherData : List (Tag × List (Value Empty)) :=
  [(⟨some .data, OP_XOR⟩, [⟨[], [], [str "a"], [], 0⟩, ⟨[], [], [str "b"], [], 0⟩]), (⟨some .data, OP_AND⟩, [])]

theorem checkTags_spec_eitherData :
    ∃ b, checkTags (Tag.check id ⟨Empty.elim, Empty.elim⟩) eitherData (.make (str "b") 0 true []) (fun _ => none) =
        some (b, .make (str "b") 0 true [], fun _ => none) ∧
      (b = true ↔ ∀ x ∈ eitherData, x.2 ≠ [] →
        checkTags (Tag.check id ⟨Empty.elim, Empty.elim⟩) [x] (.make (str "b") 0 true []) (fun _ => none) =
          some (true, .make (str "b") 0 true [], fun _ => none)) :=
  (checkTags_spec id ⟨Empty.elim, Empty.elim⟩ (fun _ v => decide (v.strings = [str "b"])) (by
    simp only [eitherData, List.forall_mem_cons, Reads]
    refine ⟨⟨rfl, rfl, ?_⟩, ?_, ?_⟩
    all_goals exact fun _ h => absurd h List.not_mem_nil)).2.1

end Dcpp.SdExFull
