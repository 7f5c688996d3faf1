import Dcpp.ReaderProgress

namespace Dcpp.SimpleXMLReader

open Incremental

@[simp] theorem ret_false_or (r : Reader) (buf : Bytes) (f : Reader → Bytes → Result) :
    (Result.ret false r buf).or f = f r buf := rfl

@[simp] theorem ret_true_or (r : Reader) (buf : Bytes) (f : Reader → Bytes → Result) :
    (Result.ret true r buf).or f = .ret true r buf := rfl

/-- A literal does not apply to a buffer that has another second character. -/
theorem literal_false {a b c : UInt8} (hbc : b ≠ c) (lit rest : Bytes) (withSpace : Bool) (newState : ParseState)
    (r : Reader) :
    literal (a :: b :: lit) withSpace newState r (a :: c :: rest) = .ret false r (a :: c :: rest) := by
  simp [literal, hbc]

/-- Nor to one that has another first character. -/
theorem literal_false_head {a c : UInt8} (hac : a ≠ c) (lit rest : Bytes) (withSpace : Bool) (newState : ParseState)
    (r : Reader) : literal (a :: lit) withSpace newState r (c :: rest) = .ret false r (c :: rest) := by
  simp [literal, hac]

/-- Two parsers do the same, or else both throw after the same callbacks. -/
inductive Result.Like : Result → Result → Prop where
  | refl (x : Result) : Like x x
  | error {r r' : Reader} {buf buf' : Bytes} {message message' : String} (calls : r.calls = r'.calls) :
    Like (.error r buf message) (.error r' buf' message')

/-- The callbacks that were made before the reader threw. -/
def Round.calls : Round → List CallBack
  | .done _ r _ | .next r _ | .error r _ _ => r.calls

/-- What a round does from the first place when the parsers do there what they do at the second one,
which is further on. -/
def Moved (x x' : Step Reader UInt8 Round) (r' : Reader) (buf' : Bytes) : Prop :=
  match x' with
  | .wait => x = .next r' buf'
  | .next t d => x = .next t d
  | .stop e' => ∃ e, x = .stop e ∧ e.calls = e'.calls

/-- A round from the first place does what one from the second does, which is further on. -/
def Absorbs (cfg : Config) (r : Reader) (buf : Bytes) (r' : Reader) (buf' : Bytes) : Prop :=
  ∀ y', machine cfg r' buf' y' → ∃ y, machine cfg r buf y ∧ Moved y y' r' buf'

theorem machine_simple {cfg : Config} {r : Reader} {buf : Bytes} {y : Step Reader UInt8 Round} (hend : r.state ≠ .END)
    (hname : ¬(r.state = .DECL_ENCODING_NAME_APOS ∨ r.state = .DECL_ENCODING_NAME_QUOT)) :
    machine cfg r buf y ↔ (roundEnd cfg r buf (simpleCase cfg r buf)).step = y := by
  have hround (fuel : Nat) : round cfg fuel r buf = some (roundEnd cfg r buf (simpleCase cfg r buf)) := by
    rw [round, if_neg hend, switch, if_neg hname, Option.map_some]
  constructor
  · rintro ⟨fuel, x, hx, rfl⟩
    rw [hround] at hx
    rw [Option.some.inj hx]
  · intro h
    exact ⟨0, _, hround 0, h⟩

theorem Consumes.length_le {r r' : Reader} {buf buf' : Bytes} (h : Consumes r buf r' buf') : buf'.length ≤ buf.length :=
  h.elim Nat.le_of_lt fun h => Nat.le_of_eq h.1

theorem roundEnd_absorbs (cfg : Config) {r r' : Reader} {buf buf' : Bytes} {x : Result}
    (hs : r'.state = r.state ∨ r'.state ≠ .CONTENT ∧ r.state ≠ .CONTENT) (hlen : buf'.length < buf.length)
    (hsound : x.Sound r' buf') : Moved (roundEnd cfg r buf x).step (roundEnd cfg r' buf' x).step r' buf' := by
  cases x with
  | error t d message => exact ⟨_, rfl, rfl⟩
  | ret b t d =>
    by_cases hwait : t.state = r'.state ∧ d.length = buf'.length
    · -- the round further on waits, and the one before has come there
      have heq : t = r' ∧ d = buf' := by
        cases b with
        | false => exact hsound
        | true =>
          obtain h | ⟨_, hlt | ⟨_, h₁, h₂⟩⟩ := hsound
          · exact h
          · omega
          · rw [hwait.1, h₁] at h₂
            cases h₂
      obtain ⟨rfl, rfl⟩ := heq
      have hwaits : (roundEnd cfg t d (.ret b t d)).step = .wait := by
        rw [roundEnd, if_pos ⟨rfl, rfl⟩]
        rfl
      rw [hwaits, roundEnd, if_neg (by omega), if_neg]
      · exact rfl
      · rintro ⟨hc, hne, _⟩
        obtain hs | ⟨_, hs⟩ := hs
        · exact hne (hs.trans hc)
        · exact hs hc
    · have hle : d.length ≤ buf'.length := by
        cases b with
        | false => exact Nat.le_of_eq (by rw [hsound.2])
        | true =>
          obtain ⟨_, rfl⟩ | ⟨_, hcons⟩ := hsound
          · exact Nat.le_refl _
          · exact hcons.length_le
      have hne : (roundEnd cfg r' buf' (.ret b t d)).step ≠ .wait := by
        rw [roundEnd, if_neg hwait]
        split
        · split <;> exact fun h => (by cases h)
        · exact fun h => (by cases h)
      have hsame : roundEnd cfg r buf (.ret b t d) = roundEnd cfg r' buf' (.ret b t d) := by
        rw [roundEnd, roundEnd, if_neg (by omega), if_neg hwait]
        obtain hs | ⟨hs', hs⟩ := hs
        · rw [hs]
        · rw [if_neg (fun h => hs h.1), if_neg (fun h => hs' h.1)]
      rw [hsame]
      generalize (roundEnd cfg r' buf' (.ret b t d)).step = y at hne
      cases y with
      | wait => exact absurd rfl hne
      | next _ _ => exact rfl
      | stop e => exact ⟨e, rfl, rfl⟩

/-- Where the parsers do the same at a place that is further on, they absorb what is between. -/
theorem absorbs_of_like {cfg : Config} {r r' : Reader} {buf buf' : Bytes} (hs : r'.state = r.state)
    (hend : r.state ≠ .END) (hname : ¬(r.state = .DECL_ENCODING_NAME_APOS ∨ r.state = .DECL_ENCODING_NAME_QUOT))
    (hlen : buf'.length < buf.length) (h : (simpleCase cfg r buf).Like (simpleCase cfg r' buf')) :
    Absorbs cfg r buf r' buf' := by
  intro y' hy'
  obtain rfl := (machine_simple (hs ▸ hend) (hs ▸ hname)).mp hy'
  have hsound := simpleCase_sound cfg r' buf'
  have hmoved : Moved (roundEnd cfg r buf (simpleCase cfg r buf)).step
      (roundEnd cfg r' buf' (simpleCase cfg r' buf')).step r' buf' := by
    generalize simpleCase cfg r buf = x at h
    generalize simpleCase cfg r' buf' = x' at h hsound
    cases h with
    | error hcalls => exact ⟨_, rfl, hcalls⟩
    | refl => exact roundEnd_absorbs cfg (Or.inl hs) hlen hsound
  exact ⟨_, (machine_simple hend hname).mpr rfl, hmoved⟩

/-- Steps from the place further on are steps from the place before. -/
theorem Absorbs.steps {cfg : Config} {r r' t : Reader} {buf buf' d : Bytes} (h : Absorbs cfg r buf r' buf')
    (hsteps : Steps (machine cfg) r' buf' t d) (hne : r' ≠ t ∨ buf' ≠ d) : Steps (machine cfg) r buf t d := by
  cases hsteps with
  | refl => exact absurd rfl (hne.resolve_left fun h => h rfl)
  | next hs hrest =>
    obtain ⟨y, hy, rfl⟩ := h _ hs
    exact Steps.next hy hrest

theorem Result.Like.or {x x' : Result} (h : x.Like x') (f : Reader → Bytes → Result) : (x.or f).Like (x'.or f) := by
  cases h with
  | refl => exact .refl _
  | error hcalls => exact .error hcalls

theorem append_of_le {s t : Bytes} {maxLen : Nat} (h : (s ++ t).length ≤ maxLen) : append s maxLen t = some (s ++ t) := by
  rw [List.length_append] at h
  rw [append, if_neg (by omega)]

theorem append_of_lt {s t : Bytes} {maxLen : Nat} (h : maxLen < (s ++ t).length) : append s maxLen t = none := by
  rw [List.length_append] at h
  rw [append, if_pos h]

/-- A plain character of an attribute's value is taken with what follows it. -/
theorem elementAttrValue_char (cfg : Config) {r : Reader} {first u : Bytes} {as : StringPairList} (buf : Bytes) {c : UInt8}
    (hattribs : r.attribs = (first, u) :: as) (hquote : c ≠ quote r.state) (hamp : c ≠ byte '&') :
    (elementAttrValue cfg r (c :: buf)).Like
      (elementAttrValue cfg { r with attribs := (first, u ++ [c]) :: as } buf) := by
  have hplain : (!(decide (c = quote r.state) || decide (c = byte '&'))) = true := by
    simp [hquote, hamp]
  rw [elementAttrValue, elementAttrValue, hattribs]
  dsimp only
  rw [List.takeWhile_cons_of_pos (p := fun c => !(decide (c = quote r.state) || decide (c = byte '&'))) hplain,
    List.dropWhile_cons_of_pos (p := fun c => !(decide (c = quote r.state) || decide (c = byte '&'))) hplain]
  generalize buf.takeWhile _ = t
  generalize buf.dropWhile _ = d
  have hsplit : u ++ c :: t = u ++ [c] ++ t := by simp
  by_cases hle : (u ++ [c] ++ t).length ≤ MAX_VALUE_SIZE
  · rw [append_of_le hle, hsplit.symm, append_of_le (by rwa [hsplit])]
    cases d with
    | nil => exact .refl _
    | cons c' rest =>
      dsimp only
      split
      · cases decodeString cfg r.encoding (u ++ c :: t) with
        | none => exact .error rfl
        | some second => exact .refl _
      · exact .refl _
  · rw [append_of_lt (Nat.lt_of_not_le hle), append_of_lt (by rw [hsplit]; omega)]
    exact .error rfl

/-- A place in an attribute's value. -/
theorem absorbs_value (cfg : Config) {r : Reader} {first u : Bytes} {as : StringPairList} (buf : Bytes) {c : UInt8}
    (hs : r.state = .ELEMENT_ATTR_VALUE_APOS ∨ r.state = .ELEMENT_ATTR_VALUE_QUOT)
    (hattribs : r.attribs = (first, u) :: as) (hquote : c ≠ quote r.state) (hamp : c ≠ byte '&') :
    Absorbs cfg r (c :: buf) { r with attribs := (first, u ++ [c]) :: as } buf := by
  have hcase (r : Reader) (buf : Bytes) (h : r.state = .ELEMENT_ATTR_VALUE_APOS ∨ r.state = .ELEMENT_ATTR_VALUE_QUOT) :
      simpleCase cfg r buf = (elementAttrValue cfg r buf).or (error "Expecting attribute value") := by
    obtain h | h := h <;> rw [simpleCase, h]
  refine absorbs_of_like (by rfl) ?_ ?_ (Nat.lt_succ_self _) ?_
  · obtain h | h := hs <;> rw [h] <;> decide
  · obtain h | h := hs <;> rw [h] <;> decide
  · rw [hcase r _ hs, hcase { r with attribs := (first, u ++ [c]) :: as } _ hs]
    exact (elementAttrValue_char cfg buf hattribs hquote hamp).or _

theorem skipLoop_space (skipped : Bool) (r : Reader) {c : UInt8} (buf : Bytes) (hc : isSpace c = true) :
    skipLoop true skipped r (c :: buf) =
      if (r.value ++ [c]).length ≤ MAX_VALUE_SIZE then skipLoop true true { r with value := r.value ++ [c] } buf
      else .error r (c :: buf) "Buffer overflow" := by
  rw [skipLoop, if_pos hc, if_pos rfl]
  by_cases hle : (r.value ++ [c]).length ≤ MAX_VALUE_SIZE
  · rw [if_pos hle, append_of_le hle]
  · rw [if_neg hle, append_of_lt (Nat.lt_of_not_le hle)]

/-- A space is taken with one that follows it. -/
theorem skipSpace_char (r : Reader) {c c' : UInt8} (buf : Bytes) (hc : isSpace c = true) (hc' : isSpace c' = true) :
    (skipSpace true r (c :: c' :: buf)).Like (skipSpace true { r with value := r.value ++ [c] } (c' :: buf)) := by
  rw [skipSpace, skipSpace, if_neg (by simp), if_neg (by simp), skipLoop_space false _ _ hc, skipLoop_space false _ _ hc']
  by_cases hle : (r.value ++ [c]).length ≤ MAX_VALUE_SIZE
  · rw [if_pos hle, skipLoop_space true _ _ hc']
    exact .refl _
  · rw [if_neg hle, if_neg (by simp only [List.length_append] at hle ⊢; omega)]
    exact .error rfl

theorem simpleCase_content (cfg : Config) {r : Reader} (hs : r.state = .CONTENT) (buf : Bytes) :
    simpleCase cfg r buf =
      ((((((skipSpace true r buf).or (literal (str "<!--") false .COMMENT)).or
        (literal (str "<![CDATA[") false .CDATA)).or element).or (literal (str "</") false .ELEMENT_END)).or content).or
        (error "Expecting content, element or comment") := by
  rw [simpleCase, hs]

/-- A place in the spaces of content. -/
theorem absorbs_space (cfg : Config) {r : Reader} {c c' : UInt8} (buf : Bytes) (hs : r.state = .CONTENT)
    (hc : isSpace c = true) (hc' : isSpace c' = true) :
    Absorbs cfg r (c :: c' :: buf) { r with value := r.value ++ [c] } (c' :: buf) := by
  refine absorbs_of_like rfl (by simp [hs]) (by simp [hs]) (Nat.lt_succ_self _) ?_
  rw [simpleCase_content cfg hs, simpleCase_content cfg (r := { r with value := r.value ++ [c] }) hs]
  exact ((((((skipSpace_char r buf hc hc').or _).or _).or _).or _).or _).or _

/-- Two parsers do the same, or both throw, or both do not apply. -/
theorem like_or_error {x x' : Result} (message : String)
    (h : x.Like x' ∨ ∃ r buf r' buf', x = .ret false r buf ∧ x' = .ret false r' buf' ∧ r.calls = r'.calls) :
    (x.or (error message)).Like (x'.or (error message)) := by
  obtain h | ⟨_, _, _, _, rfl, rfl, hcalls⟩ := h
  · exact h.or _
  · exact .error hcalls

/-- A name goes on, up to a character that ends it. -/
def readName (r : Reader) (name : Bytes) (ends : UInt8 → Bool) (goOn : Bytes → Reader) (leave : Bytes → UInt8 → Reader)
    (buf : Bytes) : Result :=
  match buf.dropWhile isNameChar with
  | [] =>
    match append name MAX_NAME_SIZE (buf.takeWhile isNameChar) with
    | none => .error r buf "Buffer overflow"
    | some name => .ret true (goOn name) []
  | c :: rest =>
    if ends c then
      match append name MAX_NAME_SIZE (buf.takeWhile isNameChar) with
      | none => .error r buf "Buffer overflow"
      | some name => .ret true (leave name c) rest
    else .ret false r buf

theorem elementName_eq {r : Reader} {top : Bytes} {es : List Bytes} (h : r.elements = top :: es) (buf : Bytes) :
    elementName r buf = readName r top (fun c => isSpace c || c = byte '/' || c = byte '>')
      (fun name => { r with elements := name :: es })
      (fun name c =>
        let r := { r with elements := name :: es }
        if isSpace c then { r with state := .ELEMENT_ATTR }
        else if c = byte '/' then { r with state := .ELEMENT_END_SIMPLE }
        else { r with calls := startTag false r, attribs := [], state := .CONTENT }) buf := by
  rw [elementName, readName, h]
  dsimp only
  cases buf.dropWhile isNameChar with
  | nil => rfl
  | cons c rest =>
    dsimp only
    cases append top MAX_NAME_SIZE (buf.takeWhile isNameChar) with
    | none => rfl
    | some name => split_ifs <;> rfl

theorem elementAttrName_eq {r : Reader} {first second : Bytes} {as : StringPairList}
    (h : r.attribs = (first, second) :: as) (buf : Bytes) :
    elementAttrName r buf = readName r first (fun c => isSpace c || c = byte '=')
      (fun name => { r with attribs := (name, second) :: as })
      (fun name c => { r with
        attribs := (name, second) :: as
        state := if isSpace c then .ELEMENT_ATTR_EQ else .ELEMENT_ATTR_VALUE }) buf := by
  rewrite [elementAttrName, readName, h]
  rfl

/-- A character of a name is taken with what follows it. -/
theorem readName_char {r r' : Reader} {name : Bytes} {c : UInt8} (hcalls : r.calls = r'.calls) (hc : isNameChar c = true)
    (ends : UInt8 → Bool) (goOn : Bytes → Reader) (leave : Bytes → UInt8 → Reader) (buf : Bytes) (message : String) :
    ((readName r name ends goOn leave (c :: buf)).or (error message)).Like
      ((readName r' (name ++ [c]) ends goOn leave buf).or (error message)) := by
  apply like_or_error
  rw [readName, readName, List.takeWhile_cons_of_pos hc, List.dropWhile_cons_of_pos hc]
  generalize buf.takeWhile _ = t
  have hsplit : name ++ c :: t = name ++ [c] ++ t := by simp
  cases buf.dropWhile isNameChar with
  | nil =>
    by_cases hle : (name ++ [c] ++ t).length ≤ MAX_NAME_SIZE
    · rw [append_of_le hle, hsplit.symm, append_of_le (by rwa [hsplit])]
      exact Or.inl (.refl _)
    · rw [append_of_lt (Nat.lt_of_not_le hle), append_of_lt (by rw [hsplit]; omega)]
      exact Or.inl (.error hcalls)
  | cons c' rest =>
    dsimp only
    split
    · by_cases hle : (name ++ [c] ++ t).length ≤ MAX_NAME_SIZE
      · rw [append_of_le hle, hsplit.symm, append_of_le (by rwa [hsplit])]
        exact Or.inl (.refl _)
      · rw [append_of_lt (Nat.lt_of_not_le hle), append_of_lt (by rw [hsplit]; omega)]
        exact Or.inl (.error hcalls)
    · exact Or.inr ⟨_, _, _, _, rfl, rfl, hcalls⟩

theorem simpleCase_name (cfg : Config) {r : Reader} (hs : r.state = .ELEMENT_NAME) (buf : Bytes) :
    simpleCase cfg r buf = (elementName r buf).or (error "Error while parsing element start") := by
  rw [simpleCase, hs]

theorem simpleCase_attr_name (cfg : Config) {r : Reader} (hs : r.state = .ELEMENT_ATTR_NAME) (buf : Bytes) :
    simpleCase cfg r buf = (elementAttrName r buf).or (error "Expecting attribute name") := by
  rw [simpleCase, hs]

/-- A place in an element's name. -/
theorem absorbs_name (cfg : Config) {r : Reader} {top : Bytes} {es : List Bytes} (buf : Bytes) {c : UInt8}
    (hs : r.state = .ELEMENT_NAME) (helements : r.elements = top :: es) (hc : isNameChar c = true) :
    Absorbs cfg r (c :: buf) { r with elements := (top ++ [c]) :: es } buf := by
  refine absorbs_of_like rfl (by simp [hs]) (by simp [hs]) (Nat.lt_succ_self _) ?_
  rw [simpleCase_name cfg hs, simpleCase_name cfg (r := { r with elements := (top ++ [c]) :: es }) hs,
    elementName_eq helements, elementName_eq rfl]
  exact readName_char (by rfl) hc _ _ _ buf _

/-- A place in an attribute's name. -/
theorem absorbs_attr_name (cfg : Config) {r : Reader} {first second : Bytes} {as : StringPairList} (buf : Bytes)
    {c : UInt8} (hs : r.state = .ELEMENT_ATTR_NAME) (hattribs : r.attribs = (first, second) :: as)
    (hc : isNameChar c = true) :
    Absorbs cfg r (c :: buf) { r with attribs := (first ++ [c], second) :: as } buf := by
  refine absorbs_of_like rfl (by simp [hs]) (by simp [hs]) (Nat.lt_succ_self _) ?_
  rw [simpleCase_attr_name cfg hs, simpleCase_attr_name cfg (r := { r with attribs := (first ++ [c], second) :: as }) hs,
    elementAttrName_eq hattribs, elementAttrName_eq rfl]
  exact readName_char (by rfl) hc _ _ _ buf _

/-- The character does not begin what ends a comment or a section, and there is enough to see that. -/
def Inside (c stop : UInt8) (buf : Bytes) : Prop :=
  c ≠ stop ∨ ∃ c₁ c₂ rest, buf = c₁ :: c₂ :: rest ∧ ¬(c₁ = stop ∧ c₂ = byte '>')

theorem comment_inside (r : Reader) {c : UInt8} {buf : Bytes} (h : Inside c (byte '-') buf) :
    comment r (c :: buf) = comment r buf := by
  obtain h | ⟨c₁, c₂, rest, rfl, h⟩ := h
  · rw [comment.eq_def]
    dsimp only
    rw [if_neg h]
  · rw [comment]
    split
    · rw [if_neg (by simpa using h)]
    · rfl

/-- A place in a comment. -/
theorem absorbs_comment (cfg : Config) {r : Reader} {buf : Bytes} {c : UInt8} (hs : r.state = .COMMENT)
    (h : Inside c (byte '-') buf) : Absorbs cfg r (c :: buf) r buf := by
  refine absorbs_of_like rfl (by simp [hs]) (by simp [hs]) (Nat.lt_succ_self _) ?_
  have hcase (buf : Bytes) : simpleCase cfg r buf = (comment r buf).or (error "Error while parsing comment") := by
    rw [simpleCase, hs]
  rw [hcase, hcase, comment_inside r h]
  exact .refl _

theorem cdata_inside (r : Reader) {c : UInt8} {buf : Bytes} (h : Inside c (byte ']') buf) :
    cdata r (c :: buf) = match append r.value MAX_VALUE_SIZE [c] with
      | none => .error r (c :: buf) "Buffer overflow"
      | some value => cdata { r with value := value } buf := by
  obtain h | ⟨c₁, c₂, rest, rfl, h⟩ := h
  · rw [cdata.eq_def]
    dsimp only
    rewrite [if_neg h]
    rfl
  · rw [cdata]
    split
    · rewrite [if_neg (by simpa using h)]
      rfl
    · rfl

/-- A place in a CDATA section, where the value has not become too long. -/
theorem absorbs_cdata (cfg : Config) {r : Reader} {buf : Bytes} {c : UInt8} (hs : r.state = .CDATA)
    (h : Inside c (byte ']') buf) (hlen : (r.value ++ [c]).length ≤ MAX_VALUE_SIZE) :
    Absorbs cfg r (c :: buf) { r with value := r.value ++ [c] } buf := by
  refine absorbs_of_like rfl (by simp [hs]) (by simp [hs]) (Nat.lt_succ_self _) ?_
  have hcase (r : Reader) (buf : Bytes) (hs : r.state = .CDATA) :
      simpleCase cfg r buf = (cdata r buf).or (error "Error while parsing CDATA") := by
    rw [simpleCase, hs]
  rw [hcase r _ hs, hcase { r with value := r.value ++ [c] } _ hs, cdata_inside r h, append_of_le hlen]
  exact .refl _

/-- What follows the encoding's value in its round. -/
def afterEncoding (x : Result) : Result :=
  match x.or (spaceOrError "Expecting encoding value") with
  | .ret _ r buf => standalone r buf
  | x => x

theorem machine_encoding {cfg : Config} {r : Reader} {buf : Bytes} {y : Step Reader UInt8 Round}
    (hs : r.state = .DECL_ENCODING_NAME_APOS ∨ r.state = .DECL_ENCODING_NAME_QUOT) :
    machine cfg r buf y ↔
      ∃ fuel x, declEncodingValue cfg fuel r buf = some x ∧ (roundEnd cfg r buf (afterEncoding x)).step = y := by
  have hend : r.state ≠ .END := by
    obtain h | h := hs <;> rw [h] <;> decide
  have hround (fuel : Nat) : round cfg fuel r buf =
      (declEncodingValue cfg fuel r buf).map fun x => roundEnd cfg r buf (afterEncoding x) := by
    rw [round, if_neg hend, switch, if_pos hs, Option.map_map]
    rfl
  constructor
  · rintro ⟨fuel, x, hx, rfl⟩
    rw [hround] at hx
    obtain ⟨z, hz, rfl⟩ := Option.map_eq_some_iff.mp hx
    exact ⟨fuel, z, hz, rfl⟩
  · rintro ⟨fuel, x, hx, rfl⟩
    exact ⟨fuel, _, by rw [hround, hx, Option.map_some], rfl⟩

theorem encoding_not_content {r : Reader} (hs : r.state = .DECL_ENCODING_NAME_APOS ∨ r.state = .DECL_ENCODING_NAME_QUOT) :
    r.state ≠ .CONTENT := by
  obtain h | h := hs <;> rw [h] <;> decide

/-- A round of the loop over the encoding's name. -/
theorem absorbs_encoding (cfg : Config) {r : Reader} {buf buf' : Bytes} {encoding : Bytes}
    (hs : r.state = .DECL_ENCODING_NAME_APOS ∨ r.state = .DECL_ENCODING_NAME_QUOT) (hlen : buf'.length < buf.length)
    (h : ∀ fuel, declEncodingValue cfg (fuel + 1) r buf = declEncodingValue cfg fuel { r with encoding := encoding } buf') :
    Absorbs cfg r buf { r with encoding := encoding } buf' := by
  intro y' hy'
  have hs' : { r with encoding := encoding }.state = .DECL_ENCODING_NAME_APOS ∨
    { r with encoding := encoding }.state = .DECL_ENCODING_NAME_QUOT := hs
  obtain ⟨fuel, x, hx, rfl⟩ := (machine_encoding hs').mp hy'
  have hsound : (afterEncoding x).Sound { r with encoding := encoding } buf' := by
    refine @switch_sound cfg fuel _ _ _ ?_
    rw [switch, if_pos hs', hx]
    rfl
  exact ⟨_, (machine_encoding hs).mpr ⟨fuel + 1, x, (h fuel).trans hx, rfl⟩,
    roundEnd_absorbs cfg (Or.inl rfl) hlen hsound⟩

/-- The quote that ends the encoding's name. -/
theorem absorbs_encoding_quote (cfg : Config) {r : Reader}
    (hs : r.state = .DECL_ENCODING_NAME_APOS ∨ r.state = .DECL_ENCODING_NAME_QUOT) (buf : Bytes) :
    Absorbs cfg r (quote r.state :: buf)
      { r with encoding := cfg.platform.toLower r.encoding, state := .DECL_STANDALONE } buf := by
  intro y' hy'
  obtain rfl := (machine_simple (by simp) (by simp)).mp hy'
  have hsound := simpleCase_sound cfg { r with encoding := cfg.platform.toLower r.encoding, state := .DECL_STANDALONE } buf
  refine ⟨_, (machine_encoding hs).mpr ⟨1, _, by rw [declEncodingValue, if_pos rfl], rfl⟩, ?_⟩
  exact roundEnd_absorbs cfg (Or.inr ⟨by simp, encoding_not_content hs⟩) (Nat.lt_succ_self _) hsound

end Dcpp.SimpleXMLReader
