import Dcpp.ReaderChunks

namespace Dcpp.SimpleXMLReader

open Incremental

theorem isSpace_iff (c : UInt8) : isSpace c = true ↔ c = 0x20 ∨ c = 0x09 ∨ c = 0x0d ∨ c = 0x0a := by
  simp [isSpace, or_assoc]

theorem ne_of_isSpace {a c : UInt8} (ha : isSpace a = false) (hc : isSpace c = true) : a ≠ c := by
  rintro rfl
  rw [ha] at hc
  cases hc

theorem not_nameStart_of_isSpace {c : UInt8} (hc : isSpace c = true) : isNameStartChar c = false := by
  obtain rfl | rfl | rfl | rfl := (isSpace_iff c).mp hc <;> decide

theorem not_nameChar_of_isSpace {c : UInt8} (hc : isSpace c = true) : isNameChar c = false := by
  obtain rfl | rfl | rfl | rfl := (isSpace_iff c).mp hc <;> decide

/-- A literal that does not begin with a space does not begin what does. -/
theorem literal_space {lit : Bytes} {c : UInt8} (hlit : lit.head?.map isSpace = some false) (hc : isSpace c = true)
    (rest : Bytes) (withSpace : Bool) (newState : ParseState) (r : Reader) :
    literal lit withSpace newState r (c :: rest) = .ret false r (c :: rest) := by
  cases lit with
  | nil => cases hlit
  | cons a lit => exact literal_false_head (ne_of_isSpace (Option.some.inj hlit) hc) lit rest withSpace newState r

theorem character_space {a c : UInt8} (ha : isSpace a = false) (hc : isSpace c = true) (newState : ParseState)
    (r : Reader) (rest : Bytes) : character a newState r (c :: rest) = .ret false r (c :: rest) := by
  rw [character, if_neg (ne_of_isSpace ha hc).symm]

/-- Parsers that no space begins. -/
theorem skipsSpace_of_false {F : Reader → Bytes → Result} {r : Reader}
    (h : ∀ c rest, isSpace c = true → F r (c :: rest) = .ret false r (c :: rest)) : SkipsSpace F r := by
  intro buf hbuf
  obtain ⟨c, rest, rfl, hc⟩ := cons_of_isSpace hbuf
  exact Or.inl (h c rest hc)

/-- The parsers before the space in the states that are left with a literal or a character. -/
theorem skipsSpace_literal {lit : Bytes} (hlit : lit.head?.map isSpace = some false) (newState : ParseState) (r : Reader) :
    SkipsSpace (literal lit false newState) r :=
  skipsSpace_of_false fun _ rest hc => literal_space hlit hc rest false newState r

theorem skipsSpace_literals {lit lit' : Bytes} (hlit : lit.head?.map isSpace = some false)
    (hlit' : lit'.head?.map isSpace = some false) (newState newState' : ParseState) (r : Reader) :
    SkipsSpace (fun r buf => (literal lit false newState r buf).or (literal lit' false newState')) r :=
  skipsSpace_of_false fun _ rest hc => by rw [literal_space hlit hc, ret_false_or, literal_space hlit' hc]

theorem skipsSpace_character {a : UInt8} (ha : isSpace a = false) (newState : ParseState) (r : Reader) :
    SkipsSpace (character a newState) r :=
  skipsSpace_of_false fun _ rest hc => character_space ha hc newState r rest

theorem skipsSpace_start (r : Reader) : SkipsSpace (fun r buf =>
    (((literal byteOrderMark false .START r buf).or (literal (str "<?xml") true .DECL_VERSION)).or
      (literal (str "<!--") false .COMMENT)).or element) r := by
  intro buf hbuf
  obtain ⟨c, rest, rfl, hc⟩ := cons_of_isSpace hbuf
  have hfalse : (((literal byteOrderMark false .START r (c :: rest)).or (literal (str "<?xml") true .DECL_VERSION)).or
      (literal (str "<!--") false .COMMENT)) = .ret false r (c :: rest) := by
    rw [literal_space (by decide) hc, ret_false_or, literal_space (by decide) hc, ret_false_or,
      literal_space (by decide) hc]
  dsimp only
  rw [hfalse, ret_false_or]
  cases rest with
  | nil =>
    -- an element's start may still come
    refine Or.inr ⟨rfl, ?_⟩
    rw [List.dropWhile_cons_of_pos hc, List.dropWhile_nil]
    rfl
  | cons c' rest =>
    refine Or.inl ?_
    have hlt : ¬(decide (c = byte '<') && isNameStartChar c') = true := by
      rw [decide_eq_false (ne_of_isSpace (by decide) hc).symm, Bool.false_and]
      exact Bool.false_ne_true
    rw [element, if_neg hlt]

theorem skipsSpace_version (r : Reader) : SkipsSpace declVersionNum r := by
  intro buf hbuf
  obtain ⟨c, rest, rfl, hc⟩ := cons_of_isSpace hbuf
  by_cases hlen : 5 ≤ (c :: rest).length
  · refine Or.inl ?_
    have hneed : needChars (c :: rest) 5 = true := decide_eq_true hlen
    have hquot : ((decide (charAt (c :: rest) 0 = byte '"') || decide (charAt (c :: rest) 0 = byte '\'')) = false) := by
      change (decide (c = byte '"') || decide (c = byte '\'')) = false
      rw [decide_eq_false (ne_of_isSpace (by decide) hc).symm, decide_eq_false (ne_of_isSpace (by decide) hc).symm]
      rfl
    rw [declVersionNum, hneed, if_neg (by decide)]
    dsimp only
    rw [hquot, Bool.false_and, Bool.false_and, if_neg Bool.false_ne_true]
  · have hwait (buf : Bytes) (h : buf.length < 5) : declVersionNum r buf = .ret true r buf := by
      rw [declVersionNum, if_pos (by simpa [needChars] using h)]
    refine Or.inr ⟨hwait _ (by omega), hwait _ ?_⟩
    have := length_dropWhile_le isSpace (c :: rest)
    omega

/-- A name that is no space and not empty. -/
theorem skipsSpace_end {r : Reader} (hr : r.Nested) : SkipsSpace elementEnd r := by
  intro buf hbuf
  obtain ⟨c, rest, rfl, hc⟩ := cons_of_isSpace hbuf
  cases helements : r.elements with
  | nil =>
    refine Or.inl ?_
    rw [elementEnd, helements]
  | cons top elements =>
    obtain ⟨hne, hname⟩ := hr.names top (by rw [helements]; exact List.mem_cons_self)
    have hwait (buf : Bytes) (h : buf.length < top.length) : elementEnd r buf = .ret true r buf := by
      rw [elementEnd, helements]
      dsimp only
      rw [if_pos (by simpa [needChars] using h)]
    by_cases hlen : top.length ≤ (c :: rest).length
    · refine Or.inl ?_
      have htake : (c :: rest).take top.length ≠ top := by
        cases top with
        | nil => exact absurd rfl hne
        | cons a top =>
          rw [List.length_cons, List.take_succ_cons]
          intro heq
          obtain ⟨rfl, _⟩ := List.cons.inj heq
          have := hname c List.mem_cons_self
          rw [not_nameChar_of_isSpace hc] at this
          cases this
      rw [elementEnd, helements]
      dsimp only
      rw [if_neg (by simpa [needChars] using hlen), if_neg htake]
    · refine Or.inr ⟨hwait _ (by omega), hwait _ ?_⟩
      have := length_dropWhile_le isSpace (c :: rest)
      omega

theorem skipsSpace_attr (r : Reader) : SkipsSpace (fun r buf =>
    ((elementAttr r buf).or elementEndComplex).or (character (byte '/') .ELEMENT_END_SIMPLE)) r := by
  apply skipsSpace_of_false
  intro c rest hc
  rw [elementAttr, if_neg (by rw [not_nameStart_of_isSpace hc]; decide), ret_false_or, elementEndComplex,
    if_neg (ne_of_isSpace (by decide) hc).symm, ret_false_or, character_space (by decide) hc]

/-- Space may be skipped before the version as well as after it is not found. -/
theorem version_eq (r : Reader) (buf : Bytes) :
    ((skipSpace false r buf).or (literal (str "version") false .DECL_VERSION_EQ)).or (spaceOrError "Expecting version") =
      (literal (str "version") false .DECL_VERSION_EQ r buf).or (spaceOrError "Expecting version") := by
  cases buf with
  | nil => rfl
  | cons c rest =>
    have hskip := skipSpace_false r (c :: rest)
    by_cases hc : isSpace c = true
    · rw [literal_space (by decide) hc, ret_false_or, spaceOrError_eq, hskip]
      have htrue : ((c :: rest).isEmpty || isSpace (charAt (c :: rest) 0)) = true := hc
      rw [htrue, if_pos rfl, ret_true_or, ret_true_or]
    · have hfalse : ((c :: rest).isEmpty || isSpace (charAt (c :: rest) 0)) = false := eq_false_of_ne_true hc
      rw [hskip, hfalse, List.dropWhile_cons_of_neg hc, ret_false_or]

/-- The states in which space may stand before what is read. -/
def spaced : ParseState → Bool
  | .DECL_ENCODING_NAME_APOS | .DECL_ENCODING_NAME_QUOT | .ELEMENT_NAME | .ELEMENT_ATTR_NAME | .ELEMENT_ATTR_VALUE_QUOT
  | .ELEMENT_ATTR_VALUE_APOS | .ELEMENT_END_SIMPLE | .COMMENT | .CONTENT | .CDATA | .END => false
  | _ => true

theorem agrees_spaced {cfg : Config} {r : Reader} (hr : r.Nested) (hs : spaced r.state = true) (buf more : Bytes) :
    Agrees cfg r buf more := by
  have hname : ¬(r.state = .DECL_ENCODING_NAME_APOS ∨ r.state = .DECL_ENCODING_NAME_QUOT) := by
    rintro (h | h) <;> rw [h] at hs <;> cases hs
  have hend := hr.running
  cases h : r.state with
  | START =>
    refine agrees_of_space hend hname (fun buf => by rw [simpleCase, h]) (skipsSpace_start r) ?_
    exact (((literal_stable _ _ _ r buf more).or (literal_stable _ _ _ r buf more)).or
      (literal_stable _ _ _ r buf more)).or (element_stable r buf more)
  | DECL_VERSION =>
    exact agrees_of_space hend hname (fun buf => by rw [simpleCase, h]; exact version_eq r buf)
      (skipsSpace_literal (by decide) _ r) (literal_stable _ _ _ r buf more)
  | DECL_VERSION_EQ | DECL_ENCODING_EQ | DECL_STANDALONE_EQ | ELEMENT_ATTR_EQ =>
    exact agrees_of_space hend hname (fun buf => by rw [simpleCase, h]) (skipsSpace_character (by decide) _ r)
      (character_stable _ _ r buf more)
  | DECL_VERSION_NUM =>
    exact agrees_of_space hend hname (fun buf => by rw [simpleCase, h]) (skipsSpace_version r)
      (declVersionNum_stable r buf more)
  | DECL_ENCODING =>
    refine agrees_of_space hend hname (fun buf => by rw [simpleCase, h]) (skipsSpace_of_false fun c rest hc => ?_)
      (((literal_stable _ _ _ r buf more).or (literal_stable _ _ _ r buf more)).or (literal_stable _ _ _ r buf more))
    rw [literal_space (by decide) hc, ret_false_or, literal_space (by decide) hc, ret_false_or,
      literal_space (by decide) hc]
  | DECL_ENCODING_NAME | ELEMENT_ATTR_VALUE =>
    refine agrees_of_space hend hname (fun buf => by rw [simpleCase, h]) (skipsSpace_of_false fun c rest hc => ?_)
      ((character_stable _ _ r buf more).or (character_stable _ _ r buf more))
    rw [character_space (by decide) hc, ret_false_or, character_space (by decide) hc]
  | DECL_STANDALONE =>
    exact agrees_of_space hend hname (fun buf => by rw [simpleCase, h, standalone])
      (skipsSpace_literals (by decide) (by decide) _ _ r)
      ((literal_stable _ _ _ r buf more).or (literal_stable _ _ _ r buf more))
  | DECL_STANDALONE_YES =>
    exact agrees_of_space hend hname (fun buf => by rw [simpleCase, h])
      (skipsSpace_literals (by decide) (by decide) _ _ r)
      ((literal_stable _ _ _ r buf more).or (literal_stable _ _ _ r buf more))
  | DECL_END =>
    exact agrees_of_space hend hname (fun buf => by rw [simpleCase, h]) (skipsSpace_literal (by decide) _ r)
      (literal_stable _ _ _ r buf more)
  | ELEMENT_ATTR =>
    refine agrees_of_space hend hname (fun buf => by rw [simpleCase, h]) (skipsSpace_attr r) ?_
    exact ((elementAttr_stable r buf more).or (elementEndComplex_stable r buf more)).or
      (character_stable _ _ r buf more)
  | ELEMENT_END =>
    exact agrees_of_space hend hname (fun buf => by rw [simpleCase, h]) (skipsSpace_end hr) (elementEnd_stable r buf more)
  | ELEMENT_END_END =>
    refine agrees_of_space hend hname (fun buf => by rw [simpleCase, h]) (skipsSpace_of_false fun c rest hc => ?_)
      (elementEndEnd_stable r buf more)
    rw [elementEndEnd, if_neg (ne_of_isSpace (by decide) hc).symm]
  | _ =>
    rw [h] at hs
    cases hs

/-- A state other than those of the encoding's name never stalls. -/
theorem not_stalled {r : Reader} (hs : ¬(r.state = .DECL_ENCODING_NAME_APOS ∨ r.state = .DECL_ENCODING_NAME_QUOT))
    (buf : Bytes) : ¬r.Stalled buf := fun h => hs h.1

/-- What the reader does with a name when the name does not go on in its buffer. -/
theorem readName_stable {r : Reader} {name buf : Bytes} {ends : UInt8 → Bool} {goOn : Bytes → Reader}
    {leave : Bytes → UInt8 → Reader} (hgo : goOn name = r) (hbuf : ∀ c ∈ buf.head?, isNameChar c = false) (more : Bytes)
    (message : String) :
    ((readName r name ends goOn leave buf).or (error message)).Stable
      ((readName r name ends goOn leave (buf ++ more)).or (error message)) r buf more := by
  cases buf with
  | nil =>
    by_cases hle : name.length ≤ MAX_NAME_SIZE
    · rw [readName, List.dropWhile_nil, List.takeWhile_nil]
      dsimp only
      rw [append_of_le (by rwa [List.append_nil]), List.append_nil]
      dsimp only
      rw [hgo, ret_true_or]
      exact stable_wait _ _ _ _
    · have hover (buf : Bytes) : ∃ buf' message', (readName r name ends goOn leave buf).or (error message) =
          .error r buf' message' := by
        have hnone : append name MAX_NAME_SIZE (buf.takeWhile isNameChar) = none :=
          append_of_lt (by rw [List.length_append]; omega)
        rw [readName, hnone]
        cases buf.dropWhile isNameChar with
        | nil => exact ⟨_, _, rfl⟩
        | cons c rest =>
          dsimp only
          split
          next => exact ⟨_, _, rfl⟩
          next => exact ⟨_, _, rfl⟩
      obtain ⟨_, _, h⟩ := hover []
      obtain ⟨_, _, h'⟩ := hover ([] ++ more)
      rw [h, h']
      exact ⟨_, _, _, rfl, rfl⟩
  | cons c rest =>
    have hc : ¬isNameChar c = true := by simp [hbuf c rfl]
    rw [readName, readName, List.cons_append, List.takeWhile_cons_of_neg hc, List.takeWhile_cons_of_neg hc,
      List.dropWhile_cons_of_neg hc, List.dropWhile_cons_of_neg hc]
    dsimp only
    split
    next =>
      cases append name MAX_NAME_SIZE [] with
      | none => exact ⟨_, _, _, rfl, rfl⟩
      | some name => exact Or.inr rfl
    next => exact ⟨_, _, _, rfl, rfl⟩

theorem agrees_name {cfg : Config} {r : Reader} (hs : r.state = .ELEMENT_NAME) (buf more : Bytes) :
    Agrees cfg r buf more := by
  have hstable (r : Reader) (buf : Bytes) (hs : r.state = .ELEMENT_NAME)
      (h : ((elementName r buf).or (error "Error while parsing element start")).Stable
        ((elementName r (buf ++ more)).or (error "Error while parsing element start")) r buf more) :
      Agrees cfg r buf more :=
    agrees_of_stable (by simp [hs]) (by simp [hs]) (by rwa [simpleCase_name cfg hs, simpleCase_name cfg hs])
  induction buf generalizing r with
  | nil =>
    apply hstable r [] hs
    cases helements : r.elements with
    | nil =>
      rw [elementName, elementName, helements]
      exact ⟨_, _, _, rfl, rfl⟩
    | cons top es =>
      rw [elementName_eq helements, elementName_eq helements]
      exact readName_stable (by rw [← helements]) (by simp) more _
  | cons c rest ih =>
    cases helements : r.elements with
    | nil =>
      apply hstable r _ hs
      rw [elementName, elementName, helements]
      exact ⟨_, _, _, rfl, rfl⟩
    | cons top es =>
      by_cases hc : isNameChar c = true
      · exact agrees_of_absorbs (absorbs_name cfg rest hs helements hc) (absorbs_name cfg (rest ++ more) hs helements hc)
          (not_stalled (by simp [hs]) rest) (ih hs)
      · apply hstable r _ hs
        rw [elementName_eq helements, elementName_eq helements]
        exact readName_stable (by rw [← helements]) (by simpa using hc) more _

theorem agrees_attr_name {cfg : Config} {r : Reader} (hs : r.state = .ELEMENT_ATTR_NAME) (buf more : Bytes) :
    Agrees cfg r buf more := by
  have hstable (r : Reader) (buf : Bytes) (hs : r.state = .ELEMENT_ATTR_NAME)
      (h : ((elementAttrName r buf).or (error "Expecting attribute name")).Stable
        ((elementAttrName r (buf ++ more)).or (error "Expecting attribute name")) r buf more) :
      Agrees cfg r buf more :=
    agrees_of_stable (by simp [hs]) (by simp [hs]) (by rwa [simpleCase_attr_name cfg hs, simpleCase_attr_name cfg hs])
  induction buf generalizing r with
  | nil =>
    apply hstable r [] hs
    cases hattribs : r.attribs with
    | nil =>
      rw [elementAttrName, elementAttrName, hattribs]
      exact ⟨_, _, _, rfl, rfl⟩
    | cons a as =>
      rw [elementAttrName_eq hattribs, elementAttrName_eq hattribs]
      exact readName_stable (by rw [← hattribs]) (by simp) more _
  | cons c rest ih =>
    cases hattribs : r.attribs with
    | nil =>
      apply hstable r _ hs
      rw [elementAttrName, elementAttrName, hattribs]
      exact ⟨_, _, _, rfl, rfl⟩
    | cons a as =>
      by_cases hc : isNameChar c = true
      · exact agrees_of_absorbs (absorbs_attr_name cfg rest hs hattribs hc)
          (absorbs_attr_name cfg (rest ++ more) hs hattribs hc) (not_stalled (by simp [hs]) rest) (ih hs)
      · apply hstable r _ hs
        rw [elementAttrName_eq hattribs, elementAttrName_eq hattribs]
        exact readName_stable (by rw [← hattribs]) (by simpa using hc) more _

theorem simpleCase_value (cfg : Config) {r : Reader}
    (hs : r.state = .ELEMENT_ATTR_VALUE_APOS ∨ r.state = .ELEMENT_ATTR_VALUE_QUOT) (buf : Bytes) :
    simpleCase cfg r buf = (elementAttrValue cfg r buf).or (error "Expecting attribute value") := by
  obtain h | h := hs <;> rw [simpleCase, h]

/-- What begins with the character that a value stops at. -/
theorem elementAttrValue_head (cfg : Config) {r : Reader} {first u : Bytes} {as : StringPairList} {c : UInt8}
    (hattribs : r.attribs = (first, u) :: as) (hc : c = quote r.state ∨ c = byte '&') (rest : Bytes) :
    elementAttrValue cfg r (c :: rest) =
      if MAX_VALUE_SIZE < u.length then .error r (c :: rest) "Buffer overflow"
      else if c = quote r.state then
        match decodeString cfg r.encoding u with
        | none => .error r (c :: rest) "Malformed UTF-8 data"
        | some second => .ret true { r with attribs := (first, second) :: as, state := .ELEMENT_ATTR } rest
      else
        match entref u (c :: rest) with
        | .overflow => .error r (c :: rest) "Buffer overflow"
        | .no => .ret false r (c :: rest)
        | .yes second buf => .ret true { r with attribs := (first, second) :: as } buf := by
  have hstop : ¬(!(decide (c = quote r.state) || decide (c = byte '&'))) = true := by
    obtain h | h := hc <;> simp [h]
  have hsame : { r with attribs := (first, u) :: as } = r := by rw [← hattribs]
  rw [elementAttrValue, hattribs]
  dsimp only
  rw [List.takeWhile_cons_of_neg (p := fun c => !(decide (c = quote r.state) || decide (c = byte '&'))) hstop,
    List.dropWhile_cons_of_neg (p := fun c => !(decide (c = quote r.state) || decide (c = byte '&'))) hstop]
  by_cases hlt : MAX_VALUE_SIZE < u.length
  · rw [if_pos hlt, append_of_lt (by rwa [List.append_nil])]
  · rw [if_neg hlt, append_of_le (by rw [List.append_nil]; omega), List.append_nil]
    dsimp only
    rewrite [hsame]
    rfl

/-- The characters that a value stops at. -/
def valueStops (s : ParseState) (c : UInt8) : Bool := c = quote s || c = byte '&'

/-- Nothing more of a value, or one that is too long already. -/
theorem elementAttrValue_nil_stable (cfg : Config) {r : Reader} {first u : Bytes} {as : StringPairList}
    (hattribs : r.attribs = (first, u) :: as) (more : Bytes) :
    (elementAttrValue cfg r []).Stable (elementAttrValue cfg r ([] ++ more)) r [] more := by
  by_cases hle : u.length ≤ MAX_VALUE_SIZE
  · have hsame : { r with attribs := (first, u) :: as } = r := by rw [← hattribs]
    rw [elementAttrValue, hattribs]
    dsimp only
    rw [List.takeWhile_nil, List.dropWhile_nil, append_of_le (by rwa [List.append_nil]), List.append_nil]
    dsimp only
    rw [hsame]
    exact stable_wait _ _ _ _
  · have hover (buf : Bytes) : elementAttrValue cfg r buf = .error r buf "Buffer overflow" := by
      rw [elementAttrValue, hattribs]
      dsimp only
      rw [append_of_lt (by rw [List.length_append]; omega)]
    rw [hover, hover]
    exact ⟨_, _, _, rfl, rfl⟩

/-- Where a value stops, unless its reference is cut off. -/
theorem elementAttrValue_head_stable (cfg : Config) {r : Reader} {first u : Bytes} {as : StringPairList} {c : UInt8}
    (hattribs : r.attribs = (first, u) :: as) (hc : c = quote r.state ∨ c = byte '&') {rest more : Bytes}
    (hcut : ¬CutRef (c :: rest) more) :
    (elementAttrValue cfg r (c :: rest)).Stable (elementAttrValue cfg r (c :: rest ++ more)) r (c :: rest) more := by
  rw [List.cons_append, elementAttrValue_head cfg hattribs hc, elementAttrValue_head cfg hattribs hc]
  split
  next => exact ⟨_, _, _, rfl, rfl⟩
  next =>
    split
    next =>
      cases decodeString cfg r.encoding u with
      | none => exact ⟨_, _, _, rfl, rfl⟩
      | some second => exact Or.inr rfl
    next hquote =>
      obtain rfl := hc.resolve_left hquote
      cases hent : entref u (byte '&' :: rest) with
      | overflow =>
        rw [← List.cons_append, entref_append_overflow hent]
        exact ⟨_, _, _, rfl, rfl⟩
      | no =>
        rw [← List.cons_append, entref_append_no rfl hent hcut]
        exact stable_false _ _ _
      | yes d buf' =>
        by_cases hlen : 6 < (byte '&' :: rest).length
        · rw [← List.cons_append, entref_append_yes hlen hent]
          exact Or.inr rfl
        · obtain ⟨_, rfl, rfl⟩ | ⟨hlt, _⟩ := entref_yes hent
          · exact Or.inl ⟨by rw [← hattribs], rfl⟩
          · exact absurd hlt hlen

theorem agrees_value {cfg : Config} {r : Reader} {buf more : Bytes}
    (hs : r.state = .ELEMENT_ATTR_VALUE_APOS ∨ r.state = .ELEMENT_ATTR_VALUE_QUOT)
    (hcut : ¬CutRef (buf.dropWhile fun c => !valueStops r.state c) more) : Agrees cfg r buf more := by
  have hend : r.state ≠ .END := by
    obtain h | h := hs <;> rw [h] <;> decide
  have hname : ¬(r.state = .DECL_ENCODING_NAME_APOS ∨ r.state = .DECL_ENCODING_NAME_QUOT) := by
    obtain h | h := hs <;> rw [h] <;> decide
  have hstable (r : Reader) (buf : Bytes) (hs : r.state = .ELEMENT_ATTR_VALUE_APOS ∨ r.state = .ELEMENT_ATTR_VALUE_QUOT)
      (h : (elementAttrValue cfg r buf).Stable (elementAttrValue cfg r (buf ++ more)) r buf more) :
      (simpleCase cfg r buf).Stable (simpleCase cfg r (buf ++ more)) r buf more := by
    rw [simpleCase_value cfg hs, simpleCase_value cfg hs]
    exact h.or (stable_error _ r buf more)
  cases hattribs : r.attribs with
  | nil =>
    apply agrees_of_stable hend hname (hstable r buf hs _)
    rw [elementAttrValue, elementAttrValue, hattribs]
    exact ⟨_, _, _, rfl, rfl⟩
  | cons a as =>
    obtain ⟨first, u⟩ := a
    induction buf generalizing r u with
    | nil => exact agrees_of_stable hend hname (hstable r [] hs (elementAttrValue_nil_stable cfg hattribs more))
    | cons c rest ih =>
      by_cases hc : valueStops r.state c = true
      · rw [List.dropWhile_cons_of_neg (by simp [hc])] at hcut
        rw [valueStops, Bool.or_eq_true, decide_eq_true_iff, decide_eq_true_iff] at hc
        exact agrees_of_stable hend hname (hstable r _ hs (elementAttrValue_head_stable cfg hattribs hc hcut))
      · rw [List.dropWhile_cons_of_pos (by simpa using hc)] at hcut
        rw [valueStops, Bool.or_eq_true, decide_eq_true_iff, decide_eq_true_iff, not_or] at hc
        exact agrees_of_absorbs (absorbs_value cfg rest hs hattribs hc.1 hc.2)
          (absorbs_value cfg (rest ++ more) hs hattribs hc.1 hc.2) (not_stalled hname rest)
          (ih (r := { r with attribs := (first, u ++ [c]) :: as }) hs hcut hend hname _ rfl)

theorem Inside.append {c stop : UInt8} {buf : Bytes} (h : Inside c stop buf) (more : Bytes) :
    Inside c stop (buf ++ more) := by
  obtain h | ⟨c₁, c₂, rest, rfl, h⟩ := h
  · exact Or.inl h
  · exact Or.inr ⟨c₁, c₂, rest ++ more, rfl, h⟩

/-- What may follow a character in a comment or a section. -/
theorem inside_cases (c stop : UInt8) (buf : Bytes) :
    Inside c stop buf ∨ c = stop ∧ (buf.length < 2 ∨ ∃ rest, buf = stop :: byte '>' :: rest) := by
  by_cases hc : c = stop
  · match buf with
    | [] => exact Or.inr ⟨hc, Or.inl (by decide)⟩
    | [c₁] => exact Or.inr ⟨hc, Or.inl (Nat.lt_succ_self 1)⟩
    | c₁ :: c₂ :: rest =>
      by_cases h : c₁ = stop ∧ c₂ = byte '>'
      · obtain ⟨rfl, rfl⟩ := h
        exact Or.inr ⟨hc, Or.inr ⟨rest, rfl⟩⟩
      · exact Or.inl (Or.inr ⟨c₁, c₂, rest, rfl, h⟩)
  · exact Or.inl (Or.inl hc)

theorem agrees_comment {cfg : Config} {r : Reader} (hs : r.state = .COMMENT) (buf more : Bytes) :
    Agrees cfg r buf more := by
  have hstable (buf : Bytes) (h : (comment r buf).Stable (comment r (buf ++ more)) r buf more) :
      Agrees cfg r buf more := by
    have hcase (buf : Bytes) : simpleCase cfg r buf = (comment r buf).or (error "Error while parsing comment") := by
      rw [simpleCase, hs]
    apply agrees_of_stable (by simp [hs]) (by simp [hs])
    rw [hcase, hcase]
    exact h.or (stable_error _ r buf more)
  induction buf with
  | nil => exact hstable [] (stable_wait _ _ _ _)
  | cons c rest ih =>
    obtain h | ⟨rfl, hlt | ⟨rest, rfl⟩⟩ := inside_cases c (byte '-') rest
    · exact agrees_of_absorbs (absorbs_comment cfg hs h) (absorbs_comment cfg hs (h.append more))
        (not_stalled (by simp [hs]) rest) ih
    · apply hstable
      obtain _ | ⟨c, _ | ⟨c', rest⟩⟩ := rest
      · exact stable_wait _ _ _ _
      · exact stable_wait _ _ _ _
      · exact absurd hlt (by simp)
    · exact hstable _ (Or.inr rfl)

theorem agrees_cdata {cfg : Config} {r : Reader} (hs : r.state = .CDATA) (buf more : Bytes) :
    Agrees cfg r buf more := by
  have hstable (r : Reader) (buf : Bytes) (hs : r.state = .CDATA)
      (h : (cdata r buf).Stable (cdata r (buf ++ more)) r buf more) : Agrees cfg r buf more := by
    have hcase (buf : Bytes) : simpleCase cfg r buf = (cdata r buf).or (error "Error while parsing CDATA") := by
      rw [simpleCase, hs]
    apply agrees_of_stable (by simp [hs]) (by simp [hs])
    rw [hcase, hcase]
    exact h.or (stable_error _ r buf more)
  induction buf generalizing r with
  | nil => exact hstable r [] hs (stable_wait _ _ _ _)
  | cons c rest ih =>
    obtain h | ⟨rfl, hlt | ⟨rest, rfl⟩⟩ := inside_cases c (byte ']') rest
    · by_cases hle : (r.value ++ [c]).length ≤ MAX_VALUE_SIZE
      · exact agrees_of_absorbs (absorbs_cdata cfg hs h hle) (absorbs_cdata cfg hs (h.append more) hle)
          (not_stalled (by simp [hs]) rest) (ih hs)
      · apply hstable r _ hs
        rw [List.cons_append, cdata_inside r h, cdata_inside r (h.append more), append_of_lt (Nat.lt_of_not_le hle)]
        exact ⟨_, _, _, rfl, rfl⟩
    · apply hstable r _ hs
      obtain _ | ⟨c, _ | ⟨c', rest⟩⟩ := rest
      · exact stable_wait _ _ _ _
      · exact stable_wait _ _ _ _
      · exact absurd hlt (by simp)
    · exact hstable r _ hs (Or.inr rfl)

theorem agrees_end_simple {cfg : Config} {r : Reader} (hs : r.state = .ELEMENT_END_SIMPLE) (buf more : Bytes) :
    Agrees cfg r buf more := by
  have hcase (buf : Bytes) : simpleCase cfg r buf = (elementEndSimple r buf).or (error "Expecting >") := by
    rw [simpleCase, hs]
  apply agrees_of_stable (by simp [hs]) (by simp [hs])
  rw [hcase, hcase]
  exact (elementEndSimple_stable r buf more).or (stable_error _ r buf more)

theorem skipSpace_of_not_space {c : UInt8} (hc : isSpace c = false) (r : Reader) (rest : Bytes) :
    skipSpace true r (c :: rest) = .ret false r (c :: rest) := by
  rw [skipSpace, if_neg (by simp), skipLoop, if_neg (by simp [hc])]

/-- The last space before something else. -/
theorem skipSpace_last {c c' : UInt8} (hc : isSpace c = true) (hc' : isSpace c' = false) (r : Reader) (rest : Bytes) :
    skipSpace true r (c :: c' :: rest) =
      if (r.value ++ [c]).length ≤ MAX_VALUE_SIZE then .ret true { r with value := r.value ++ [c] } (c' :: rest)
      else .error r (c :: c' :: rest) "Buffer overflow" := by
  rw [skipSpace, if_neg (by simp), skipLoop_space false r _ hc]
  split
  next => rw [skipLoop, if_neg (by simp [hc'])]
  next => rfl

/-- A space that nothing follows yet. -/
theorem skipSpace_single {c : UInt8} (hc : isSpace c = true) (r : Reader) :
    skipSpace true r [c] =
      if (r.value ++ [c]).length ≤ MAX_VALUE_SIZE then .ret true { r with value := r.value ++ [c] } []
      else .error r [c] "Buffer overflow" := by
  rw [skipSpace, if_neg (by simp), skipLoop_space false r _ hc]
  rfl

/-- The parsers of content, once it is known what the space before them does. -/
theorem simpleCase_content_stable (cfg : Config) {r : Reader} (hs : r.state = .CONTENT) {buf more : Bytes}
    (hcut : ¬CutRef buf more) (h : (skipSpace true r buf).Stable (skipSpace true r (buf ++ more)) r buf more) :
    (simpleCase cfg r buf).Stable (simpleCase cfg r (buf ++ more)) r buf more := by
  rw [simpleCase_content cfg hs, simpleCase_content cfg hs]
  exact (((((h.or (literal_stable _ _ _ r buf more)).or (literal_stable _ _ _ r buf more)).or
    (element_stable r buf more)).or (literal_stable _ _ _ r buf more)).or (content_stable r hcut)).or
    (stable_error _ r buf more)

/-- Space at the end of the buffer goes on in what comes later. -/
theorem agrees_content_single {cfg : Config} {r : Reader} {c : UInt8} (hs : r.state = .CONTENT) (hc : isSpace c = true)
    (hle : (r.value ++ [c]).length ≤ MAX_VALUE_SIZE) (more : Bytes) : Agrees cfg r [c] more := by
  have hstep (rest : Bytes)
      (h : skipSpace true r (c :: rest) = .ret true { r with value := r.value ++ [c] } rest) :
      machine cfg r (c :: rest) (.next { r with value := r.value ++ [c] } rest) := by
    have hcase : simpleCase cfg r (c :: rest) = .ret true { r with value := r.value ++ [c] } rest := by
      rw [simpleCase_content cfg hs, h]
      rfl
    rw [machine_simple (by simp [hs]) (by simp [hs]), hcase, roundEnd, if_neg (by simp), if_neg (by simp [hs])]
    rfl
  have hnow : machine cfg r [c] (.next { r with value := r.value ++ [c] } []) :=
    hstep [] (by rw [skipSpace_single hc, if_pos hle])
  constructor
  · intro t d hnext
    obtain ⟨rfl, rfl⟩ := Step.next.inj (machine_det cfg _ _ _ _ hnext hnow)
    cases more with
    | nil => exact leads_of_next hnow
    | cons c' rest =>
      by_cases hc' : isSpace c' = true
      · exact (absorbs_space cfg rest hs hc hc').leads
      · apply leads_of_next (hstep (c' :: rest) _)
        rw [skipSpace_last hc (eq_false_of_ne_true hc'), if_pos hle]
  · intro e hstop
    cases machine_det cfg _ _ _ _ hstop hnow

theorem agrees_content {cfg : Config} {r : Reader} {buf more : Bytes} (hs : r.state = .CONTENT)
    (hcut : ¬CutRef buf more) : Agrees cfg r buf more := by
  have hname : ¬(r.state = .DECL_ENCODING_NAME_APOS ∨ r.state = .DECL_ENCODING_NAME_QUOT) := by simp [hs]
  have hstable (r : Reader) (buf : Bytes) (hs : r.state = .CONTENT) (hcut : ¬CutRef buf more)
      (h : (skipSpace true r buf).Stable (skipSpace true r (buf ++ more)) r buf more) : Agrees cfg r buf more :=
    agrees_of_stable (by simp [hs]) (by simp [hs]) (simpleCase_content_stable cfg hs hcut h)
  induction buf generalizing r with
  | nil => exact hstable r [] hs hcut (stable_wait _ _ _ _)
  | cons c rest ih =>
    by_cases hc : isSpace c = true
    · cases rest with
      | nil =>
        by_cases hle : (r.value ++ [c]).length ≤ MAX_VALUE_SIZE
        · exact agrees_content_single hs hc hle more
        · apply hstable r [c] hs hcut
          rw [skipSpace, if_neg (by simp), skipLoop_space false r _ hc, if_neg hle, skipSpace, if_neg (by simp),
            List.cons_append, skipLoop_space false r _ hc, if_neg hle]
          exact ⟨_, _, _, rfl, rfl⟩
      | cons c' rest =>
        by_cases hc' : isSpace c' = true
        · have hcut' : ¬CutRef (c' :: rest) more := fun h =>
            ne_of_isSpace (by decide) hc' (Option.some.inj h.1).symm
          exact agrees_of_absorbs (absorbs_space cfg rest hs hc hc') (absorbs_space cfg (rest ++ more) hs hc hc')
            (not_stalled hname (c' :: rest)) (ih (r := { r with value := r.value ++ [c] }) hs hcut' hname)
        · apply hstable r _ hs hcut
          rw [List.cons_append, List.cons_append, skipSpace_last hc (eq_false_of_ne_true hc'),
            skipSpace_last hc (eq_false_of_ne_true hc')]
          split
          next => exact Or.inr rfl
          next => exact ⟨_, _, _, rfl, rfl⟩
    · apply hstable r _ hs hcut
      rw [List.cons_append, skipSpace_of_not_space (eq_false_of_ne_true hc),
        skipSpace_of_not_space (eq_false_of_ne_true hc)]
      exact stable_false _ _ _

end Dcpp.SimpleXMLReader
