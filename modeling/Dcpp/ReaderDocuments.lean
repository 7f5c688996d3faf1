import Dcpp.ReaderAbsorbs
import Dcpp.SimpleXML

namespace Dcpp.SimpleXMLReader

open Incremental

/-- A round in which the parsers take something and no text ends. -/
theorem machine_next {cfg : Config} {r r' : Reader} {buf buf' : Bytes} {b : Bool} (hend : r.state ≠ .END)
    (hname : ¬(r.state = .DECL_ENCODING_NAME_APOS ∨ r.state = .DECL_ENCODING_NAME_QUOT))
    (h : simpleCase cfg r buf = .ret b r' buf') (hlen : buf'.length < buf.length)
    (hvalue : ¬(r.state = .CONTENT ∧ r'.state ≠ .CONTENT ∧ r'.value ≠ [])) : machine cfg r buf (.next r' buf') := by
  refine ⟨0, .next r' buf', ?_, rfl⟩
  rw [round, if_neg hend, switch, if_neg hname, h, Option.map_some, roundEnd, if_neg (by omega), if_neg hvalue]

/-- The callback for the text that ends. -/
def textCalls (value : Bytes) : List CallBack := if value = [] then [] else [.data value]

/-- A round that leaves the content. -/
theorem machine_leave {cfg : Config} {r : Reader} (r' : Reader) {buf buf' : Bytes} {b : Bool} (hs : r.state = .CONTENT)
    (h : simpleCase cfg r buf = .ret b r' buf') (hs' : r'.state ≠ .CONTENT) (hlen : buf'.length < buf.length)
    (hdec : decodeString cfg r'.encoding r'.value = some r'.value) :
    machine cfg r buf (.next { r' with calls := r'.calls ++ textCalls r'.value, value := [] } buf') := by
  by_cases hv : r'.value = []
  · have heq : { r' with calls := r'.calls ++ textCalls r'.value, value := [] } = r' := by
      obtain ⟨_, value, _, _, _, _⟩ := r'
      cases hv
      simp [textCalls]
    rw [heq]
    exact machine_next (by simp [hs]) (by simp [hs]) h hlen fun ⟨_, _, hne⟩ => hne hv
  · refine ⟨0, .next { r' with calls := r'.calls ++ [.data r'.value], value := [] } buf', ?_, ?_⟩
    · rw [round, if_neg (by simp [hs]), switch, if_neg (by simp [hs]), h, Option.map_some, roundEnd,
        if_neg (by omega), if_pos ⟨hs, hs', hv⟩, hdec]
    · rw [textCalls, if_neg hv]
      rfl

theorem decodeString_of_valid (cfg : Config) {encoding s : Bytes} (hencoding : encoding = [] ∨ encoding = Text.utf8)
    (hs : Text.validateUtf8 cfg.platform.wcharBits s = true) : decodeString cfg encoding s = some s := by
  rw [decodeString, if_neg, if_pos hs]
  rintro ⟨hne, hne'⟩
  exact hencoding.elim hne hne'

theorem nameStart_ne {c : UInt8} (h : isNameStartChar c = true) :
    c ≠ byte '!' ∧ c ≠ byte '?' ∧ c ≠ byte '/' ∧ isSpace c = false := by
  refine ⟨?_, ?_, ?_, ?_⟩
  · rintro rfl
    cases h
  · rintro rfl
    cases h
  · rintro rfl
    cases h
  · rw [isSpace]
    refine eq_false_of_ne_true fun hs => ?_
    simp only [Bool.or_eq_true, decide_eq_true_eq] at hs
    obtain ((rfl | rfl) | rfl) | rfl := hs <;> cases h

theorem length_lt (c : UInt8) (w rest : Bytes) : rest.length < (c :: w ++ rest).length := by
  rw [List.length_append, List.length_cons]
  omega

theorem element_start {r : Reader} {c : UInt8} (hc : isNameStartChar c = true) (hdepth : r.elements.length < MAX_NESTING)
    (rest : Bytes) : element r (byte '<' :: c :: rest) =
      .ret true { r with state := .ELEMENT_NAME, elements := [c] :: r.elements } rest := by
  rw [element, if_pos (by simp [hc]), if_neg (by omega)]

/-- The beginning of a document's first element. -/
theorem reads_first (cfg : Config) (enc : Bytes) {c : UInt8} (hc : isNameStartChar c = true) :
    Reads (machine cfg) (fun _ => True) ⟨[], [], enc, .START, [], []⟩ [byte '<', c]
      ⟨[], [], enc, .ELEMENT_NAME, [[c]], []⟩ := by
  apply Reads.single
  intro rest _
  obtain ⟨hbang, hquestion, _, _⟩ := nameStart_ne hc
  refine machine_next (by simp) (by simp) (b := true) ?_ (length_lt _ _ _) (by simp)
  change ((((literal (0xef :: _) _ _ _ (byte '<' :: c :: rest)).or (literal (byte '<' :: byte '?' :: str "xml") _ _)).or
    (literal (byte '<' :: byte '!' :: str "--") _ _)).or element).or _ = _
  rw [literal_false_head (by decide), ret_false_or, literal_false hquestion.symm, ret_false_or,
    literal_false hbang.symm, ret_false_or, element_start hc (by simp [MAX_NESTING]), ret_true_or]

/-- The beginning of an element in content; the text before it ends. -/
theorem reads_element (cfg : Config) {v enc : Bytes} {es : List Bytes} (cs : List CallBack) {c : UInt8}
    (hc : isNameStartChar c = true) (hdepth : es.length < MAX_NESTING) (hdec : decodeString cfg enc v = some v) :
    Reads (machine cfg) (fun _ => True) ⟨[], v, enc, .CONTENT, es, cs⟩ [byte '<', c]
      ⟨[], [], enc, .ELEMENT_NAME, [c] :: es, cs ++ textCalls v⟩ := by
  apply Reads.single
  intro rest _
  obtain ⟨hbang, _, _, _⟩ := nameStart_ne hc
  refine machine_leave (b := true) ⟨[], v, enc, .ELEMENT_NAME, [c] :: es, cs⟩ rfl ?_ (by simp)
    (length_lt _ _ _) hdec
  change ((((((Result.ret false _ (byte '<' :: c :: rest)).or (literal (byte '<' :: byte '!' :: str "--") _ _)).or
    (literal (byte '<' :: byte '!' :: str "[CDATA[") _ _)).or element).or _).or _).or _ = _
  rw [ret_false_or, literal_false hbang.symm, ret_false_or, literal_false hbang.symm, ret_false_or, element_start hc hdepth,
    ret_true_or, ret_true_or, ret_true_or]

theorem takeWhile_piece {p : UInt8 → Bool} {w : Bytes} (hw : ∀ b ∈ w, p b = true) {c : UInt8} (hc : p c = false)
    (rest : Bytes) : (w ++ c :: rest).takeWhile p = w := by
  rw [List.takeWhile_append_of_pos hw, List.takeWhile_cons_of_neg (by simp [hc]), List.append_nil]

theorem dropWhile_piece {p : UInt8 → Bool} {w : Bytes} (hw : ∀ b ∈ w, p b = true) {c : UInt8} (hc : p c = false)
    (rest : Bytes) : (w ++ c :: rest).dropWhile p = c :: rest := by
  rw [List.dropWhile_append_of_pos hw, List.dropWhile_cons_of_neg (by simp [hc])]

section Names

variable (cfg : Config) {as : StringPairList} {v enc top w : Bytes} {es : List Bytes} (cs : List CallBack)
  (hw : ∀ b ∈ w, isNameChar b = true) (hlen : (top ++ w).length ≤ MAX_NAME_SIZE)

include hw hlen

/-- The rest of an element's name, up to one of the characters that end it. -/
theorem elementName_piece {c : UInt8} (hc : isNameChar c = false)
    (hend : (isSpace c || c = byte '/' || c = byte '>') = true) (rest : Bytes) :
    elementName ⟨as, v, enc, .ELEMENT_NAME, top :: es, cs⟩ (w ++ c :: rest) =
      if isSpace c then .ret true ⟨as, v, enc, .ELEMENT_ATTR, (top ++ w) :: es, cs⟩ rest
      else if c = byte '/' then .ret true ⟨as, v, enc, .ELEMENT_END_SIMPLE, (top ++ w) :: es, cs⟩ rest
      else .ret true ⟨[], v, enc, .CONTENT, (top ++ w) :: es, cs ++ [.startTag (top ++ w) as.reverse false]⟩ rest := by
  rw [elementName]
  dsimp only
  rw [dropWhile_piece hw hc, takeWhile_piece hw hc, append_of_le hlen]
  exact if_pos hend

/-- The rest of an element's name, with a space after it. -/
theorem reads_name_space :
    Reads (machine cfg) (fun _ => True) ⟨as, v, enc, .ELEMENT_NAME, top :: es, cs⟩ (w ++ [byte ' '])
      ⟨as, v, enc, .ELEMENT_ATTR, (top ++ w) :: es, cs⟩ := by
  apply Reads.single
  intro rest _
  rw [List.append_assoc]
  refine machine_next (by simp) (by simp) (b := true) ?_ (by simp; omega) (by simp)
  change (elementName _ (w ++ byte ' ' :: rest)).or _ = _
  rw [elementName_piece cs hw hlen (by decide) (by decide)]
  rfl

/-- The rest of an element's name, with a slash after it. -/
theorem reads_name_simple :
    Reads (machine cfg) (fun _ => True) ⟨as, v, enc, .ELEMENT_NAME, top :: es, cs⟩ (w ++ [byte '/'])
      ⟨as, v, enc, .ELEMENT_END_SIMPLE, (top ++ w) :: es, cs⟩ := by
  apply Reads.single
  intro rest _
  rw [List.append_assoc]
  refine machine_next (by simp) (by simp) (b := true) ?_ (by simp; omega) (by simp)
  change (elementName _ (w ++ byte '/' :: rest)).or _ = _
  rw [elementName_piece cs hw hlen (by decide) (by decide)]
  rfl

/-- The rest of an element's name, with which the tag ends. -/
theorem reads_name_open :
    Reads (machine cfg) (fun _ => True) ⟨as, v, enc, .ELEMENT_NAME, top :: es, cs⟩ (w ++ [byte '>'])
      ⟨[], v, enc, .CONTENT, (top ++ w) :: es, cs ++ [.startTag (top ++ w) as.reverse false]⟩ := by
  apply Reads.single
  intro rest _
  rw [List.append_assoc]
  refine machine_next (by simp) (by simp) (b := true) ?_ (by simp; omega) (by simp)
  change (elementName _ (w ++ byte '>' :: rest)).or _ = _
  rw [elementName_piece cs hw hlen (by decide) (by decide)]
  rfl

/-- The rest of an attribute's name. -/
theorem reads_attr_name {second : Bytes} :
    Reads (machine cfg) (fun _ => True) ⟨(top, second) :: as, v, enc, .ELEMENT_ATTR_NAME, es, cs⟩ (w ++ [byte '='])
      ⟨(top ++ w, second) :: as, v, enc, .ELEMENT_ATTR_VALUE, es, cs⟩ := by
  apply Reads.single
  intro rest _
  rw [List.append_assoc]
  refine machine_next (by simp) (by simp) (b := true) ?_ (by simp; omega) (by simp)
  change (elementAttrName _ (w ++ byte '=' :: rest)).or _ = _
  rw [elementAttrName]
  dsimp only
  rw [dropWhile_piece hw (by decide), takeWhile_piece hw (by decide), append_of_le hlen]
  rfl

end Names

section Tags

variable (cfg : Config) {as : StringPairList} {enc : Bytes} {es : List Bytes} {cs : List CallBack}

theorem reads_attr_start {c : UInt8} (hc : isNameStartChar c = true) :
    Reads (machine cfg) (fun _ => True) ⟨as, [], enc, .ELEMENT_ATTR, es, cs⟩ [c]
      ⟨([c], []) :: as, [], enc, .ELEMENT_ATTR_NAME, es, cs⟩ := by
  apply Reads.single
  intro rest _
  refine machine_next (by simp) (by simp) (b := true) ?_ (length_lt _ _ _) (by simp)
  change (((elementAttr _ (c :: rest)).or _).or _).or _ = _
  rw [elementAttr, if_pos hc, ret_true_or, ret_true_or, ret_true_or]

theorem reads_quote :
    Reads (machine cfg) (fun _ => True) ⟨as, [], enc, .ELEMENT_ATTR_VALUE, es, cs⟩ [byte '"']
      ⟨as, [], enc, .ELEMENT_ATTR_VALUE_QUOT, es, cs⟩ := by
  apply Reads.single
  intro rest _
  exact machine_next (by simp) (by simp) (b := true) rfl (length_lt _ _ _) (by simp)

/-- The space before an attribute. -/
theorem reads_attr_space :
    Reads (machine cfg) (fun rest => isSpace (charAt rest 0) = false) ⟨as, [], enc, .ELEMENT_ATTR, es, cs⟩ [byte ' ']
      ⟨as, [], enc, .ELEMENT_ATTR, es, cs⟩ := by
  apply Reads.single
  intro rest hrest
  refine machine_next (by simp) (by simp) (b := true) ?_ (length_lt _ _ _) (by simp)
  change spaceOrError _ _ (byte ' ' :: rest) = _
  have hdrop : rest.dropWhile isSpace = rest := by
    cases rest with
    | nil => rfl
    | cons c rest => exact List.dropWhile_cons_of_neg (by simpa [charAt] using hrest)
  rw [spaceOrError_eq, if_pos (by rfl), List.dropWhile_cons_of_pos rfl, hdrop]

theorem reads_attr_slash :
    Reads (machine cfg) (fun _ => True) ⟨as, [], enc, .ELEMENT_ATTR, es, cs⟩ [byte '/']
      ⟨as, [], enc, .ELEMENT_END_SIMPLE, es, cs⟩ := by
  apply Reads.single
  intro rest _
  exact machine_next (by simp) (by simp) (b := true) rfl (length_lt _ _ _) (by simp)

theorem reads_attr_close {top : Bytes} :
    Reads (machine cfg) (fun _ => True) ⟨as, [], enc, .ELEMENT_ATTR, top :: es, cs⟩ [byte '>']
      ⟨[], [], enc, .CONTENT, top :: es, cs ++ [.startTag top as.reverse false]⟩ := by
  apply Reads.single
  intro rest _
  exact machine_next (by simp) (by simp) (b := true) rfl (length_lt _ _ _) (by simp)

theorem reads_simple_close {top : Bytes} :
    Reads (machine cfg) (fun _ => True) ⟨as, [], enc, .ELEMENT_END_SIMPLE, top :: es, cs⟩ [byte '>']
      ⟨[], [], enc, .CONTENT, es, cs ++ [.startTag top as.reverse true]⟩ := by
  apply Reads.single
  intro rest _
  exact machine_next (by simp) (by simp) (b := true) rfl (length_lt _ _ _) (by simp)

/-- The beginning of an end tag; the text before it ends. -/
theorem reads_end_start {v : Bytes} (hdec : decodeString cfg enc v = some v) :
    Reads (machine cfg) (fun _ => True) ⟨as, v, enc, .CONTENT, es, cs⟩ [byte '<', byte '/']
      ⟨as, [], enc, .ELEMENT_END, es, cs ++ textCalls v⟩ := by
  apply Reads.single
  intro rest _
  exact machine_leave (b := true) ⟨as, v, enc, .ELEMENT_END, es, cs⟩ rfl rfl (by simp) (length_lt _ _ _) hdec

theorem reads_end_name {top : Bytes} (htop : top ≠ []) :
    Reads (machine cfg) (fun _ => True) ⟨as, [], enc, .ELEMENT_END, top :: es, cs⟩ top
      ⟨as, [], enc, .ELEMENT_END_END, top :: es, cs⟩ := by
  apply Reads.single
  intro rest _
  have hpos := List.length_pos_iff.mpr htop
  refine machine_next (by simp) (by simp) (b := true) ?_ (by simp; omega) (by simp)
  change (elementEnd _ (top ++ rest)).or _ = _
  rw [elementEnd]
  dsimp only
  rw [if_neg (by simp [needChars]), List.take_left, if_pos rfl, List.drop_left]
  rfl

theorem reads_end_end {top : Bytes} :
    Reads (machine cfg) (fun _ => True) ⟨as, [], enc, .ELEMENT_END_END, top :: es, cs⟩ [byte '>']
      ⟨as, [], enc, .CONTENT, es, cs ++ [.endTag top]⟩ := by
  apply Reads.single
  intro rest _
  exact machine_next (by simp) (by simp) (b := true) rfl (length_lt _ _ _) (by simp)

end Tags

/-- What the five named references stand for. -/
inductive Named : Bytes → UInt8 → Prop where
  | lt : Named (str "&lt;") (byte '<')
  | gt : Named (str "&gt;") (byte '>')
  | amp : Named (str "&amp;") (byte '&')
  | quot : Named (str "&quot;") (byte '"')
  | apos : Named (str "&apos;") (byte '\'')

/-- A text that the reader takes for a value, up to `stop`: characters and named references. -/
inductive Spells (stop : UInt8) : Bytes → Bytes → Prop where
  | nil : Spells stop [] []
  | char {c : UInt8} {w s : Bytes} : c ≠ stop → c ≠ byte '&' → Spells stop w s → Spells stop (c :: w) (c :: s)
  | ref {e w s : Bytes} {c : UInt8} : Named e c → Spells stop w s → Spells stop (e ++ w) (c :: s)

theorem entref_named {e d rest : Bytes} {c : UInt8} (h : Named e c) (hd : d.length + 1 < MAX_VALUE_SIZE)
    (hrest : 6 < (e ++ rest).length) : entref d (e ++ rest) = .yes (d ++ [c]) rest := by
  rw [entref, if_neg (by omega), if_pos hrest]
  cases h <;> rfl

theorem named_amp {e : Bytes} {c : UInt8} (h : Named e c) : ∃ e', e = byte '&' :: e' ∧ 3 ≤ e'.length := by
  cases h with
  | lt => exact ⟨str "lt;", rfl, by decide⟩
  | gt => exact ⟨str "gt;", rfl, by decide⟩
  | amp => exact ⟨str "amp;", rfl, by decide⟩
  | quot => exact ⟨str "quot;", rfl, by decide⟩
  | apos => exact ⟨str "apos;", rfl, by decide⟩

theorem elementAttrValue_quote (cfg : Config) {r : Reader} {first u : Bytes} {as : StringPairList}
    (hattribs : r.attribs = (first, u) :: as) (hlen : u.length ≤ MAX_VALUE_SIZE)
    (hdec : decodeString cfg r.encoding u = some u) (rest : Bytes) :
    elementAttrValue cfg r (quote r.state :: rest) =
      .ret true { r with attribs := (first, u) :: as, state := .ELEMENT_ATTR } rest := by
  rw [elementAttrValue, hattribs]
  dsimp only
  rw [List.takeWhile_cons_of_neg (by simp), List.dropWhile_cons_of_neg (by simp), append_of_le (by simpa using hlen),
    List.append_nil]
  dsimp only
  rw [if_pos rfl, hdec]

theorem elementAttrValue_ref (cfg : Config) {r : Reader} {first u d' : Bytes} {as : StringPairList} {buf buf' : Bytes}
    (hattribs : r.attribs = (first, u) :: as) (hlen : u.length ≤ MAX_VALUE_SIZE)
    (hent : entref u (byte '&' :: buf) = .yes d' buf') :
    elementAttrValue cfg r (byte '&' :: buf) = .ret true { r with attribs := (first, d') :: as } buf' := by
  rw [elementAttrValue, hattribs]
  dsimp only
  rw [List.takeWhile_cons_of_neg (by simp), List.dropWhile_cons_of_neg (by simp), append_of_le (by simpa using hlen),
    List.append_nil]
  dsimp only
  rw [if_neg (quote_ne r.state), hent]

/-- An attribute's value, with the quote that ends it. -/
theorem reads_value (cfg : Config) {enc first w s : Bytes} {as : StringPairList} {es : List Bytes} {cs : List CallBack}
    (h : Spells (byte '"') w s) (u : Bytes) (hlen : (u ++ s).length < MAX_VALUE_SIZE)
    (hdec : decodeString cfg enc (u ++ s) = some (u ++ s)) :
    Reads (machine cfg) (fun rest => 2 ≤ rest.length) ⟨(first, u) :: as, [], enc, .ELEMENT_ATTR_VALUE_QUOT, es, cs⟩
      (w ++ [byte '"']) ⟨(first, u ++ s) :: as, [], enc, .ELEMENT_ATTR, es, cs⟩ := by
  induction h generalizing u with
  | nil =>
    apply Reads.single
    intro rest _
    rw [List.append_nil] at hdec hlen ⊢
    refine machine_next (by simp) (by simp) (b := true) ?_ (length_lt _ _ _) (by simp)
    change (elementAttrValue cfg ⟨(first, u) :: as, [], enc, .ELEMENT_ATTR_VALUE_QUOT, es, cs⟩
      (quote .ELEMENT_ATTR_VALUE_QUOT :: rest)).or _ = _
    rw [elementAttrValue_quote cfg rfl (Nat.le_of_lt hlen) hdec, ret_true_or]
  | @char c w s hquote hamp _ ih =>
    intro rest hrest
    have hsplit : u ++ c :: s = u ++ [c] ++ s := by simp
    rw [hsplit] at hlen hdec ⊢
    exact (absorbs_value cfg _ (Or.inr rfl) rfl hquote hamp).steps (ih (u ++ [c]) hlen hdec rest hrest)
      (Or.inl (by simp))
  | @ref e w s c he _ ih =>
    intro rest hrest
    have hsplit : u ++ c :: s = u ++ [c] ++ s := by simp
    rw [hsplit] at hlen hdec ⊢
    refine Steps.next ?_ (ih (u ++ [c]) hlen hdec rest hrest)
    obtain ⟨e', rfl, he'⟩ := named_amp he
    simp only [List.length_append, List.length_singleton] at hlen
    rw [List.append_assoc, List.append_assoc, ← List.append_assoc w]
    refine machine_next (by simp) (by simp) (b := true) ?_ (by simp only [List.length_append, List.length_cons]; omega) (by simp)
    have hent : entref u (byte '&' :: (e' ++ (w ++ [byte '"'] ++ rest))) = .yes (u ++ [c]) (w ++ [byte '"'] ++ rest) :=
      entref_named he (by omega) (by simp; omega)
    have hvalue := elementAttrValue_ref cfg (r := ⟨(first, u) :: as, [], enc, .ELEMENT_ATTR_VALUE_QUOT, es, cs⟩) rfl
      (by omega) hent
    change (elementAttrValue cfg _ (byte '&' :: (e' ++ (w ++ [byte '"'] ++ rest)))).or _ = _
    rw [hvalue, ret_true_or]

/-- What is neither space nor the beginning of a tag is content. -/
theorem simpleCase_plain (cfg : Config) {r : Reader} {c : UInt8} (hs : r.state = .CONTENT) (hspace : isSpace c = false)
    (hlt : c ≠ byte '<') {buf : Bytes} (hbuf : buf ≠ []) :
    simpleCase cfg r (c :: buf) = (content r (c :: buf)).or (error "Expecting content, element or comment") := by
  have hskip : skipSpace true r (c :: buf) = .ret false r (c :: buf) := by
    rw [skipSpace, if_neg (by simp), skipLoop, if_neg (by simp [hspace])]
  have helement : element r (c :: buf) = .ret false r (c :: buf) := by
    obtain ⟨c', rest, rfl⟩ := List.exists_cons_of_ne_nil hbuf
    rw [element, if_neg (by simp [hlt])]
  rw [simpleCase_content cfg hs, hskip, ret_false_or]
  change (((((literal (byte '<' :: str "!--") _ _ _ _).or (literal (byte '<' :: str "![CDATA[") _ _)).or _).or
    (literal (byte '<' :: str "/") _ _)).or _).or _ = _
  rw [literal_false_head hlt.symm, ret_false_or, literal_false_head hlt.symm, ret_false_or, helement, ret_false_or,
    literal_false_head hlt.symm, ret_false_or]

/-- The last of some spaces in content. -/
theorem simpleCase_space (cfg : Config) {r : Reader} {c : UInt8} {buf : Bytes} (hs : r.state = .CONTENT)
    (hspace : isSpace c = true) (hbuf : isSpace (charAt buf 0) = false)
    (hlen : (r.value ++ [c]).length ≤ MAX_VALUE_SIZE) :
    simpleCase cfg r (c :: buf) = .ret true { r with value := r.value ++ [c] } buf := by
  have hskip : skipSpace true r (c :: buf) = .ret true { r with value := r.value ++ [c] } buf := by
    rw [skipSpace, if_neg (by simp), skipLoop_space _ _ _ hspace, if_pos hlen]
    cases buf with
    | nil => rfl
    | cons c' rest =>
      rw [skipLoop, if_neg]
      simpa [charAt] using hbuf
  rw [simpleCase_content cfg hs, hskip]
  rfl

/-- Text up to what is no space. Where it is not all space, it needs that three bytes follow. -/
theorem reads_text (cfg : Config) {enc w s : Bytes} {as : StringPairList} {es : List Bytes} {cs : List CallBack}
    (h : Spells (byte '<') w s) (u : Bytes) (hlen : (u ++ s).length < MAX_VALUE_SIZE) :
    Reads (machine cfg)
      (fun rest => isSpace (charAt rest 0) = false ∧ ((∀ c ∈ w, isSpace c = true) ∨ 3 ≤ rest.length))
      ⟨as, u, enc, .CONTENT, es, cs⟩ w ⟨as, u ++ s, enc, .CONTENT, es, cs⟩ := by
  induction h generalizing u with
  | nil =>
    rw [List.append_nil]
    exact Reads.refl _ _
  | @char c w s hlt hamp _ ih =>
    rintro rest ⟨hhead, hrest⟩
    have hsplit : u ++ c :: s = u ++ [c] ++ s := by simp
    rw [hsplit] at hlen ⊢
    have hsteps := ih (u ++ [c]) hlen rest ⟨hhead, hrest.imp_left fun h b hb => h b (List.mem_cons_of_mem _ hb)⟩
    simp only [List.length_append, List.length_singleton] at hlen
    have hone : (u ++ [c]).length ≤ MAX_VALUE_SIZE := by
      rw [List.length_append, List.length_singleton]
      omega
    by_cases hspace : isSpace c = true
    · by_cases hnext : isSpace (charAt (w ++ rest) 0) = true
      · cases w with
        | nil =>
          rw [List.nil_append, hhead] at hnext
          cases hnext
        | cons c' w =>
          refine (absorbs_space cfg (w ++ rest) rfl hspace hnext).steps hsteps (Or.inr fun heq => ?_)
          have := congrArg List.length heq
          simp at this
          omega
      · refine Steps.next ?_ hsteps
        exact machine_next (by simp) (by simp) (simpleCase_space cfg rfl hspace (eq_false_of_ne_true hnext) hone)
          (length_lt c [] (w ++ rest)) (by simp)
    · refine Steps.next ?_ hsteps
      have hne : w ++ rest ≠ [] := by
        obtain h | h := hrest
        · exact absurd (h c List.mem_cons_self) hspace
        · exact List.append_ne_nil_of_right_ne_nil w (List.length_pos_iff.mp (by omega))
      refine machine_next (by simp) (by simp) (b := true) ?_ (length_lt c [] (w ++ rest)) (by simp)
      rw [List.cons_append, simpleCase_plain cfg rfl (eq_false_of_ne_true hspace) hlt hne, content, if_neg hamp,
        append_of_le hone, ret_true_or]
  | @ref e w s c he _ ih =>
    rintro rest ⟨hhead, hrest⟩
    have hsplit : u ++ c :: s = u ++ [c] ++ s := by simp
    rw [hsplit] at hlen ⊢
    have hsteps := ih (u ++ [c]) hlen rest
      ⟨hhead, hrest.imp_left fun h b hb => h b (List.mem_append_right _ hb)⟩
    obtain ⟨e', rfl, he'⟩ := named_amp he
    simp only [List.length_append, List.length_singleton] at hlen
    have hlong : 3 ≤ rest.length := hrest.resolve_left fun h => by
      have := h (byte '&') (by simp)
      cases this
    refine Steps.next ?_ hsteps
    have hent : entref u (byte '&' :: (e' ++ (w ++ rest))) = .yes (u ++ [c]) (w ++ rest) :=
      entref_named he (by omega) (by simp; omega)
    refine machine_next (by simp) (by simp) (b := true) ?_ (by simp only [List.length_append, List.length_cons]; omega) (by simp)
    have hne : e' ++ (w ++ rest) ≠ [] := List.append_ne_nil_of_left_ne_nil (List.length_pos_iff.mp (by omega)) _
    rw [List.append_assoc, List.cons_append, simpleCase_plain cfg rfl (by decide) (by decide) hne, content,
      if_pos rfl, hent, ret_true_or]

/-- A name of the characters that the reader allows, no longer than it allows. -/
def IsName (name : Bytes) : Prop :=
  name.length ≤ MAX_NAME_SIZE ∧
    ∃ c rest, name = c :: rest ∧ isNameStartChar c = true ∧ ∀ b ∈ rest, isNameChar b = true

/-- The name and the text of an attribute as they are written, and the attribute that is read. -/
structure Attr (cfg : Config) (enc : Bytes) (text attr : Bytes × Bytes) : Prop where
  same : text.1 = attr.1
  name : IsName attr.1
  spells : Spells (byte '"') text.2 attr.2
  limit : attr.2.length < MAX_VALUE_SIZE
  decodes : decodeString cfg enc attr.2 = some attr.2

def attrText (text : Bytes × Bytes) : Bytes := text.1 ++ str "=\"" ++ text.2 ++ [byte '"']

/-- A tag without its end. -/
def tagText (name : Bytes) (texts : List (Bytes × Bytes)) : Bytes :=
  byte '<' :: name ++ texts.flatMap fun text => byte ' ' :: attrText text

/-- The reader can begin an element. -/
def Enters (cfg : Config) (r : Reader) (enc : Bytes) (es : List Bytes) (cs : List CallBack) : Prop :=
  ∀ c, isNameStartChar c = true →
    Reads (machine cfg) (fun _ => True) r [byte '<', c] ⟨[], [], enc, .ELEMENT_NAME, [c] :: es, cs⟩

section Elements

variable {cfg : Config} {enc : Bytes} {as : StringPairList} {es : List Bytes} {cs : List CallBack}

theorem reads_attr {text attr : Bytes × Bytes} (h : Attr cfg enc text attr) :
    Reads (machine cfg) (fun rest => 2 ≤ rest.length) ⟨as, [], enc, .ELEMENT_ATTR, es, cs⟩ (attrText text)
      ⟨attr :: as, [], enc, .ELEMENT_ATTR, es, cs⟩ := by
  obtain ⟨name, value⟩ := text
  obtain ⟨first, second⟩ := attr
  obtain ⟨hsame, ⟨hlen, c, rest, hname, hc, hrest⟩, hspells, hlimit, hdec⟩ := h
  dsimp only at hsame hname hspells hlimit hdec hlen
  subst hsame hname
  have heq : attrText (c :: rest, value) = [c] ++ (rest ++ [byte '=']) ++ [byte '"'] ++ (value ++ [byte '"']) := by
    simp [attrText, str]
  rw [heq]
  refine ((((reads_attr_start cfg hc).append (reads_attr_name cfg cs hrest hlen) fun _ _ => trivial).append
    (reads_quote cfg) fun _ _ => trivial).append
    (reads_value cfg hspells [] (by simpa using hlimit) (by simpa using hdec)) fun _ _ => trivial)

theorem reads_attrs {texts attribs : List (Bytes × Bytes)} (h : List.Forall₂ (Attr cfg enc) texts attribs) :
    Reads (machine cfg) (fun rest => 2 ≤ rest.length) ⟨as, [], enc, .ELEMENT_ATTR, es, cs⟩
      (texts.flatMap fun text => byte ' ' :: attrText text)
      ⟨attribs.reverse ++ as, [], enc, .ELEMENT_ATTR, es, cs⟩ := by
  induction h generalizing as with
  | nil => exact Reads.refl _ _
  | @cons text attr texts attribs hattr _ ih =>
    rw [List.flatMap_cons, List.reverse_cons, List.append_assoc]
    have hspace := (@reads_attr_space cfg as enc es cs).append (reads_attr hattr)
      (fun rest _ => by
        obtain ⟨_, c, w, hname, hc, _⟩ := hattr.name
        rw [attrText, hattr.same, hname]
        exact (nameStart_ne hc).2.2.2)
    exact hspace.append ih fun rest hrest => by
      rw [List.length_append]
      exact Nat.le_trans hrest (Nat.le_add_left _ _)

/-- A name with attributes after it, or at least one. -/
theorem reads_name_attrs {c : UInt8} {w : Bytes} {text : Bytes × Bytes} {texts : List (Bytes × Bytes)}
    {attribs : StringPairList} (hlen : (c :: w).length ≤ MAX_NAME_SIZE) (hw : ∀ b ∈ w, isNameChar b = true)
    (h : List.Forall₂ (Attr cfg enc) (text :: texts) attribs) :
    Reads (machine cfg) (fun rest => 2 ≤ rest.length) ⟨[], [], enc, .ELEMENT_NAME, [c] :: es, cs⟩
      (w ++ (text :: texts).flatMap fun text => byte ' ' :: attrText text)
      ⟨attribs.reverse, [], enc, .ELEMENT_ATTR, (c :: w) :: es, cs⟩ := by
  cases h with
  | @cons _ attr _ attribs hattr hattribs =>
    have hread := ((@reads_name_space cfg [] [] enc [c] w es cs hw hlen).append
      (reads_attr hattr) fun _ _ => trivial).append (reads_attrs hattribs) fun rest hrest => by
        rw [List.length_append]
        exact Nat.le_trans hrest (Nat.le_add_left _ _)
    rw [List.flatMap_cons, List.reverse_cons]
    simpa using hread

/-- The tag of an element with content. -/
theorem reads_open {r : Reader} (hr : Enters cfg r enc es cs) {name : Bytes} (hname : IsName name)
    {texts attribs : List (Bytes × Bytes)} (h : List.Forall₂ (Attr cfg enc) texts attribs) :
    Reads (machine cfg) (fun rest => 1 ≤ rest.length) r (tagText name texts ++ [byte '>'])
      ⟨[], [], enc, .CONTENT, name :: es, cs ++ [.startTag name attribs false]⟩ := by
  obtain ⟨hlen, c, w, rfl, hc, hw⟩ := hname
  cases texts with
  | nil =>
    cases h
    have hread := (hr c hc).append (@reads_name_open cfg [] [] enc [c] w es cs hw hlen) fun _ _ => trivial
    have hmono := hread.mono (Q := fun rest => 1 ≤ rest.length) fun _ _ => trivial
    simpa [tagText] using hmono
  | cons text texts =>
    have hclose := (@reads_attr_close cfg attribs.reverse enc es cs (c :: w)).mono
      (Q := fun rest => 1 ≤ rest.length) fun _ _ => trivial
    have hread := ((hr c hc).append (reads_name_attrs hlen hw h) fun _ _ => trivial).append hclose
      fun rest hrest => Nat.succ_le_succ hrest
    rw [List.reverse_reverse] at hread
    simpa [tagText] using hread

/-- The tag of an element without content. -/
theorem reads_simple {r : Reader} (hr : Enters cfg r enc es cs) {name : Bytes} (hname : IsName name)
    {texts attribs : List (Bytes × Bytes)} (h : List.Forall₂ (Attr cfg enc) texts attribs) :
    Reads (machine cfg) (fun _ => True) r (tagText name texts ++ str "/>")
      ⟨[], [], enc, .CONTENT, es, cs ++ [.startTag name attribs true]⟩ := by
  obtain ⟨hlen, c, w, rfl, hc, hw⟩ := hname
  cases texts with
  | nil =>
    cases h
    have hread := ((hr c hc).append (@reads_name_simple cfg [] [] enc [c] w es cs hw hlen) fun _ _ => trivial).append
      (reads_simple_close cfg) fun _ _ => trivial
    simpa [tagText, str] using hread
  | cons text texts =>
    have hclose := (@reads_attr_slash cfg attribs.reverse enc ((c :: w) :: es) cs).append
      (reads_simple_close cfg) fun _ _ => trivial
    have hread := ((hr c hc).append (reads_name_attrs hlen hw h) fun _ _ => trivial).append hclose
      fun rest _ => Nat.le_add_left 2 rest.length
    rw [List.reverse_reverse] at hread
    simpa [tagText, str] using hread

/-- The end tag of an element; the text before it ends. -/
theorem reads_close {v : Bytes} {name : Bytes} (hname : IsName name) (hdec : decodeString cfg enc v = some v) :
    Reads (machine cfg) (fun _ => True) ⟨as, v, enc, .CONTENT, name :: es, cs⟩ (str "</" ++ name ++ [byte '>'])
      ⟨as, [], enc, .CONTENT, es, cs ++ textCalls v ++ [.endTag name]⟩ := by
  obtain ⟨_, c, w, rfl, _, _⟩ := hname
  exact ((reads_end_start cfg hdec).append (reads_end_name cfg (by simp)) fun _ _ => trivial).append
    (reads_end_end cfg) fun _ _ => trivial

/-- An element can begin in content that is not too deep. -/
theorem enters_content {v : Bytes} (hdepth : es.length < MAX_NESTING) (hdec : decodeString cfg enc v = some v) :
    Enters cfg ⟨[], v, enc, .CONTENT, es, cs⟩ enc es (cs ++ textCalls v) :=
  fun _ hc => reads_element cfg cs hc hdepth hdec

/-- And where a document begins. -/
theorem enters_start : Enters cfg ⟨[], [], enc, .START, [], []⟩ enc [] [] := fun _ hc => reads_first cfg enc hc

end Elements

end Dcpp.SimpleXMLReader
