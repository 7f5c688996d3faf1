import Mathlib.Data.List.Forall2
import Dcpp.ReaderDocuments
import Dcpp.Utf8

namespace Dcpp.SimpleXML

open Incremental SimpleXMLReader

theorem spells_escapeChar {stop : UInt8} (aAttrib : Bool) (c : UInt8) (hc : special aAttrib c = false → c ≠ stop)
    {w s : Bytes} (h : Spells stop w s) : Spells stop (escapeChar aAttrib c ++ w) (c :: s) := by
  rw [escapeChar]
  split
  next hplain =>
    have hplain' : special aAttrib c = false := by simpa using hplain
    refine .char (hc hplain') ?_ h
    rintro rfl
    cases aAttrib <;> cases hplain'
  next hspecial =>
    split
    next heq => exact heq ▸ .ref .lt h
    next hlt =>
      split
      next heq => exact heq ▸ .ref .amp h
      next hamp =>
        split
        next heq => exact heq ▸ .ref .gt h
        next hgt =>
          split
          next heq => exact heq ▸ .ref .apos h
          next hapos =>
            have heq : c = byte '"' := by
              simp [special, hlt, hamp, hgt, hapos] at hspecial
              exact hspecial.2
            exact heq ▸ .ref .quot h

/-- What `escape` writes is read as what it was given, in an attribute and in data. -/
theorem spells_escape (aAttrib : Bool) (s : Bytes) :
    Spells (if aAttrib then byte '"' else byte '<') (escape s aAttrib) s := by
  induction s with
  | nil => exact .nil
  | cons c s ih =>
    refine spells_escapeChar aAttrib c ?_ ih
    rintro hplain rfl
    cases aAttrib <;> cases hplain

theorem escape_of_not_needsEscape {aString : Bytes} {aAttrib : Bool} (h : needsEscape aString aAttrib = false) :
    escape aString aAttrib = aString := by
  rw [needsEscape, List.any_eq_false] at h
  induction aString with
  | nil => rfl
  | cons c s ih =>
    have hc : escapeChar aAttrib c = [c] := by
      rw [escapeChar, if_pos]
      simpa using h c List.mem_cons_self
    have hs := ih fun b hb => h b (List.mem_cons_of_mem _ hb)
    rw [escape] at hs
    rw [escape, List.flatMap_cons, hc, hs]
    rfl

theorem escape_if (aString : Bytes) (aAttrib : Bool) :
    (if needsEscape aString aAttrib then escape aString aAttrib else aString) = escape aString aAttrib := by
  split
  next => rfl
  next h => exact (escape_of_not_needsEscape (eq_false_of_ne_true h)).symm

/-- The attributes of a tag as they are written. -/
def texts (attribs : StringPairList) : StringPairList := attribs.map fun a => (a.1, escape a.2 true)

theorem flatMap_space {α : Type*} (f : α → Bytes) (c : UInt8) (l : List α) :
    c :: (l.flatMap fun a => f a ++ [c]) = (l.flatMap fun a => c :: f a) ++ [c] := by
  induction l with
  | nil => rfl
  | cons a l ih => simp [ih]

/-- A space before each attribute is left, and none after the last. -/
theorem appendAttribString_eq (attribs : StringPairList) (tmp : Bytes) :
    appendAttribString attribs (tmp ++ [byte ' ']) =
      tmp ++ (texts attribs).flatMap fun text => byte ' ' :: attrText text := by
  have hwritten : appendAttribString attribs (tmp ++ [byte ' ']) =
      (tmp ++ [byte ' '] ++ (texts attribs).flatMap fun text => attrText text ++ [byte ' ']).dropLast := by
    rw [appendAttribString, texts, List.flatMap_map]
    congr 2
    refine List.flatMap_congr fun a _ => ?_
    dsimp only
    rw [escape_if, attrText]
    simp [str]
  rw [hwritten, List.append_assoc, List.singleton_append, flatMap_space, ← List.append_assoc,
    List.dropLast_concat]

def crlf : Bytes := str "\r\n"

mutual

/-- `toXML` without the indentation before the tag and the end of the line after it. -/
def body (indent : Nat) : Tag → Bytes
  | .node tag [] =>
    if tag.data = [] then tagText tag.name (texts tag.attribs) ++ str "/>"
    else
      tagText tag.name (texts tag.attribs) ++ [byte '>'] ++ escape tag.data false ++
        (str "</" ++ tag.name ++ [byte '>'])
  | .node tag (c :: cs) =>
    tagText tag.name (texts tag.attribs) ++ [byte '>'] ++ listBody (indent + 1) (c :: cs) ++
      (crlf ++ tabs indent) ++ (str "</" ++ tag.name ++ [byte '>'])

def listBody (indent : Nat) : List Tag → Bytes
  | [] => []
  | c :: cs => crlf ++ tabs indent ++ body indent c ++ listBody indent cs

end

theorem listToXML_eq {indent : Nat} {cs : List Tag} (h : ∀ c ∈ cs, c.toXML indent = tabs indent ++ body indent c ++ crlf) :
    crlf ++ Tag.listToXML indent cs = listBody indent cs ++ crlf := by
  induction cs with
  | nil => rw [Tag.listToXML, listBody, List.append_nil, List.nil_append]
  | cons c cs ih =>
    rw [Tag.listToXML, listBody, h c List.mem_cons_self, List.append_assoc, List.append_assoc, List.append_assoc,
      ih fun c hc => h c (List.mem_cons_of_mem _ hc)]
    simp

theorem toXML_eq (t : Tag) : ∀ indent, t.toXML indent = tabs indent ++ body indent t ++ crlf := by
  induction t using Tree.induction with
  | h tag cs ih =>
    intro indent
    have htag : appendAttribString tag.attribs (tabs indent ++ [byte '<'] ++ tag.name ++ [byte ' ']) =
        tabs indent ++ tagText tag.name (texts tag.attribs) := by
      rw [appendAttribString_eq, tagText]
      simp
    cases cs with
    | nil =>
      rw [Tag.toXML, body, htag, escape_if]
      split <;> simp [str, crlf]
    | cons c cs =>
      have hlist := @listToXML_eq (indent + 1) (c :: cs) fun c hc => ih c hc (indent + 1)
      have hcrlf : str ">\r\n" = [byte '>'] ++ crlf := rfl
      rw [Tag.toXML, body, htag, hcrlf]
      simp only [List.append_assoc]
      rw [← List.append_assoc crlf, hlist]
      simp

/-- What a tag has to be for the reader: valid names, and valid text below the limit where text is
kept. `name` says which names are valid. -/
structure Writable (name : Bytes → Prop) (wcharBits : Nat) (tag : TagNode) (children : List Tag) : Prop where
  tagName : name tag.name
  attribName : ∀ a ∈ tag.attribs, name a.1
  attribUtf8 : ∀ a ∈ tag.attribs, Text.Valid wcharBits a.2
  attribLimit : ∀ a ∈ tag.attribs, a.2.length < MAX_VALUE_SIZE
  dataUtf8 : children = [] → Text.Valid wcharBits tag.data
  dataLimit : children = [] → tag.data.length < MAX_VALUE_SIZE

mutual

/-- The callbacks for a tag that is read back. -/
def events (indent : Nat) : Tag → List CallBack
  | .node tag [] =>
    if tag.data = [] then [.startTag tag.name tag.attribs true]
    else [.startTag tag.name tag.attribs false] ++ textCalls tag.data ++ [.endTag tag.name]
  | .node tag (c :: cs) =>
    [.startTag tag.name tag.attribs false] ++ listEvents (indent + 1) (c :: cs) ++ textCalls (crlf ++ tabs indent) ++
      [.endTag tag.name]

def listEvents (indent : Nat) : List Tag → List CallBack
  | [] => []
  | c :: cs => textCalls (crlf ++ tabs indent) ++ events indent c ++ listEvents indent cs

end

section Reading

variable {cfg : Config} {enc : Bytes} (hencoding : enc = [] ∨ enc = Text.utf8)

include hencoding

theorem Writable.attrs {tag : TagNode} {cs : List Tag} (h : Writable IsName cfg.platform.wcharBits tag cs) :
    List.Forall₂ (Attr cfg enc) (texts tag.attribs) tag.attribs := by
  rw [texts, List.forall₂_map_left_iff, List.forall₂_same]
  intro a ha
  exact ⟨rfl, h.attribName a ha, spells_escape true a.2, h.attribLimit a ha,
    decodeString_of_valid cfg hencoding (Text.validateUtf8_of_valid (h.attribUtf8 a ha))⟩

/-- The end of a line and the indentation before a tag. -/
theorem reads_line {indent : Nat} (hindent : indent ≤ MAX_NESTING) (es : List Bytes) (cs : List CallBack) :
    Reads (machine cfg) (fun rest => isSpace (charAt rest 0) = false) ⟨[], [], enc, .CONTENT, es, cs⟩
        (crlf ++ tabs indent) ⟨[], crlf ++ tabs indent, enc, .CONTENT, es, cs⟩ ∧
      decodeString cfg enc (crlf ++ tabs indent) = some (crlf ++ tabs indent) := by
  have hmem : ∀ c ∈ crlf ++ tabs indent, c = byte '\r' ∨ c = byte '\n' ∨ c = byte '\t' := by
    intro c hc
    simp only [crlf, str, tabs, List.mem_append, List.mem_replicate] at hc
    obtain hc | ⟨_, rfl⟩ := hc
    · simp at hc
      tauto
    · exact Or.inr (Or.inr rfl)
  have hspells : ∀ w : Bytes, (∀ c ∈ w, c = byte '\r' ∨ c = byte '\n' ∨ c = byte '\t') → Spells (byte '<') w w := by
    intro w
    induction w with
    | nil => exact fun _ => .nil
    | cons c w ih =>
      intro hw
      have hc := hw c List.mem_cons_self
      refine .char ?_ ?_ (ih fun b hb => hw b (List.mem_cons_of_mem _ hb))
      · obtain rfl | rfl | rfl := hc <;> decide
      · obtain rfl | rfl | rfl := hc <;> decide
  constructor
  · have hlen : ([] ++ (crlf ++ tabs indent)).length < MAX_VALUE_SIZE := by
      simp only [crlf, str, tabs, List.nil_append, List.length_append, List.length_replicate]
      simp only [MAX_NESTING] at hindent
      change 2 + indent < 65536
      omega
    refine (@reads_text cfg enc _ _ [] es cs (hspells _ hmem) [] hlen).mono
      fun rest hrest => ⟨hrest, Or.inl fun c hc => ?_⟩
    obtain rfl | rfl | rfl := hmem c hc <;> rfl
  · refine decodeString_of_valid cfg hencoding (Text.validateUtf8_of_ascii _ fun c hc => ?_)
    obtain rfl | rfl | rfl := hmem c hc <;> decide

omit hencoding in
theorem body_head (indent : Nat) (t : Tag) : ∃ w, body indent t = byte '<' :: w := by
  obtain ⟨tag, cs⟩ := t
  cases cs with
  | nil =>
    rw [body]
    split
    · exact ⟨_, rfl⟩
    · exact ⟨_, rfl⟩
  | cons c cs =>
    rw [body]
    exact ⟨_, rfl⟩

omit hencoding in
theorem listBody_head (indent : Nat) (c : Tag) (cs : List Tag) : ∃ w, listBody indent (c :: cs) = byte '\r' :: w := by
  rw [listBody]
  exact ⟨_, rfl⟩

/-- Children, each on a line of its own. -/
theorem reads_listBody {cs : List Tag} {es : List Bytes} (hdepth : es.length + Tree.depths cs ≤ MAX_NESTING)
    (h : ∀ c ∈ cs, ∀ r (calls : List CallBack), Enters cfg r enc es calls →
      Reads (machine cfg) (fun _ => True) r (body es.length c) ⟨[], [], enc, .CONTENT, es, calls ++ events es.length c⟩)
    (calls : List CallBack) :
    Reads (machine cfg) (fun _ => True) ⟨[], [], enc, .CONTENT, es, calls⟩ (listBody es.length cs)
      ⟨[], [], enc, .CONTENT, es, calls ++ listEvents es.length cs⟩ := by
  induction cs generalizing calls with
  | nil =>
    rw [listBody, listEvents, List.append_nil]
    exact Reads.refl _ _
  | cons c cs ih =>
    rw [listBody, listEvents]
    rw [Tree.depths] at hdepth
    have hc : 0 < c.depth := by
      obtain ⟨_, _⟩ := c
      exact Nat.succ_pos _
    have hindent : es.length ≤ MAX_NESTING := by omega
    obtain ⟨hline, hdec⟩ := reads_line hencoding hindent es calls
    have hbody := h c List.mem_cons_self _ _ (@enters_content cfg enc es calls _ (by omega) hdec)
    have hrest := ih (by omega) (fun c hc => h c (List.mem_cons_of_mem _ hc))
      (calls ++ textCalls (crlf ++ tabs es.length) ++ events es.length c)
    have hread := (hline.append hbody fun rest _ => by
      obtain ⟨w, hw⟩ := body_head es.length c
      rw [hw]
      rfl).append hrest fun _ _ => trivial
    simpa only [List.append_assoc] using hread

/-- The reader takes a tag and makes its callbacks. -/
theorem reads_body {t : Tag} (ht : t.All (Writable IsName cfg.platform.wcharBits)) :
    ∀ {r : Reader} {es : List Bytes} (calls : List CallBack), es.length + t.depth ≤ MAX_NESTING →
      Enters cfg r enc es calls →
      Reads (machine cfg) (fun _ => True) r (body es.length t)
        ⟨[], [], enc, .CONTENT, es, calls ++ events es.length t⟩ := by
  induction t using Tree.induction with
  | h tag cs ih =>
    intro r es calls hdepth hr
    obtain ⟨htag, hchildren⟩ := ht
    have hattrs := htag.attrs hencoding
    cases cs with
    | nil =>
      rw [body, events]
      split
      next hdata => exact reads_simple hr htag.tagName hattrs
      next hdata =>
        have hdec := decodeString_of_valid cfg hencoding (Text.validateUtf8_of_valid (htag.dataUtf8 rfl))
        have htext := (@reads_text cfg enc _ _ [] (tag.name :: es) (calls ++ [.startTag tag.name tag.attribs false])
          (spells_escape false tag.data) [] (htag.dataLimit rfl)).mono (Q := fun rest => isSpace (charAt rest 0) = false ∧ 3 ≤ rest.length)
          fun rest hrest => ⟨hrest.1, Or.inr hrest.2⟩
        have hread := ((reads_open hr htag.tagName hattrs).append htext fun rest hrest => by
          rw [List.length_append]
          omega).append (reads_close htag.tagName hdec) fun rest _ => ⟨rfl, by simp [str]; omega⟩
        simpa only [List.append_assoc, List.nil_append] using hread
    | cons c cs =>
      rw [body, events]
      rw [Tree.depth] at hdepth
      have hdepths : (tag.name :: es).length + Tree.depths (c :: cs) ≤ MAX_NESTING := by
        rw [List.length_cons]
        omega
      have hlist := reads_listBody hencoding hdepths
        (fun c' hc' r calls hr => ih c' hc' (hchildren c' hc') calls
          (by
            have := Tree.depth_le_depths hc'
            rw [List.length_cons]
            omega) hr)
        (calls ++ [.startTag tag.name tag.attribs false])
      have hindent : es.length ≤ MAX_NESTING := by omega
      obtain ⟨hline, hdec⟩ := reads_line hencoding hindent (tag.name :: es)
        (calls ++ [.startTag tag.name tag.attribs false] ++ listEvents (es.length + 1) (c :: cs))
      have hread := (((reads_open hr htag.tagName hattrs).append hlist fun rest _ => by
        obtain ⟨w, hw⟩ := listBody_head (tag.name :: es).length c cs
        rw [hw]
        exact Nat.succ_le_succ (Nat.zero_le _)).append hline fun _ _ => trivial).append
        (reads_close htag.tagName hdec) fun rest _ => rfl
      rw [List.length_cons] at hread
      simpa only [List.append_assoc] using hread

end Reading

/-- The second tree has the names, the attributes, the data of leaves and the children of the first. -/
inductive Same : Tag → Tag → Prop where
  | node {tag tag' : TagNode} {cs cs' : List Tag} : tag'.name = tag.name → tag'.attribs = tag.attribs →
    (cs = [] → tag'.data = tag.data) → List.Forall₂ Same cs cs' → Same (.node tag cs) (.node tag' cs')

theorem calls_append (p : Tree.Place TagNode) (cs cs' : List CallBack) :
    TagReader.calls p (cs ++ cs') = (TagReader.calls p cs).bind fun p => TagReader.calls p cs' := List.foldlM_append

/-- Text is appended to what the current tag has. -/
theorem calls_textCalls (label : TagNode) (children : List Tag) (above : List Tag) (d : Bytes) :
    TagReader.calls ⟨.node label children, above⟩ (textCalls d) =
      .ok ⟨.node { label with data := label.data ++ d } children, above⟩ := by
  rw [textCalls]
  split
  next h =>
    rw [h, List.append_nil]
    rfl
  next => rfl

/-- The callbacks of children append them, and some text. -/
theorem calls_listEvents {indent : Nat} {cs : List Tag}
    (h : ∀ c ∈ cs, ∃ c', Same c c' ∧ ∀ p, TagReader.calls p (events indent c) = .ok (p.add c')) :
    ∃ cs' d, List.Forall₂ Same cs cs' ∧ ∀ label children above,
      TagReader.calls ⟨.node label children, above⟩ (listEvents indent cs) =
        .ok ⟨.node { label with data := label.data ++ d } (children ++ cs'), above⟩ := by
  induction cs with
  | nil => exact ⟨[], [], .nil, fun label children above => by
      rw [List.append_nil, List.append_nil]
      rfl⟩
  | cons c cs ih =>
    obtain ⟨c', hsame, hc⟩ := h c List.mem_cons_self
    obtain ⟨cs', d, hsames, hcs⟩ := ih fun c hc => h c (List.mem_cons_of_mem _ hc)
    refine ⟨c' :: cs', crlf ++ tabs indent ++ d, .cons hsame hsames, fun label children above => ?_⟩
    rw [listEvents, calls_append, calls_append, calls_textCalls]
    dsimp only [Except.bind]
    rw [hc]
    dsimp only [Tree.Place.add, Tree.add_node]
    rw [hcs]
    simp

/-- The callbacks of a tag append one that is the same. -/
theorem calls_events (t : Tag) :
    ∀ indent, ∃ t', Same t t' ∧ ∀ p, TagReader.calls p (events indent t) = .ok (p.add t') := by
  induction t using Tree.induction with
  | h tag cs ih =>
    intro indent
    cases cs with
    | nil =>
      rw [events]
      refine ⟨.node tag [], .node rfl rfl (fun _ => rfl) .nil, fun p => ?_⟩
      split
      next hdata =>
        obtain ⟨name, attribs, data⟩ := tag
        cases hdata
        rfl
      next =>
        rw [calls_append, calls_append]
        change ((TagReader.calls ⟨.node ⟨tag.name, tag.attribs, []⟩ [], p.cur :: p.above⟩ (textCalls tag.data)).bind _) = _
        rw [calls_textCalls]
        rfl
    | cons c cs =>
      obtain ⟨cs', d, hsames, hcs⟩ := calls_listEvents fun c' hc' => ih c' hc' (indent + 1)
      refine ⟨.node ⟨tag.name, tag.attribs, d ++ (crlf ++ tabs indent)⟩ cs',
        .node rfl rfl (fun h => by cases h) hsames, fun p => ?_⟩
      rw [events, calls_append, calls_append, calls_append]
      change (((TagReader.calls ⟨.node ⟨tag.name, tag.attribs, []⟩ [], p.cur :: p.above⟩ (listEvents (indent + 1) _)).bind
        _).bind _) = _
      rw [hcs]
      dsimp only [Except.bind]
      rw [calls_textCalls]
      rfl

/-- `process` waits at the end of what it has taken. -/
theorem process_of_steps {cfg : Config} {r t : Reader} {buf : Bytes} (h : Steps (machine cfg) r buf t [])
    (hs : t.state = .CONTENT) : ∃ fuel, process cfg fuel r buf = some (.done true t []) := by
  have hwait : machine cfg t [] .wait := by
    rw [machine_simple (by simp [hs]) (by simp [hs]), simpleCase_content cfg hs]
    change (roundEnd cfg t [] (.ret true t [])).step = _
    rw [roundEnd, if_pos ⟨rfl, rfl⟩]
    rfl
  obtain ⟨fuel, x, hx, hout⟩ := process_of_runs cfg (h.runs (Runs.wait hwait))
  refine ⟨fuel, ?_⟩
  rw [hx]
  cases x with
  | done more r' buf' =>
    cases more with
    | true =>
      obtain ⟨rfl, rfl⟩ := Incremental.Outcome.waiting.inj hout
      rfl
    | false => cases hout
  | next _ _ => cases hout
  | error _ _ _ => cases hout

/-- A tree that is written and read back has the same names, attributes, leaf data and children, when
its names are such as the reader allows. -/
theorem fromXML_toXML (cfg : Config) (root : Tag) (label : TagNode) (t : Tag)
    (ht : t.All (Writable IsName cfg.platform.wcharBits)) (hdepth : t.depth < MAX_NESTING) :
    ∃ fuel t', fromXML cfg fuel root (toXML (.node label [t])) = some (.ok (.node root.label [t'])) ∧ Same t t' := by
  have hencoding : ([] : Bytes) = [] ∨ ([] : Bytes) = Text.utf8 := Or.inl rfl
  have hbody := @reads_body cfg [] hencoding t ht start [] [] (by rw [List.length_nil]; omega) enters_start
  obtain ⟨hline, _⟩ := @reads_line cfg [] hencoding 0 (Nat.zero_le _) [] (events 0 t)
  have hsteps := hbody.append hline (fun _ _ => trivial) [] rfl
  have hdoc : body 0 t ++ (crlf ++ tabs 0) ++ [] = toXML (.node label [t]) := by
    rw [List.append_nil, toXML]
    dsimp only [Tree.children_node]
    rw [toXML_eq]
    simp [tabs]
  change Steps (machine cfg) start (body 0 t ++ (crlf ++ tabs 0) ++ []) _ [] at hsteps
  rw [hdoc] at hsteps
  obtain ⟨fuel, hprocess⟩ := process_of_steps hsteps rfl
  obtain ⟨t', hsame, hcalls⟩ := calls_events t 0
  refine ⟨fuel, t', ?_, hsame⟩
  rw [fromXML, parse, List.nil_append, hprocess]
  dsimp only [parse]
  rw [hcalls]
  rfl

def plainTag : Tag := .node ⟨str "a", [(str "x", str "1 < 2")], []⟩ [.node ⟨str "b", [], str "&lt;"⟩ []]

theorem fromXML_toXML_plain : ∃ fuel t', fromXML plainConfig fuel plainTag (toXML (.node ⟨[], [], []⟩ [plainTag])) =
    some (.ok (.node plainTag.label [t'])) ∧ Same plainTag t' := by
  have hfits (c : Char) : Text.Fits 32 c := Text.fits_of_wide (by decide) c
  have hletter (c : UInt8) (hc : isNameStartChar c = true) : IsName [c] :=
    ⟨by rw [List.length_singleton, MAX_NAME_SIZE]; omega, c, [], rfl, hc, fun b hb => (by cases hb)⟩
  refine fromXML_toXML plainConfig plainTag ⟨[], [], []⟩ plainTag (.node ?_ fun c hc => ?_) (by decide)
  · exact {
      tagName := hletter _ (by decide)
      attribName := fun a ha => List.mem_singleton.mp ha ▸ hletter _ (by decide)
      attribUtf8 := fun a ha => List.mem_singleton.mp ha ▸ ⟨"1 < 2".toList, fun c _ => hfits c, by decide⟩
      attribLimit := fun a ha => List.mem_singleton.mp ha ▸ (by decide)
      dataUtf8 := fun h => (by cases h)
      dataLimit := fun h => (by cases h) }
  · obtain rfl := List.mem_singleton.mp hc
    refine .node ?_ fun c hc => (by cases hc)
    exact {
      tagName := hletter _ (by decide)
      attribName := fun a ha => (by cases ha)
      attribUtf8 := fun a ha => (by cases ha)
      attribLimit := fun a ha => (by cases ha)
      dataUtf8 := fun _ => ⟨"&lt;".toList, fun c _ => hfits c, by decide⟩
      dataLimit := fun _ => by decide }

/-- The characters that begin a name in XML; the reader has all but those from `:` to `z` commented out. -/
def xmlNameStartChar (c : Char) : Bool :=
  let inRange (a b : Nat) : Bool := a ≤ c.toNat && c.toNat ≤ b
  c = ':' || inRange 0x41 0x5a || c = '_' || inRange 0x61 0x7a || inRange 0xc0 0xd6 || inRange 0xd8 0xf6 ||
    inRange 0xf8 0x2ff || inRange 0x370 0x37d || inRange 0x37f 0x1fff || inRange 0x200c 0x200d ||
    inRange 0x2070 0x218f || inRange 0x2c00 0x2fef || inRange 0x3001 0xd7ff || inRange 0xf900 0xfdcf ||
    inRange 0xfdf0 0xfffd || inRange 0x10000 0xeffff

def xmlNameChar (c : Char) : Bool :=
  let inRange (a b : Nat) : Bool := a ≤ c.toNat && c.toNat ≤ b
  xmlNameStartChar c || c = '-' || c = '.' || inRange 0x30 0x39 || inRange 0xb7 0xb7 || inRange 0x300 0x36f ||
    inRange 0x203f 0x2040

/-- A name in XML, of any length. -/
def XmlName (name : Bytes) : Prop :=
  ∃ c cs, name = Text.encode (c :: cs) ∧ xmlNameStartChar c = true ∧ ∀ b ∈ cs, xmlNameChar b = true

def accentedTag : Tag := .node ⟨Text.encode ['é'], [], []⟩ []

/-- A name of characters that XML allows and the reader does not is written and not read back. -/
theorem not_fromXML_toXML : ¬∀ (cfg : Config) (root : Tag) (label : TagNode) (t : Tag),
    t.All (Writable XmlName cfg.platform.wcharBits) → t.depth < MAX_NESTING →
      ∃ fuel t', fromXML cfg fuel root (toXML (.node label [t])) = some (.ok (.node root.label [t'])) ∧ Same t t' := by
  intro h
  have hwritable : accentedTag.All (Writable XmlName plainConfig.platform.wcharBits) := by
    refine .node ?_ fun c hc => (by cases hc)
    exact {
      tagName := ⟨'é', [], rfl, by decide, fun b hb => (by cases hb)⟩
      attribName := fun a ha => (by cases ha)
      attribUtf8 := fun a ha => (by cases ha)
      attribLimit := fun a ha => (by cases ha)
      dataUtf8 := fun _ => ⟨[], fun c hc => (by cases hc), rfl⟩
      dataLimit := fun _ => by decide }
  obtain ⟨fuel, t', hread, _⟩ := h plainConfig accentedTag ⟨[], [], []⟩ accentedTag hwritable (by decide)
  cases fuel with
  | zero => cases hread
  | succ fuel =>
    have hone : process plainConfig 1 start (toXML (.node ⟨[], [], []⟩ [accentedTag])) =
        some (.error start (toXML (.node ⟨[], [], []⟩ [accentedTag])) "Expecting XML declaration, element or comment") := by
      decide
    rw [fromXML, parse, List.nil_append, process_mono_le plainConfig (Nat.le_add_left 1 fuel) hone] at hread
    cases hread

end Dcpp.SimpleXML
