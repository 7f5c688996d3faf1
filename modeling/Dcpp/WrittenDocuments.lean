import Dcpp.Base32
import Dcpp.ReaderUncut
import Dcpp.SimpleXMLRoundTrip
import Dcpp.Util

-- The documents that the program writes by hand, and what the reader makes of them.
namespace Dcpp.SimpleXML

open Incremental SimpleXMLReader

/-- Tags, each with the white space before it and before its end. A tag without content may have a space at its
end. -/
inductive Markup where
  | nil
  | simple (lead name : Bytes) (attribs : StringPairList) (spaced : Bool) (rest : Markup)
  | element (lead name : Bytes) (attribs : StringPairList) (inside : Markup) (last : Bytes) (rest : Markup)

namespace Markup

def text : Markup → Bytes
  | nil => []
  | simple lead name attribs spaced rest =>
    lead ++ (tagText name (texts attribs) ++ (if spaced then [byte ' '] else []) ++ str "/>") ++ rest.text
  | element lead name attribs inside last rest =>
    lead ++ (tagText name (texts attribs) ++ [byte '>']) ++ inside.text ++ last ++
      (str "</" ++ name ++ [byte '>']) ++ rest.text

/-- What the reader calls back. -/
def calls : Markup → List CallBack
  | nil => []
  | simple lead name attribs _ rest => textCalls lead ++ [.startTag name attribs true] ++ rest.calls
  | element lead name attribs inside last rest =>
    textCalls lead ++ [.startTag name attribs false] ++ inside.calls ++ textCalls last ++ [.endTag name] ++ rest.calls

def nesting : Markup → Nat
  | nil => 0
  | simple _ _ _ _ rest => max 1 rest.nesting
  | element _ _ _ inside _ rest => max (inside.nesting + 1) rest.nesting

/-- Tags without content, one for each entry of a list. -/
def leaves {α : Type*} (lead name : Bytes) (attribs : α → StringPairList) (l : List α) (rest : Markup) : Markup :=
  l.foldr (fun a m => .simple lead name (attribs a) false m) rest

section Leaves

variable {α : Type*} (lead name : Bytes) (attribs : α → StringPairList) (l : List α) (rest : Markup)

theorem text_leaves : (leaves lead name attribs l rest).text =
    (l.flatMap fun a => lead ++ (tagText name (texts (attribs a)) ++ str "/>")) ++ rest.text := by
  induction l with
  | nil => rfl
  | cons a l ih =>
    rw [leaves, List.foldr_cons, ← leaves, text, ih, if_neg Bool.false_ne_true, List.append_nil, List.flatMap_cons]
    exact (List.append_assoc _ _ _).symm

theorem calls_leaves : (leaves lead name attribs l rest).calls =
    (l.flatMap fun a => textCalls lead ++ [.startTag name (attribs a) true]) ++ rest.calls := by
  induction l with
  | nil => rfl
  | cons a l ih =>
    rw [leaves, List.foldr_cons, ← leaves, calls, ih, List.flatMap_cons]
    exact (List.append_assoc _ _ _).symm

theorem nesting_leaves : (leaves lead name attribs l rest).nesting ≤ max 1 rest.nesting := by
  induction l with
  | nil => exact Nat.le_max_right _ _
  | cons a l ih =>
    rw [leaves, List.foldr_cons, ← leaves, nesting]
    omega

end Leaves

end Markup

/-- White space that fits into the value of the reader. -/
structure Space (w : Bytes) : Prop where
  spaces : ∀ c ∈ w, isSpace c = true
  limit : w.length < MAX_VALUE_SIZE

/-- An attribute that the reader can take. -/
structure Takes (wcharBits : Nat) (a : Bytes × Bytes) : Prop where
  name : IsName a.1
  utf8 : Text.validateUtf8 wcharBits a.2 = true
  limit : a.2.length < MAX_VALUE_SIZE

/-- Tags that the reader can take. -/
inductive Readable (wcharBits : Nat) : Markup → Prop where
  | nil : Readable wcharBits .nil
  | simple {lead name : Bytes} {attribs : StringPairList} {spaced : Bool} {rest : Markup} : Space lead → IsName name →
    (∀ a ∈ attribs, Takes wcharBits a) → (spaced = true → attribs ≠ []) → Readable wcharBits rest →
    Readable wcharBits (.simple lead name attribs spaced rest)
  | element {lead name : Bytes} {attribs : StringPairList} {inside : Markup} {last : Bytes} {rest : Markup} :
    Space lead → IsName name → (∀ a ∈ attribs, Takes wcharBits a) → Readable wcharBits inside → Space last →
    Readable wcharBits rest → Readable wcharBits (.element lead name attribs inside last rest)

theorem readable_leaves {α : Type*} {wcharBits : Nat} {lead name : Bytes} {attribs : α → StringPairList} {l : List α}
    {rest : Markup} (hlead : Space lead) (hname : IsName name) (h : ∀ x ∈ l, ∀ a ∈ attribs x, Takes wcharBits a)
    (hrest : Readable wcharBits rest) : Readable wcharBits (Markup.leaves lead name attribs l rest) := by
  induction l with
  | nil => exact hrest
  | cons x l ih =>
    exact .simple hlead hname (h x List.mem_cons_self) (fun h => by cases h)
      (ih fun y hy => h y (List.mem_cons_of_mem _ hy))

/-- The end of a line after each piece, and before it. -/
theorem flatMap_between {α : Type*} (sep : Bytes) (f : α → Bytes) (l : List α) :
    sep ++ (l.flatMap fun a => f a ++ sep) = (l.flatMap fun a => sep ++ f a) ++ sep := by
  induction l with
  | nil => simp
  | cons a l ih => rw [List.flatMap_cons, List.flatMap_cons, List.append_assoc, ih, List.append_assoc, List.append_assoc]

/-- Lines of tags, with the end of a line before each tag and not after it. -/
theorem text_leaves_lines {α : Type*} (lead name : Bytes) (attribs : α → StringPairList) (l : List α) {rest : Markup}
    {t tail : Bytes} (h : rest.text ++ t = crlf ++ tail) :
    (Markup.leaves (crlf ++ lead) name attribs l rest).text ++ t =
      crlf ++ ((l.flatMap fun a => lead ++ (tagText name (texts (attribs a)) ++ str "/>") ++ crlf) ++ tail) := by
  have hlines := flatMap_between crlf (fun a => lead ++ (tagText name (texts (attribs a)) ++ str "/>")) l
  rw [← List.append_assoc crlf, hlines, Markup.text_leaves, List.append_assoc, h]
  simp only [List.append_assoc]

theorem flatten_flatMap {α : Type*} (f : α → List Bytes) (l : List α) :
    (l.flatMap f).flatten = l.flatMap fun a => (f a).flatten := by
  rw [← List.flatMap_id, List.flatMap_assoc]
  exact List.flatMap_congr fun a _ => List.flatMap_id

instance (name : Bytes) : Decidable (IsName name) :=
  match name with
  | [] => isFalse fun ⟨_, _, _, h, _⟩ => by cases h
  | c :: w => decidable_of_iff ((c :: w).length ≤ MAX_NAME_SIZE ∧ isNameStartChar c = true ∧ w.all isNameChar = true)
    ⟨fun ⟨hlen, hc, hw⟩ => ⟨hlen, c, w, rfl, hc, List.all_eq_true.mp hw⟩, fun ⟨hlen, _, _, h, hc, hw⟩ => by
      obtain ⟨rfl, rfl⟩ := List.cons.inj h
      exact ⟨hlen, hc, List.all_eq_true.mpr hw⟩⟩

/-- A short text of ASCII characters is valid. -/
theorem validateUtf8_of_all (wcharBits : Nat) {s : Bytes} (h : (s.all fun c => c < 128) = true) :
    Text.validateUtf8 wcharBits s = true :=
  Text.validateUtf8_of_ascii wcharBits fun c hc => of_decide_eq_true (List.all_eq_true.mp h c hc)

/-- Characters that are written as they are. -/
def Plain (w : Bytes) : Prop := ∀ c ∈ w, c < 128 ∧ special true c = false

theorem Plain.escape_eq {w : Bytes} (h : Plain w) : escape w true = w :=
  escape_of_not_needsEscape (List.any_eq_false.mpr fun c hc => by rw [(h c hc).2]; exact Bool.false_ne_true)

theorem Plain.utf8 {w : Bytes} (h : Plain w) (wcharBits : Nat) : Text.validateUtf8 wcharBits w = true :=
  Text.validateUtf8_of_ascii wcharBits fun c hc => (h c hc).1

/-- An attribute with a name of the program's and plain text. -/
theorem takes_plain (wcharBits : Nat) {name w : Bytes} (hname : IsName name) (h : Plain w) (hlen : w.length < MAX_VALUE_SIZE) :
    Takes wcharBits (name, w) := ⟨hname, h.utf8 wcharBits, hlen⟩

theorem plain_toString (val : Int) : Plain (Util.toString val) := by
  have hdigit {c : UInt8} (h : Util.isDigit c = true) : c < 128 ∧ special true c = false := by
    have hle : 48 ≤ c.toNat ∧ c.toNat ≤ 57 := by
      rw [Util.isDigit, Bool.and_eq_true, decide_eq_true_iff, decide_eq_true_iff] at h
      exact h
    refine ⟨UInt8.lt_iff_toNat_lt.mpr (by change c.toNat < 128; omega), ?_⟩
    rw [special]
    simp only [Bool.true_and, Bool.or_eq_false_iff, decide_eq_false_iff_not]
    refine ⟨⟨⟨?_, ?_⟩, ?_⟩, ?_, ?_⟩ <;> (rintro rfl; exact absurd hle (by decide))
  rw [Util.toString]
  split
  next =>
    intro c hc
    obtain rfl | hc := List.mem_cons.mp hc
    · exact ⟨by decide, by decide⟩
    · exact hdigit (Util.digits_isDigit _ c hc)
  next => exact fun c hc => hdigit (Util.digits_isDigit _ c hc)

theorem plain_toBase32 (src : Bytes) : Plain (Encoder.toBase32 src) := by
  intro c hc
  obtain ⟨w, rfl⟩ := Encoder.mem_toBase32Loop src 0 c hc
  have hall : (0 :: Encoder.base32Alphabet).all (fun c => decide (c < 128 ∧ special true c = false)) = true := by decide
  refine of_decide_eq_true (List.all_eq_true.mp hall _ ?_)
  rw [List.getD_eq_getElem?_getD]
  cases h : Encoder.base32Alphabet[w.toNat]? with
  | none => exact List.mem_cons_self
  | some c => exact List.mem_cons_of_mem _ (List.mem_of_getElem? h)

/-- A number of 64 bits is short. -/
theorem length_toString {val : Int} (h : val.natAbs < 2 ^ 64) : (Util.toString val).length < MAX_VALUE_SIZE := by
  have hdigits : (Util.digits val.natAbs).length ≤ 20 := by
    rw [Util.digits, List.length_map]
    exact (Nat.length_toDigits_le_iff (by omega) (by omega)).mpr (by omega)
  rw [Util.toString, MAX_VALUE_SIZE]
  split
  next => rw [List.length_cons]; omega
  next => omega

theorem takes_toString (wcharBits : Nat) {name : Bytes} (hname : IsName name) {val : Int} (h : val.natAbs < 2 ^ 64) :
    Takes wcharBits (name, Util.toString val) :=
  takes_plain wcharBits hname (plain_toString val) (length_toString h)

/-- A hash as it is written. -/
theorem takes_toBase32 (wcharBits : Nat) {name : Bytes} (hname : IsName name) {src : Bytes} (h : src.length ≤ Encoder.BYTES) :
    Takes wcharBits (name, Encoder.toBase32 src) := by
  refine takes_plain wcharBits hname (plain_toBase32 src) ?_
  rw [Encoder.BYTES] at h
  rw [Encoder.length_toBase32, MAX_VALUE_SIZE]
  omega

section Reading

variable {cfg : Config} {enc : Bytes} (hencoding : enc = [] ∨ enc = Text.utf8)

theorem isSpace_ascii {c : UInt8} (h : isSpace c = true) : c < 128 ∧ c ≠ byte '<' ∧ c ≠ byte '&' := by
  simp only [isSpace, Bool.or_eq_true, decide_eq_true_eq] at h
  obtain ((rfl | rfl) | rfl) | rfl := h <;> decide

theorem spells_space {w : Bytes} (h : ∀ c ∈ w, isSpace c = true) : Spells (byte '<') w w := by
  induction w with
  | nil => exact .nil
  | cons c w ih =>
    obtain ⟨_, hlt, hamp⟩ := isSpace_ascii (h c List.mem_cons_self)
    exact .char hlt hamp (ih fun b hb => h b (List.mem_cons_of_mem _ hb))

theorem reads_space {w : Bytes} (h : Space w) (es : List Bytes) (cs : List CallBack) :
    Reads (machine cfg) (fun rest => isSpace (charAt rest 0) = false) ⟨[], [], enc, .CONTENT, es, cs⟩ w
      ⟨[], w, enc, .CONTENT, es, cs⟩ :=
  (@reads_text cfg enc w w [] es cs (spells_space h.spaces) [] h.limit).mono fun _ hrest => ⟨hrest, Or.inl h.spaces⟩

include hencoding

theorem Space.decodes {w : Bytes} (h : Space w) : decodeString cfg enc w = some w :=
  decodeString_of_valid cfg hencoding
    (Text.validateUtf8_of_ascii _ fun c hc => (isSpace_ascii (h.spaces c hc)).1)

theorem takes_attrs {attribs : StringPairList} (h : ∀ a ∈ attribs, Takes cfg.platform.wcharBits a) :
    List.Forall₂ (Attr cfg enc) (texts attribs) attribs := by
  rw [texts, List.forall₂_map_left_iff, List.forall₂_same]
  intro a ha
  exact ⟨rfl, (h a ha).name, spells_escape true a.2, (h a ha).limit, decodeString_of_valid cfg hencoding (h a ha).utf8⟩

omit hencoding in
/-- The tag of an element without content that has a space at its end. -/
theorem reads_simple_spaced {r : Reader} {es : List Bytes} {cs : List CallBack} (hr : Enters cfg r enc es cs)
    {name : Bytes} (hname : IsName name) {text : Bytes × Bytes} {texts : List (Bytes × Bytes)}
    {attribs : StringPairList} (h : List.Forall₂ (Attr cfg enc) (text :: texts) attribs) :
    Reads (machine cfg) (fun _ => True) r (tagText name (text :: texts) ++ [byte ' '] ++ str "/>")
      ⟨[], [], enc, .CONTENT, es, cs ++ [.startTag name attribs true]⟩ := by
  obtain ⟨hlen, c, w, rfl, hc, hw⟩ := hname
  have hclose := (@reads_attr_slash cfg attribs.reverse enc ((c :: w) :: es) cs).append
    (reads_simple_close cfg) fun _ _ => trivial
  have hspaced := (@reads_attr_space cfg attribs.reverse enc ((c :: w) :: es) cs).append hclose fun rest _ => rfl
  have hread := ((hr c hc).append (reads_name_attrs hlen hw h) fun _ _ => trivial).append hspaced
    fun rest _ => Nat.le_add_left 2 (rest.length + 1)
  rw [List.reverse_reverse] at hread
  simpa [tagText, str] using hread

omit hencoding in
theorem tagText_head {name : Bytes} (texts : List (Bytes × Bytes)) : ∃ w, tagText name texts = byte '<' :: w := ⟨_, rfl⟩

/-- The reader takes the tags and makes its callbacks. -/
theorem reads_markup {m : Markup} (hm : Readable cfg.platform.wcharBits m) (es : List Bytes) (cs : List CallBack)
    (hdepth : es.length + m.nesting ≤ MAX_NESTING) :
    Reads (machine cfg) (fun _ => True) ⟨[], [], enc, .CONTENT, es, cs⟩ m.text
      ⟨[], [], enc, .CONTENT, es, cs ++ m.calls⟩ := by
  induction hm generalizing es cs with
  | nil =>
    rw [Markup.text, Markup.calls, List.append_nil]
    exact Reads.refl _ _
  | @simple lead name attribs spaced rest hlead hname hattribs hspaced _ ih =>
    rw [Markup.text, Markup.calls]
    rw [Markup.nesting] at hdepth
    have henter := @enters_content cfg enc es cs lead (by omega) (hlead.decodes hencoding)
    have htag : Reads (machine cfg) (fun _ => True) ⟨[], lead, enc, .CONTENT, es, cs⟩
        (tagText name (texts attribs) ++ (if spaced then [byte ' '] else []) ++ str "/>")
        ⟨[], [], enc, .CONTENT, es, cs ++ textCalls lead ++ [.startTag name attribs true]⟩ := by
      have hattrs := @takes_attrs cfg enc hencoding attribs hattribs
      cases spaced with
      | false =>
        rw [if_neg Bool.false_ne_true, List.append_nil]
        exact reads_simple henter hname hattrs
      | true =>
        obtain ⟨a, attribs, rfl⟩ := List.exists_cons_of_ne_nil (hspaced rfl)
        exact reads_simple_spaced henter hname hattrs
    have hread := ((reads_space hlead es cs).append htag fun rest _ => rfl).append
      (ih es (cs ++ textCalls lead ++ [.startTag name attribs true]) (by omega)) fun _ _ => trivial
    simpa only [List.append_assoc] using hread
  | @element lead name attribs inside last rest hlead hname hattribs _ hlast _ ihi ihr =>
    rw [Markup.text, Markup.calls]
    rw [Markup.nesting] at hdepth
    have henter := @enters_content cfg enc es cs lead (by omega) (hlead.decodes hencoding)
    have hopen := reads_open henter hname (@takes_attrs cfg enc hencoding attribs hattribs)
    have hinside := ihi (name :: es) (cs ++ textCalls lead ++ [.startTag name attribs false])
      (by rw [List.length_cons]; omega)
    have hlastread := @reads_space cfg enc last hlast (name :: es)
      (cs ++ textCalls lead ++ [.startTag name attribs false] ++ inside.calls)
    have hclose := @reads_close cfg enc [] es (cs ++ textCalls lead ++ [.startTag name attribs false] ++ inside.calls)
      last name hname (hlast.decodes hencoding)
    have hrest := ihr es (cs ++ textCalls lead ++ [.startTag name attribs false] ++ inside.calls ++ textCalls last ++
      [.endTag name]) (by omega)
    have hbody := (hinside.append hlastread fun _ _ => trivial).append hclose fun rest _ => rfl
    have hread := (((reads_space hlead es cs).append hopen fun rest _ => rfl).append hbody fun rest _ => by
      simp only [List.length_append, List.length_singleton]
      omega).append hrest fun _ _ => trivial
    simpa only [List.append_assoc] using hread

end Reading

/-- The declaration without the end of its line. -/
def xmlDeclaration : Bytes := str "<?xml version=\"1.0\" encoding=\"utf-8\" standalone=\"yes\"?>"

theorem utf8Header_eq : utf8Header = xmlDeclaration ++ crlf := by decide

/-- The reader while the declaration is read. -/
def declaring (s : ParseState) (enc : Bytes) : Reader := ⟨[], [], enc, s, [], []⟩

/-- A piece of the declaration that is read in one round. -/
theorem reads_piece (cfg : Config) {enc : Bytes} {s newState : ParseState} {w : Bytes} {P : Bytes → Prop} (hw : w ≠ [])
    (hend : s ≠ .END) (hname : ¬(s = .DECL_ENCODING_NAME_APOS ∨ s = .DECL_ENCODING_NAME_QUOT))
    (hcase : ∀ rest, P rest → simpleCase cfg (declaring s enc) (w ++ rest) = .ret true (declaring newState enc) rest) :
    Reads (machine cfg) P (declaring s enc) w (declaring newState enc) := by
  apply Reads.single
  intro rest hrest
  have hlen := List.length_pos_iff.mpr hw
  refine machine_next hend hname (hcase rest hrest) ?_ fun h => h.2.2 rfl
  rw [List.length_append]
  omega

theorem reads_encoding_name (cfg : Config) (hlower : cfg.platform.toLower Text.utf8 = Text.utf8) :
    Reads (machine cfg) (fun rest => ∃ t, rest = str "standalone" ++ t) (declaring .DECL_ENCODING_NAME_QUOT [])
      (str "utf-8\" ") (declaring .DECL_STANDALONE Text.utf8) := by
  apply Reads.single
  rintro _ ⟨t, rfl⟩
  have hloop : declEncodingValue cfg 6 (declaring .DECL_ENCODING_NAME_QUOT []) (str "utf-8\" " ++ (str "standalone" ++ t)) =
      some (.ret true (declaring .DECL_STANDALONE Text.utf8) (byte ' ' :: (str "standalone" ++ t))) := by
    have hset : declaring .DECL_STANDALONE Text.utf8 = declaring .DECL_STANDALONE (cfg.platform.toLower Text.utf8) := by
      rw [hlower]
    rw [hset]
    rfl
  have hafter : afterEncoding (.ret true (declaring .DECL_STANDALONE Text.utf8) (byte ' ' :: (str "standalone" ++ t))) =
      .ret true (declaring .DECL_STANDALONE Text.utf8) (str "standalone" ++ t) := rfl
  refine (machine_encoding (Or.inr rfl)).mpr ⟨6, _, hloop, ?_⟩
  rw [hafter]
  rfl

/-- The declaration is read to where the first element may begin. -/
theorem reads_declaration (cfg : Config) (hlower : cfg.platform.toLower Text.utf8 = Text.utf8) :
    Reads (machine cfg) (fun _ => True) start xmlDeclaration ⟨[], [], Text.utf8, .CONTENT, [], []⟩ := by
  have hone (s newState : ParseState) (enc w : Bytes) (hw : w ≠ []) (hend : s ≠ .END)
      (hname : ¬(s = .DECL_ENCODING_NAME_APOS ∨ s = .DECL_ENCODING_NAME_QUOT))
      (hcase : ∀ rest, simpleCase cfg (declaring s enc) (w ++ rest) = .ret true (declaring newState enc) rest) :
      Reads (machine cfg) (fun _ => True) (declaring s enc) w (declaring newState enc) :=
    reads_piece cfg hw hend hname fun rest _ => hcase rest
  have hspace : Reads (machine cfg) (fun rest => ∃ t, rest = str "encoding" ++ t) (declaring .DECL_ENCODING [])
      (str " ") (declaring .DECL_ENCODING []) := by
    refine reads_piece cfg (by decide) (by decide) (by decide) ?_
    rintro _ ⟨t, rfl⟩
    rfl
  have hversion := ((hone .START .DECL_VERSION [] (str "<?xml ") (by decide) (by decide) (by decide) fun _ => rfl).append
    (hone .DECL_VERSION .DECL_VERSION_EQ [] (str "version") (by decide) (by decide) (by decide) fun _ => rfl)
    fun _ _ => trivial).append
    (hone .DECL_VERSION_EQ .DECL_VERSION_NUM [] (str "=") (by decide) (by decide) (by decide) fun _ => rfl)
    fun _ _ => trivial
  have hencoding := ((hspace.append
    (hone .DECL_ENCODING .DECL_ENCODING_EQ [] (str "encoding") (by decide) (by decide) (by decide) fun _ => rfl)
    fun rest _ => ⟨rest, rfl⟩).append
    (hone .DECL_ENCODING_EQ .DECL_ENCODING_NAME [] (str "=") (by decide) (by decide) (by decide) fun _ => rfl)
    fun _ _ => trivial).append
    (hone .DECL_ENCODING_NAME .DECL_ENCODING_NAME_QUOT [] (str "\"") (by decide) (by decide) (by decide) fun _ => rfl)
    fun _ _ => trivial
  have hstandalone := (((hone .DECL_STANDALONE .DECL_STANDALONE_EQ Text.utf8 (str "standalone") (by decide) (by decide)
    (by decide) fun _ => rfl).append
    (hone .DECL_STANDALONE_EQ .DECL_STANDALONE_YES Text.utf8 (str "=") (by decide) (by decide) (by decide) fun _ => rfl)
    fun _ _ => trivial).append
    (hone .DECL_STANDALONE_YES .DECL_END Text.utf8 (str "\"yes\"") (by decide) (by decide) (by decide) fun _ => rfl)
    fun _ _ => trivial).append
    (hone .DECL_END .CONTENT Text.utf8 (str "?>") (by decide) (by decide) (by decide) fun _ => rfl) fun _ _ => trivial
  have hnum := hone .DECL_VERSION_NUM .DECL_ENCODING [] (str "\"1.0\"") (by decide) (by decide) (by decide) fun _ => rfl
  have hread := (((hversion.append hnum fun _ _ => trivial).append hencoding fun _ _ => trivial).append
    (reads_encoding_name cfg hlower) fun _ _ => trivial).append hstandalone fun rest _ => ⟨_, rfl⟩
  exact hread

section References

theorem noNumbers_ref {c : UInt8} {w : Bytes} (hc : c ≠ byte '#') (hw : byte '&' ∉ c :: w) :
    NoNumbers (byte '&' :: c :: w) := by
  intro u v h
  cases u with
  | nil => exact ⟨c, w, (List.cons.inj h).2.symm, hc⟩
  | cons d u =>
    refine absurd ?_ hw
    rw [(List.cons.inj h).2]
    exact List.mem_append_right u List.mem_cons_self

theorem noNumbers_escapeChar (aAttrib : Bool) (c : UInt8) : NoNumbers (escapeChar aAttrib c) := by
  rw [escapeChar]
  split
  next h =>
    refine noNumbers_of_not_mem fun hmem => ?_
    obtain rfl := List.mem_singleton.mp hmem
    cases aAttrib <;> cases h
  next =>
    split
    next => exact noNumbers_ref (by decide) (by decide)
    next =>
      split
      next => exact noNumbers_ref (by decide) (by decide)
      next =>
        split
        next => exact noNumbers_ref (by decide) (by decide)
        next =>
          split
          next => exact noNumbers_ref (by decide) (by decide)
          next => exact noNumbers_ref (by decide) (by decide)

theorem noNumbers_flatMap {α : Type*} {f : α → Bytes} {l : List α} (h : ∀ a ∈ l, NoNumbers (f a)) :
    NoNumbers (l.flatMap f) := by
  induction l with
  | nil => exact noNumbers_of_not_mem List.not_mem_nil
  | cons a l ih =>
    rw [List.flatMap_cons]
    exact (h a List.mem_cons_self).append (ih fun b hb => h b (List.mem_cons_of_mem _ hb))

/-- All references that `escape` writes are named. -/
theorem noNumbers_escape (s : Bytes) (aAttrib : Bool) : NoNumbers (escape s aAttrib) :=
  noNumbers_flatMap fun c _ => noNumbers_escapeChar aAttrib c

theorem Space.noNumbers {w : Bytes} (h : Space w) : NoNumbers w :=
  noNumbers_of_not_mem fun hmem => (isSpace_ascii (h.spaces _ hmem)).2.2 rfl

theorem noNumbers_name {name : Bytes} (h : IsName name) : NoNumbers name := by
  obtain ⟨_, c, w, rfl, hc, hw⟩ := h
  refine noNumbers_of_not_mem fun hmem => ?_
  obtain heq | hmem := List.mem_cons.mp hmem
  · rw [← heq] at hc
    cases hc
  · cases hw _ hmem

theorem noNumbers_tag {wcharBits : Nat} {name : Bytes} {attribs : StringPairList} (hname : IsName name)
    (hattribs : ∀ a ∈ attribs, Takes wcharBits a) : NoNumbers (tagText name (texts attribs)) := by
  have hlit (w : Bytes) (h : byte '&' ∉ w) : NoNumbers w := noNumbers_of_not_mem h
  rw [tagText, texts, List.flatMap_map]
  refine ((hlit [byte '<'] (by decide)).append (noNumbers_name hname)).append (noNumbers_flatMap fun a ha => ?_)
  exact (hlit [byte ' '] (by decide)).append ((((noNumbers_name (hattribs a ha).name).append
    (hlit (str "=\"") (by decide))).append (noNumbers_escape a.2 true)).append (hlit [byte '"'] (by decide)))

theorem Readable.noNumbers {wcharBits : Nat} {m : Markup} (h : Readable wcharBits m) : NoNumbers m.text := by
  have hlit (w : Bytes) (h : byte '&' ∉ w) : NoNumbers w := noNumbers_of_not_mem h
  induction h with
  | nil => exact hlit [] List.not_mem_nil
  | @simple _ _ _ spaced _ hlead hname hattribs _ _ ih =>
    rw [Markup.text]
    refine (hlead.noNumbers.append (((noNumbers_tag hname hattribs).append ?_).append (hlit (str "/>") (by decide)))).append
      ih
    cases spaced
    · exact hlit [] List.not_mem_nil
    · exact hlit [byte ' '] (by decide)
  | element hlead hname hattribs _ hlast _ ihi ihr =>
    rw [Markup.text]
    exact ((((hlead.noNumbers.append ((noNumbers_tag hname hattribs).append (hlit [byte '>'] (by decide)))).append
      ihi).append hlast.noNumbers).append
      (((hlit (str "</") (by decide)).append (noNumbers_name hname)).append (hlit [byte '>'] (by decide)))).append ihr

end References

theorem readStream_mono_le (cfg : Config) {fuel fuel' : Nat} (hle : fuel ≤ fuel') {maxSize bytesRead : Nat} {r : Reader}
    {buf : Bytes} {chunks : List Bytes} {x : Reader × Option String}
    (h : readStream cfg fuel maxSize bytesRead r buf chunks = some x) :
    readStream cfg fuel' maxSize bytesRead r buf chunks = some x := by
  induction chunks generalizing bytesRead r buf with
  | nil => exact h
  | cons data chunks ih =>
    rw [readStream] at h ⊢
    split at h
    next hlarge =>
      rw [if_pos hlarge]
      exact h
    next hfits =>
      rw [if_neg hfits]
      cases hprocess : process cfg fuel r (buf ++ data) with
      | none =>
        rw [hprocess] at h
        cases h
      | some y =>
        rw [process_mono_le cfg hle hprocess]
        rw [hprocess] at h
        cases y with
        | next r buf => cases h
        | error r buf message => exact h
        | done more r buf =>
          cases more with
          | false => exact h
          | true => exact ih h

/-- What is read is the same with any fuel that is enough. -/
theorem readStream_det (cfg : Config) {fuel fuel' : Nat} {maxSize bytesRead : Nat} {r : Reader} {buf : Bytes}
    {chunks : List Bytes} {x x' : Reader × Option String} (h : readStream cfg fuel maxSize bytesRead r buf chunks = some x)
    (h' : readStream cfg fuel' maxSize bytesRead r buf chunks = some x') : x = x' := by
  have hmax := readStream_mono_le cfg (Nat.le_max_left fuel fuel') h
  have hmax' := readStream_mono_le cfg (Nat.le_max_right fuel fuel') h'
  rw [hmax] at hmax'
  exact Option.some.inj hmax'

/-- A document that the program writes is read as what it says, whatever the buffers that it comes in. -/
theorem readStream_written {cfg : Config} (hlower : cfg.platform.toLower Text.utf8 = Text.utf8) {m : Markup}
    (hm : Readable cfg.platform.wcharBits m) (hdepth : m.nesting ≤ MAX_NESTING) {last : Bytes} (hlast : Space last)
    {chunks : List Bytes} (h : chunks.flatten = xmlDeclaration ++ m.text ++ last) {maxSize : Nat}
    (hsize : maxSize = 0 ∨ chunks.flatten.length ≤ maxSize) :
    ∃ fuel, readStream cfg fuel maxSize 0 start [] chunks = some (⟨[], last, Text.utf8, .CONTENT, [], m.calls⟩, none) := by
  have hread := ((reads_declaration cfg hlower).append
    (@reads_markup cfg Text.utf8 (Or.inr rfl) m hm [] [] (by rwa [List.length_nil, Nat.zero_add])) fun _ _ => trivial).append
    (reads_space hlast [] m.calls) fun _ _ => trivial
  have hsteps : Steps (machine cfg) start chunks.flatten ⟨[], last, Text.utf8, .CONTENT, [], m.calls⟩ [] := by
    have hnil := hread [] rfl
    rwa [List.append_nil, ← h] at hnil
  obtain ⟨fuel, hprocess⟩ := process_of_steps hsteps rfl
  refine readStream_of_steps cfg ?_ ?_ (runs_of_process cfg hprocess) hsize
  · rw [h]
    exact ((noNumbers_of_not_mem (by decide)).append hm.noNumbers).append hlast.noNumbers
  · rw [h, List.append_assoc]
    exact ⟨str " standalone=\"yes\"?>" ++ (m.text ++ last), rfl⟩

end Dcpp.SimpleXML
