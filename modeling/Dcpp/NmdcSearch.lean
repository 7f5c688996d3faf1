import Dcpp.NmdcInRange

-- What an NMDC hub passes on of a search.
namespace Dcpp

/-- The value of the enumeration. -/
def ShareManager.SearchManager.TypeModes.value : TypeModes → Int
  | .TYPE_ANY => 0
  | TypeModes.TYPE_AUDIO => 1
  | .TYPE_COMPRESSED => 2
  | .TYPE_DOCUMENT => 3
  | .TYPE_EXECUTABLE => 4
  | .TYPE_PICTURE => 5
  | .TYPE_VIDEO => 6
  | .TYPE_DIRECTORY => 7
  | .TYPE_TTH => 8

namespace NmdcHub

open Edit Util ShareManager.SearchManager Text

/-- The loop that puts a `$` in the place of every space. -/
def dollars (tmp : Bytes) : Option Bytes :=
  whileFind (fun s _ => find [byte ' '] s 0) (fun s i => (s.set i (byte '$'), i)) (tmp.length + 1) tmp 0

def checkNick (nick : Bytes) : Bytes := nick.map fun c => if c ≤ 32 ∨ c ∈ str "|$<>" then byte '_' else c

variable {U : Type} [DecidableEq U] (env : Environment U)

/-- Who is searching: the address of an active client, or the nick of a passive one. -/
def seeker (h : NmdcHub U) : Bytes :=
  if env.isActive then h.localIp ++ str ":" ++ env.searchPort else str "Hub:" ++ fromUtf8 env h.getMyNick

/-- The two letters for the sizes that are wanted. -/
def sizeLetters (aSizeType : SizeModes) : UInt8 × UInt8 :=
  (if aSizeType = .SIZE_DONTCARE then byte 'F' else byte 'T', if aSizeType = .SIZE_ATLEAST then byte 'F' else byte 'T')

/-- What is searched for, with the escapes of a command. -/
def searchText (aFileType : TypeModes) (aString : Bytes) : Option Bytes :=
  if aFileType = .TYPE_TTH then some (str "TTH:" ++ aString) else (escape aString).map (fromUtf8 env)

def search (h : NmdcHub U) (aSizeType : SizeModes) (aSize : Int) (aFileType : TypeModes) (aString : Bytes) :
    Option (NmdcHub U) :=
  if h.state ≠ .NORMAL then some h
  else do
    let tmp ← dollars (← searchText env aFileType aString)
    let c := sizeLetters aSizeType
    return h.send (str "$Search " ++ h.seeker env ++ [byte ' ', c.1, byte '?', c.2, byte '?'] ++ Util.toString aSize ++
      byte '?' :: (Util.toString (aFileType.value + 1) ++ byte '?' :: tmp) ++ [byte '|'])

/-- The hub is encoded in UTF-8: text is left alone. -/
structure IsUtf8 : Prop where
  toUtf8 : ∀ s, IsText s → env.clients.toUtf8 s env.encoding = s
  fromUtf8 : ∀ s, IsText s → env.fromUtf8 s env.encoding = s

/-- What a search shows of a space. -/
def spaceless (c : UInt8) : UInt8 := if c = byte ' ' then byte '$' else c

theorem map_spaceless {s : Bytes} (h : byte ' ' ∉ s) : s.map spaceless = s := by
  conv_rhs => rw [← List.map_id s]
  exact List.map_congr_left fun c hc => if_neg fun heq : c = byte ' ' => h (heq ▸ hc)

theorem dollars_eq (tmp : Bytes) : dollars tmp = some (tmp.map spaceless) := by
  have hloop (rounds : Nat) (u v : Bytes) (i : Nat) (hu : byte ' ' ∉ u) (hv : v.length < rounds) :
      whileFind (fun s _ => find [byte ' '] s 0) (fun s i => (s.set i (byte '$'), i)) rounds (u ++ v) i =
        some (u ++ v.map spaceless) := by
    induction rounds generalizing u v i with
    | zero => cases hv
    | succ rounds ih =>
      rw [whileFind]
      by_cases hmem : byte ' ' ∈ v
      · obtain ⟨w, v, rfl, hw⟩ := List.eq_append_cons_of_mem hmem
        have hdone : byte ' ' ∉ u ++ w ++ [byte '$'] := by
          rw [List.mem_append, List.mem_append, List.mem_singleton]
          exact fun h => h.elim (fun h => h.elim hu hw) (by decide)
        have hset : (u ++ w ++ byte ' ' :: v).set (u ++ w).length (byte '$') = u ++ w ++ [byte '$'] ++ v := by
          simp
        have hmap : (w ++ byte ' ' :: v).map spaceless = w ++ byte '$' :: v.map spaceless := by
          rw [List.map_append, map_spaceless hw, List.map_cons]
          rfl
        rw [List.length_append, List.length_cons] at hv
        rw [← List.append_assoc, find_first fun h => hdone (List.mem_append_left _ h)]
        dsimp only
        rw [hset, ih _ v _ hdone (by omega), hmap, List.append_assoc, List.append_assoc]
        rfl
      · rw [find_char_none fun h => (List.mem_append.mp h).elim hu hmem, map_spaceless hmem]
  exact hloop (tmp.length + 1) [] tmp 0 List.not_mem_nil (Nat.lt_succ_self _)

/-- The receiver unescapes to the text with the separator in the place of the spaces. -/
theorem unescape_spaceless {s escaped : Bytes} (h : unescape escaped = some s) :
    unescape (escaped.map spaceless) = some (s.map spaceless) := by
  have hplain {p : Bytes} (hp : byte ' ' ∉ p ∧ byte '$' ∉ p) : ∀ c ∈ p, ∀ x, spaceless x = c ↔ x = c := by
    intro c hc x
    by_cases hx : x = byte ' '
    · subst hx
      exact iff_of_false (fun h : byte '$' = c => hp.2 (h ▸ hc)) fun h => hp.1 (h ▸ hc)
    · rw [spaceless, if_neg hx]
  rw [unescape, validateMessage_true, Option.some_inj] at h ⊢
  rw [substitute_map (hplain (by decide)) (by decide), substitute_map (hplain (by decide)) (by decide),
    substitute_map (hplain (by decide)) (by decide), h]

/-- The pieces of a text without the separator. -/
theorem splitOn_spaceless {s : Bytes} (h : byte '$' ∉ s) :
    (s.map spaceless).splitOn (byte '$') = s.splitOn (byte ' ') := by
  induction s with
  | nil => rfl
  | cons c s ih =>
    rw [List.mem_cons, not_or] at h
    rw [List.map_cons, List.splitOn_cons_eq_if_modifyHead, List.splitOn_cons_eq_if_modifyHead, ih h.2]
    by_cases hc : c = byte ' '
    · subst hc
      rfl
    · have hsep : (c == byte '$') = false := beq_eq_false_iff_ne.mpr (Ne.symm h.1)
      have hspace : (c == byte ' ') = false := beq_eq_false_iff_ne.mpr hc
      rw [spaceless, if_neg hc, hsep, hspace]

section Text

theorem isText_mark {names : List Bytes} {s : Bytes} (h : IsText s) : IsText (mark names s) := by
  have hpass (d t : Bytes) (hd : byte '&' ∉ d) : mark names (d ++ t) = d ++ mark names t := by
    induction d with
    | nil => rfl
    | cons c d ih =>
      rw [List.mem_cons, not_or] at hd
      rw [List.cons_append, mark_of_ne (Ne.symm hd.1), ih hd.2, List.cons_append]
  obtain ⟨cs, rfl⟩ := h
  induction cs with
  | nil => exact ⟨[], rfl⟩
  | cons c cs ih =>
    have hsplit : encode (c :: cs) = String.utf8EncodeChar c ++ encode cs := rfl
    rw [hsplit]
    by_cases hamp : byte '&' ∈ String.utf8EncodeChar c
    · obtain ⟨b, -, hb⟩ | hall := encodeChar_cases c
      · rw [hb, List.mem_singleton] at hamp
        rw [hb, ← hamp, List.singleton_append]
        by_cases hname : ∃ x ∈ names, x <+: encode cs
        · rw [mark_of_name hname]
          exact isText_append (isText_ascii (by decide +kernel)) ih
        · rw [mark_of_not_name hname]
          exact isText_append (s := [byte '&']) (isText_ascii (by decide +kernel)) ih
      · exact absurd (hall _ hamp) (by decide)
    · rw [hpass _ _ hamp]
      exact isText_append (isText_char c) ih

/-- Escaped text is text. -/
theorem isText_escape {s escaped : Bytes} (h : IsText s) (hescape : escape s = some escaped) : IsText escaped := by
  rw [escape, validateMessage_escape, Option.some_inj] at hescape
  subst hescape
  refine isText_flatMap (fun b hb => isText_ascii ?_) (fun b hb => ?_) (isText_mark h)
  · have hcodes : ∀ y ∈ [bar, dollar], ∀ c ∈ byte '&' :: y.2, c < 128 := by decide +kernel
    obtain hentity | ⟨y, hy, -, hentity⟩ := entity_cases [bar, dollar] b
    · rw [hentity]
      exact fun c hc => (List.mem_singleton.mp hc) ▸ hb
    · rw [hentity]
      exact hcodes y hy
  · have hkeys : ∀ y ∈ [bar, dollar], ¬128 ≤ y.1 := by decide
    obtain hentity | ⟨y, hy, hkey, -⟩ := entity_cases [bar, dollar] b
    · exact hentity
    · exact absurd (hkey ▸ hb) (hkeys y hy)

theorem isText_spaceless {s : Bytes} (h : IsText s) : IsText (s.map spaceless) := by
  rw [List.map_eq_flatMap]
  refine isText_flatMap (fun b hb => isText_ascii fun c hc => ?_) (fun b hb => ?_) h
  · rw [List.mem_singleton.mp hc, spaceless]
    split
    next => decide
    next => exact hb
  · have hspace : b ≠ byte ' ' := fun h => absurd (h ▸ hb) (by decide)
    rw [spaceless, if_neg hspace]

variable {env}

omit [DecidableEq U] in
theorem toUtf8_text (h : IsUtf8 env) {s : Bytes} (hs : IsText s) : toUtf8 env s = s := by
  rw [NmdcHub.toUtf8, h.toUtf8 s hs, ite_self]

omit [DecidableEq U] in
theorem fromUtf8_text (h : IsUtf8 env) {s : Bytes} (hs : IsText s) : fromUtf8 env s = s := h.fromUtf8 s hs

end Text

/-- A nick that has been checked can be a seeker. -/
theorem mem_checkNick (nick : Bytes) : byte ' ' ∉ checkNick nick ∧ byte '|' ∉ checkNick nick := by
  have hchecked (d : UInt8) (hd : d ≤ 32 ∨ d ∈ str "|$<>") (hne : d ≠ byte '_') : d ∉ checkNick nick := by
    intro hmem
    obtain ⟨c, -, hc⟩ := List.mem_map.mp hmem
    split at hc
    next => exact hne hc.symm
    next hplain => exact hplain (hc ▸ hd)
  exact ⟨hchecked _ (by decide) (by decide), hchecked _ (by decide) (by decide)⟩

/-- What a search sends behind the seeker. -/
def options (aSizeType : SizeModes) (aSize : Int) (aFileType : TypeModes) (terms : Bytes) : Bytes :=
  [(sizeLetters aSizeType).1, byte '?', (sizeLetters aSizeType).2, byte '?'] ++ (Util.toString aSize ++
    byte '?' :: (Util.toString (aFileType.value + 1) ++ byte '?' :: terms))

variable {env}

omit [DecidableEq U] in
theorem search_eq (hutf8 : IsUtf8 env) {h : NmdcHub U} (hstate : h.state = .NORMAL) (aSizeType : SizeModes)
    (aSize : Int) {aFileType : TypeModes} (htype : aFileType ≠ .TYPE_TTH) {s escaped : Bytes} (hs : IsText s)
    (hescape : escape s = some escaped) :
    h.search env aSizeType aSize aFileType s = some (h.send (str "$Search " ++ (h.seeker env ++ byte ' ' ::
      options aSizeType aSize aFileType (escaped.map spaceless)) ++ [byte '|'])) := by
  rw [search, if_neg (not_not.mpr hstate), searchText, if_neg htype, hescape, Option.map_some,
    fromUtf8_text hutf8 (isText_escape hs hescape)]
  simp only [Option.bind_eq_bind, Option.bind_some, dollars_eq, options, List.append_assoc, List.cons_append,
    List.nil_append, Option.pure_def]

theorem sizeMode_letters (aSizeType : SizeModes) (u v : Bytes) :
    sizeMode (u ++ ([(sizeLetters aSizeType).1, byte '?', (sizeLetters aSizeType).2, byte '?'] ++ v)) u.length =
      some aSizeType := by
  have hfirst (c c' : UInt8) : charAt (u ++ ([c, byte '?', c', byte '?'] ++ v)) u.length = some c := by
    rw [charAt_of_le (by simp)]
    simp
  have hsecond (c c' : UInt8) : charAt (u ++ ([c, byte '?', c', byte '?'] ++ v)) (u.length + 2) = some c' := by
    rw [charAt_of_le (by simp)]
    simp [List.getD_eq_getElem?_getD]
  rw [sizeMode, hfirst, hsecond]
  cases aSizeType <;> rfl

/-- Behind the seeker the receiver reads what the sender has written. -/
theorem searchTerms_options (h : NmdcHub U) (seeker : Bytes) (aSizeType : SizeModes) {aSize : Int}
    (hsize : 0 ≤ aSize ∧ aSize ≤ INT64_MAX) (aFileType : TypeModes) {escaped terms : Bytes}
    (hterms : unescape escaped = some terms) :
    h.searchTerms env seeker (seeker ++ byte ' ' :: options aSizeType aSize aFileType escaped) (seeker.length + 1) =
      if terms = [] then some h
      else (h.markPassive env seeker).map fun r =>
        r.elim h fun h => h.fire (.nmdcSearch seeker aSizeType aSize aFileType.value terms) := by
  have hmark (val : Int) : byte '?' ∉ Util.toString val := not_mem_toString (by decide) (by decide) val
  have hread : toInt64 (Util.toString aSize) = aSize :=
    toInt64_toString (Int.le_trans (by decide) hsize.1) hsize.2
  have htype : toInt (Util.toString (aFileType.value + 1)) = aFileType.value + 1 := by
    cases aFileType <;> exact toInt_toString (by decide) (by decide)
  set size := Util.toString aSize with hsz
  set type := Util.toString (aFileType.value + 1) with hty
  set letters : Bytes := [(sizeLetters aSizeType).1, byte '?', (sizeLetters aSizeType).2, byte '?'] with hletters
  set p := seeker ++ byte ' ' :: options aSizeType aSize aFileType escaped with hp
  have hp0 : p = (seeker ++ [byte ' ']) ++ (letters ++ (size ++ byte '?' :: (type ++ byte '?' :: escaped))) := by
    rw [hp, options, List.append_assoc]
    rfl
  have hp1 : p = (seeker ++ [byte ' '] ++ letters) ++ (size ++ byte '?' :: (type ++ byte '?' :: escaped)) := by
    rw [hp0]
    simp only [List.append_assoc]
  have hl : letters.length = 4 := rfl
  have hmode : sizeMode p (seeker.length + 1) = some aSizeType := by
    have h := sizeMode_letters aSizeType (seeker ++ [byte ' ']) (size ++ byte '?' :: (type ++ byte '?' :: escaped))
    rwa [← hletters, ← hp0, List.length_append] at h
  obtain ⟨hfind1, hcut1, hp2, hlen2⟩ := cut_field hp1 (i := seeker.length + 1 + 4)
    (by simp only [List.length_append, List.length_singleton, hl]) (hmark aSize)
  obtain ⟨hfind2, hcut2, hp3, hlen3⟩ := cut_field hp2 hlen2 (hmark (aFileType.value + 1))
  have hcut3 : substr p (seeker.length + 1 + 4 + size.length + 1 + type.length + 1) p.length = some escaped := by
    have h := substr_rest (seeker ++ [byte ' '] ++ letters ++ size ++ [byte '?'] ++ type ++ [byte '?']) escaped
    rwa [← hp3, hlen3] at h
  have hne1 : seeker.length + 1 + 4 ≠ seeker.length + 1 + 4 + size.length := by
    have hpos : 0 < size.length := List.length_pos_iff.mpr (toString_ne_nil aSize)
    omega
  have hne2 : seeker.length + 1 + 4 + size.length + 1 ≠ seeker.length + 1 + 4 + size.length + 1 + type.length := by
    have hpos : 0 < type.length := List.length_pos_iff.mpr (toString_ne_nil (aFileType.value + 1))
    omega
  rw [searchTerms, hmode]
  simp only [Option.bind_eq_bind, Option.bind_some, hfind1, if_neg hne1, hcut1, hfind2, if_neg hne2, hcut2, hcut3,
    hterms, hread, htype, Int.add_sub_cancel]
  split
  next => rfl
  next =>
    cases h.markPassive env seeker with
    | none => rfl
    | some r => cases r <;> rfl

theorem markPassive_known {h : NmdcHub U} {seeker : Bytes}
    (hknown : isPassive seeker = true → (h.findUser env (seeker.drop 4)).isSome) :
    ∃ h₁ evs, h.markPassive env seeker = some (some h₁) ∧ h₁.fired = h.fired ++ evs := by
  rw [markPassive]
  by_cases hpassive : isPassive seeker = true
  · have hlen := hpassive
    rw [isPassive, Bool.and_eq_true, decide_eq_true_eq] at hlen
    obtain ⟨u, hu⟩ := Option.isSome_iff_exists.mp (hknown hpassive)
    have hcut : substr seeker 4 seeker.length = some (seeker.drop 4) := by
      rw [substr_of_le hlen.1.le, List.take_of_length_le (by rw [List.length_drop]; exact Nat.sub_le _ _)]
    rw [if_pos hpassive, hcut, Option.bind_eq_bind, Option.bind_some, hu]
    dsimp only
    split
    next => exact ⟨h, [], rfl, (List.append_nil _).symm⟩
    next => exact ⟨_, [.updated [u.key]], rfl, rfl⟩
  · rw [if_neg hpassive]
    exact ⟨h, [], rfl, (List.append_nil _).symm⟩

theorem not_mem_options {escaped : Bytes} (h : byte '|' ∉ escaped) (aSizeType : SizeModes) (aSize : Int)
    (aFileType : TypeModes) : byte '|' ∉ options aSizeType aSize aFileType (escaped.map spaceless) := by
  have hmark (val : Int) : byte '|' ∉ Util.toString val := not_mem_toString (by decide) (by decide) val
  have hletters : byte '|' ∉ [(sizeLetters aSizeType).1, byte '?', (sizeLetters aSizeType).2, byte '?'] := by
    cases aSizeType <;> decide
  have hterms : byte '|' ∉ escaped.map spaceless := by
    intro hmem
    obtain ⟨c, hc, heq⟩ := List.mem_map.mp hmem
    rw [spaceless] at heq
    split at heq
    next => exact absurd heq (by decide)
    next => exact h (heq ▸ hc)
  have hq : byte '|' ≠ byte '?' := by decide
  exact List.not_mem_append hletters (List.not_mem_append (hmark aSize) (List.not_mem_cons_of_ne_of_not_mem hq
    (List.not_mem_append (hmark _) (List.not_mem_cons_of_ne_of_not_mem hq hterms))))

theorem isText_options {terms : Bytes} (h : IsText terms) (aSizeType : SizeModes) (aSize : Int)
    (aFileType : TypeModes) : IsText (options aSizeType aSize aFileType terms) := by
  have hnum (val : Int) : IsText (Util.toString val) := isText_ascii fun b hb => by
    by_contra hwide
    refine not_mem_toString ?_ (fun heq : b = byte '-' => absurd hwide (by rw [heq]; decide)) val hb
    rw [isDigit, Bool.and_eq_false_iff, decide_eq_false_iff_not, decide_eq_false_iff_not]
    exact Or.inr fun hle => hwide (UInt8.lt_of_le_of_lt hle (by decide))
  have hletters : IsText [(sizeLetters aSizeType).1, byte '?', (sizeLetters aSizeType).2, byte '?'] :=
    isText_ascii (by cases aSizeType <;> decide +kernel)
  have hq {t : Bytes} (ht : IsText t) : IsText (byte '?' :: t) :=
    isText_append (s := [byte '?']) (isText_ascii (by decide +kernel)) ht
  exact isText_append hletters (isText_append (hnum aSize) (hq (isText_append (hnum _) (hq h))))

variable {V : Type} [DecidableEq V] {env' : Environment V}

/-- The hubs of the sender and of the receiver, which knows the sender and reads on. -/
structure Connected (env : Environment U) (env' : Environment V) (h : NmdcHub U) (h' : NmdcHub V) : Prop where
  utf8 : IsUtf8 env
  utf8' : IsUtf8 env'
  normal : h.state = .NORMAL
  text : IsText (h.seeker env)
  space : byte ' ' ∉ h.seeker env
  bar : byte '|' ∉ h.seeker env
  reads : h'.Reads env' (h.seeker env)
  known : isPassive (h.seeker env) = true → (h'.findUser env' ((h.seeker env).drop 4)).isSome

omit [DecidableEq U] in
/-- What the receiver makes of the line that is sent. -/
theorem search_received {h : NmdcHub U} {h' : NmdcHub V} (hc : Connected env env' h h') (aSizeType : SizeModes)
    {aSize : Int} (hsize : 0 ≤ aSize ∧ aSize ≤ INT64_MAX) {aFileType : TypeModes} (htype : aFileType ≠ .TYPE_TTH)
    {s : Bytes} (hs : IsText s) : ∃ line evs,
      h.search env aSizeType aSize aFileType s = some (h.send (line ++ [byte '|'])) ∧ byte '|' ∉ line ∧
        (h'.onLine env' line).map fired = some (if s = [] then h'.fired
          else h'.fired ++ evs ++ [.nmdcSearch (h.seeker env) aSizeType aSize aFileType.value (s.map spaceless)]) := by
  obtain ⟨escaped, hescape, hunescape, -, hbar⟩ := validateMessage_roundTrip s
  set seeker := h.seeker env with hseeker
  set rest := seeker ++ byte ' ' :: options aSizeType aSize aFileType (escaped.map spaceless) with hrest
  obtain ⟨h₁, evs, hmark, hfired⟩ := markPassive_known (h := h'.addSeeker env' seeker) hc.known
  have hne : seeker ≠ [] := by
    rw [hseeker, NmdcHub.seeker]
    split
    next => exact List.append_ne_nil_of_left_ne_nil (List.append_ne_nil_of_right_ne_nil _ (by decide)) _
    next => exact List.cons_ne_nil _ _
  have htext : IsText rest :=
    isText_append hc.text (isText_append (s := [byte ' ']) (isText_ascii (by decide +kernel))
      (isText_options (isText_spaceless (isText_escape hs hescape)) aSizeType aSize aFileType))
  have hline : h'.onLine env' (str "$Search " ++ rest) = h'.onSearch env' rest := by
    have hsplit : splitLine env' (str "$Search " ++ rest) = some (str "$Search", rest) := by
      have h := splitLine_eq env' (str "$Search") rest (by decide)
      rwa [toUtf8_text hc.utf8' htext] at h
    have hhead : (str "$Search " ++ rest).headD 0 = byte '$' := rfl
    rw [onLine, if_neg (List.append_ne_nil_of_left_ne_nil (by decide) rest), if_neg (not_not.mpr hhead), hsplit]
    rfl
  refine ⟨str "$Search " ++ rest, evs, search_eq hc.utf8 hc.normal aSizeType aSize htype hs hescape, ?_, ?_⟩
  · exact List.not_mem_append (by decide) (List.not_mem_append hc.bar
      (List.not_mem_cons_of_ne_of_not_mem (by decide) (not_mem_options hbar aSizeType aSize aFileType)))
  · have hterms : (h'.addSeeker env' seeker).searchTerms env' seeker rest (seeker.length + 1) = _ :=
      searchTerms_options _ seeker aSizeType hsize aFileType (unescape_spaceless hunescape)
    rw [hline, hrest, onSearch_eq env' h' _ hc.space hne hc.reads, hterms, hmark]
    by_cases hnil : s = []
    · rw [hnil]
      rfl
    · rw [if_neg hnil, if_neg (mt List.map_eq_nil_iff.mp hnil), Option.map_some, Option.map_some, Option.elim_some,
        fire, hfired]
      rfl

/-- A receiver reports something, after what else it fires. -/
def Reports (env' : Environment V) (h' : NmdcHub V) (line : Bytes) (e : Event V) : Prop :=
  ∃ evs, (h'.onLine env' line).map fired = some (h'.fired ++ evs ++ [e])

omit [DecidableEq U] in
/-- A search is passed on with what it asks for, and the pieces of a text without the separator are kept. A search
without terms is sent too, but the receiver takes no notice of it. -/
theorem search_roundTrip {h : NmdcHub U} {h' : NmdcHub V} (hc : Connected env env' h h') (aSizeType : SizeModes)
    {aSize : Int} (hsize : 0 ≤ aSize ∧ aSize ≤ INT64_MAX) {aFileType : TypeModes} (htype : aFileType ≠ .TYPE_TTH)
    {s : Bytes} (hs : IsText s) : ∃ line,
      h.search env aSizeType aSize aFileType s = some (h.send (line ++ [byte '|'])) ∧ byte '|' ∉ line ∧
        (s = [] → (h'.onLine env' line).map fired = some h'.fired) ∧
        (s ≠ [] → ∃ terms,
          Reports env' h' line (.nmdcSearch (h.seeker env) aSizeType aSize aFileType.value terms) ∧
            (byte '$' ∉ s → terms.splitOn (byte '$') = s.splitOn (byte ' '))) := by
  obtain ⟨line, evs, hsent, hbar, hreceived⟩ := search_received hc aSizeType hsize htype hs
  refine ⟨line, hsent, hbar, fun hnil => ?_, fun hne => ⟨s.map spaceless, ⟨evs, ?_⟩, splitOn_spaceless⟩⟩
  · rw [hreceived, if_pos hnil]
  · rw [hreceived, if_neg hne]

/-- Another client on the same hub. -/
def receiver : NmdcHub Bytes := { inState .NORMAL with localIp := str "5.6.7.8" }

theorem connected_receiver : Connected plain plain (inState .NORMAL) receiver where
  utf8 := ⟨fun _ _ => rfl, fun _ _ => rfl⟩
  utf8' := ⟨fun _ _ => rfl, fun _ _ => rfl⟩
  normal := rfl
  text := isText_ascii (by decide +kernel)
  space := by decide
  bar := by decide
  reads := ⟨rfl, by decide +kernel, by decide +kernel, by decide +kernel⟩
  known := fun h => absurd h (by decide)

/-- The pieces of any text are passed on. -/
def Passes (s : Bytes) : Prop := ∃ line,
  (inState .NORMAL).search plain .SIZE_ATLEAST 1024 TypeModes.TYPE_AUDIO s = some ((inState .NORMAL).send (line ++ [byte '|'])) ∧
    byte '|' ∉ line ∧ ∃ terms,
      Reports plain receiver line (.nmdcSearch (str "1.2.3.4:412") .SIZE_ATLEAST 1024 1 terms) ∧
        terms.splitOn (byte '$') = s.splitOn (byte ' ')

omit [DecidableEq U] in
theorem send_inj {h : NmdcHub U} {a b : Bytes} (heq : h.send a = h.send b) : a = b := by
  have hfired : h.fired ++ [Event.send a] = h.fired ++ [Event.send b] := congrArg fired heq
  injection List.append_cancel_left hfired with he
  injection he

theorem receiver_reports {s line : Bytes} (hs : IsText s)
    (hsent : (inState .NORMAL).search plain .SIZE_ATLEAST 1024 TypeModes.TYPE_AUDIO s =
      some ((inState .NORMAL).send (line ++ [byte '|']))) : ∃ evs, (receiver.onLine plain line).map fired =
        some (if s = [] then receiver.fired
          else receiver.fired ++ evs ++ [.nmdcSearch (str "1.2.3.4:412") .SIZE_ATLEAST 1024 1 (s.map spaceless)]) := by
  have hsize : (0 : Int) ≤ 1024 ∧ 1024 ≤ INT64_MAX := by decide
  have htype : TypeModes.TYPE_AUDIO ≠ .TYPE_TTH := by decide
  obtain ⟨line', evs, hsent', -, hreceived⟩ := search_received connected_receiver .SIZE_ATLEAST hsize htype hs
  rw [hsent] at hsent'
  obtain rfl := List.append_cancel_right (send_inj (Option.some_inj.mp hsent'))
  exact ⟨evs, hreceived⟩

/-- A search without terms is not reported, and a `$` in the text separates pieces. -/
theorem not_search_roundTrip : ¬Passes [] ∧ ¬Passes (str "a$b") := by
  constructor
  · rintro ⟨line, hsent, -, terms, ⟨evs, hreports⟩, -⟩
    have hnil : IsText [] := ⟨[], rfl⟩
    obtain ⟨_, hreceived⟩ := receiver_reports hnil hsent
    rw [hreceived, if_pos rfl, Option.some_inj] at hreports
    exact absurd hreports.symm (List.append_ne_nil_of_right_ne_nil _ (List.cons_ne_nil _ _))
  · rintro ⟨line, hsent, -, terms, ⟨evs, hreports⟩, hpieces⟩
    obtain ⟨evs', hreceived⟩ := receiver_reports (isText_ascii (by decide +kernel)) hsent
    rw [hreceived, if_neg (by decide), Option.some_inj] at hreports
    have hterms := (List.append_inj' hreports rfl).2
    injection hterms with he
    injection he with _ _ _ _ hterms
    rw [← hterms] at hpieces
    exact absurd hpieces (by decide)

theorem search_roundTrip_spaces : ∃ line,
    (inState .NORMAL).search plain .SIZE_ATLEAST 1024 TypeModes.TYPE_AUDIO (str " a|b  &#36;?") =
        some ((inState .NORMAL).send (line ++ [byte '|'])) ∧ byte '|' ∉ line ∧
      (str " a|b  &#36;?" = [] → (receiver.onLine plain line).map fired = some receiver.fired) ∧
      (str " a|b  &#36;?" ≠ [] → ∃ terms,
        Reports plain receiver line (.nmdcSearch (str "1.2.3.4:412") .SIZE_ATLEAST 1024 1 terms) ∧
          (byte '$' ∉ str " a|b  &#36;?" →
            terms.splitOn (byte '$') = (str " a|b  &#36;?").splitOn (byte ' '))) :=
  search_roundTrip connected_receiver .SIZE_ATLEAST (by decide) (by decide) (isText_ascii (by decide +kernel))

end NmdcHub

end Dcpp
