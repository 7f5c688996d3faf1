import Dcpp.EncodeURI
import Dcpp.FindSubString

-- The checksums of files in `.sfv` files.
namespace Dcpp

open Util

structure SFVReader where
  crc32 : UInt32
  crcFound : Bool
  deriving DecidableEq

namespace SFVReader

/-- The reader before it has looked at a file. -/
def new : SFVReader := ⟨0, false⟩

def hasCRC (reader : SFVReader) : Bool := reader.crcFound

def getCRC (reader : SFVReader) : UInt32 := reader.crc32

/-- What the digits stand for. -/
def ofHexDigits (s : Bytes) : Nat := s.foldl (fun n c => 16 * n + ((xdigit? c).getD 0).toNat) 0

/-- `sscanf` of `%x`, which reads an `unsigned long` and cuts it; `none` when there is no number. -/
def scanHex (s : Bytes) : Option UInt32 :=
  let s := s.dropWhile isSpace
  let negative := s.head? = some (byte '-')
  let s := if negative ∨ s.head? = some (byte '+') then s.tail else s
  let digits :=
    match s with
    | c :: x :: rest =>
      if c = byte '0' ∧ (x = byte 'x' ∨ x = byte 'X') then rest.takeWhile isxdigit else s.takeWhile isxdigit
    | s => s.takeWhile isxdigit
  if digits = [] then none
  else if 2 ^ 64 ≤ ofHexDigits digits then some 0xffffffff
  else if negative then some (-(UInt32.ofNat (ofHexDigits digits)))
  else some (UInt32.ofNat (ofHexDigits digits))

/-- The difference of two lengths, as a `size_type`. -/
def minus (a b : Nat) : Nat := if b ≤ a then a - b else a + 2 ^ 64 - b

/-- What `operator[]` reads, which may also read the NUL behind the string. -/
def at? (s : Bytes) (i : Nat) : Option UInt8 := (s ++ [0])[i]?

/-- Whether the place is at the beginning of the file or the line. -/
def atBeginning (sfv : Bytes) (i : Nat) : Option Bool :=
  if i = 0 then some true else (at? sfv (i - 1)).map (· = byte '\n')

/-- The loop of `tryFile`; `none` when it reads out of range and when it does not end. -/
def tryLoop (l : Util.Locale) (reader : SFVReader) (sfv fileName : Bytes) : Nat → Nat → Option (Bool × SFVReader)
  | 0, _ => none
  | fuel + 1, i => do
    match findSubString l sfv fileName i with
    | none => return (false, reader)
    | some i =>
      if ← atBeginning sfv i then
        let j := i + fileName.length + 1
        if j < minus sfv.length 8 then
          if ¬isSpace (← at? sfv (j - 1)) then tryLoop l reader sfv fileName fuel j
          else if sfv.length < j then none
          else return (true, ⟨(scanHex (sfv.drop j)).getD reader.crc32, true⟩)
        else tryLoop l reader sfv fileName fuel (i + fileName.length)
      else tryLoop l reader sfv fileName fuel (i + fileName.length)

/-- `tryFile`, of what the file holds. Each turn of its loop starts further on, if the name is not empty. -/
def tryFile (l : Util.Locale) (reader : SFVReader) (sfv fileName : Bytes) : Option (Bool × SFVReader) :=
  tryLoop l reader sfv fileName (sfv.length + 2) 0

/-- The loop of `load` over the files it has found; `none` for a file that can not be read. -/
def load (l : Util.Locale) (fname : Bytes) (reader : SFVReader) : List (Option Bytes) → Option SFVReader
  | [] => some reader
  | none :: files => load l fname reader files
  | some sfv :: files => do
    let (found, reader) ← tryFile l reader sfv fname
    if found then return reader else load l fname reader files

/-- A name of a file that is in ASCII and has no line breaks. -/
structure AsciiName where
  bytes : Bytes
  ne_nil : bytes ≠ []
  ascii : ∀ c ∈ bytes, c < 0x80
  nul : 0 ∉ bytes
  line : byte '\n' ∉ bytes

/-- A line of the text that gives the checksum of the file: the name up to the case, whitespace and eight digits. -/
structure CrcLine (sfv : Bytes) (fileName : AsciiName) where
  before : Bytes
  name : Bytes
  spaces : Bytes
  digits : Bytes
  behind : Bytes
  text : sfv = before ++ (name ++ (spaces ++ (digits ++ behind)))
  start : before = [] ∨ before.getLast? = some (byte '\n')
  sameName : name.map asciiToLower = fileName.bytes.map asciiToLower
  spaces_ne_nil : spaces ≠ []
  spaces_isSpace : ∀ c ∈ spaces, isSpace c = true ∧ c ≠ byte '\n'
  digits_length : digits.length = 8
  digits_isxdigit : ∀ c ∈ digits, isxdigit c = true
  digits_end : ∀ c, behind.head? = some c → isxdigit c = false

variable {l : Util.Locale} {reader : SFVReader} {sfv : Bytes} {fileName : AsciiName}

/-- Where the line starts. -/
def CrcLine.place (line : CrcLine sfv fileName) : Nat := line.before.length

def CrcLine.value (line : CrcLine sfv fileName) : UInt32 := UInt32.ofNat (ofHexDigits line.digits)

def CrcLine.First (line : CrcLine sfv fileName) : Prop := ∀ other : CrcLine sfv fileName, line.place ≤ other.place

/-- The eight digits end the text, one single space behind the name. -/
def CrcLine.EndsText (line : CrcLine sfv fileName) : Prop := line.spaces.length = 1 ∧ line.behind = []

/-- The checksum is that of the first line that gives one, and there is none if no line does. -/
def Meets (l : Util.Locale) (reader : SFVReader) (sfv : Bytes) (fileName : AsciiName) : Prop :=
  (∃ line : CrcLine sfv fileName, line.First ∧ tryFile l reader sfv fileName.bytes = some (true, ⟨line.value, true⟩)) ∨
    IsEmpty (CrcLine sfv fileName) ∧ tryFile l reader sfv fileName.bytes = some (false, reader)

def LineStart (sfv : Bytes) (p : Nat) : Prop := p = 0 ∨ sfv[p - 1]? = some (byte '\n')

instance (sfv : Bytes) : DecidablePred (LineStart sfv) := fun _ => inferInstanceAs (Decidable (_ ∨ _))

/-- A line that is taken: its beginning matches the name character by character, and there is a space at the length of
the name with at least nine bytes behind it, or any number of them where the text is shorter than eight bytes. -/
structure Taken (l : Util.Locale) (sfv : Bytes) (fileName : AsciiName) (p : Nat) : Prop where
  start : LineStart sfv p
  inside : p + fileName.bytes.length ≤ sfv.length
  matched : matchesAt l sfv fileName.bytes p = true
  room : p + fileName.bytes.length + 1 < minus sfv.length 8
  space : ∃ c, sfv[p + fileName.bytes.length]? = some c ∧ isSpace c = true

/-- The number read of a line that is taken. -/
def number (reader : SFVReader) (sfv : Bytes) (fileName : AsciiName) (p : Nat) : UInt32 :=
  (scanHex (sfv.drop (p + fileName.bytes.length + 1))).getD reader.crc32

def FirstTaken (l : Util.Locale) (sfv : Bytes) (fileName : AsciiName) (p : Nat) : Prop :=
  Taken l sfv fileName p ∧ ∀ q, q < p → ¬Taken l sfv fileName q

theorem FirstTaken.unique {p q : Nat} (hp : FirstTaken l sfv fileName p) (hq : FirstTaken l sfv fileName q) : p = q :=
  Nat.le_antisymm (not_lt.mp fun hlt => hp.2 q hlt hq.1) (not_lt.mp fun hlt => hq.2 p hlt hp.1)

theorem LineStart.between {i q : Nat} (h : LineStart sfv q) (hle : i ≤ q) : Between sfv i q := by
  refine ⟨hle, ?_⟩
  obtain hzero | hbreak := h
  · left
    omega
  · right
    rw [List.getD_eq_getElem?_getD, hbreak]
    decide

/-- No line starts inside what matches the name. -/
theorem LineStart.behind {p q : Nat} (h : LineStart sfv q) (hmatch : matchesAt l sfv fileName.bytes p = true)
    (hlt : p < q) : p + fileName.bytes.length < q := by
  by_contra hle
  obtain hzero | hbreak := h
  · omega
  · rw [matchesAt_eq l fileName.ne_nil fileName.nul] at hmatch
    have havoid := matchRest_avoids l fileName.ascii fileName.nul fileName.line hmatch
      (show q - 1 - p < fileName.bytes.length by omega)
    rw [List.getD_eq_getElem?_getD, List.getElem?_drop, show p + (q - 1 - p) = q - 1 by omega, hbreak] at havoid
    exact havoid rfl

theorem at?_lt {i : Nat} (h : i < sfv.length) : at? sfv i = sfv[i]? := List.getElem?_append_left h

theorem at?_length : at? sfv sfv.length = some 0 := List.getElem?_concat_length

theorem atBeginning_eq {p : Nat} (h : p ≤ sfv.length) : atBeginning sfv p = some (decide (LineStart sfv p)) := by
  rw [atBeginning]
  by_cases hzero : p = 0
  · rw [if_pos hzero, decide_eq_true (show LineStart sfv p from Or.inl hzero)]
  · have hlt : p - 1 < sfv.length := by omega
    have hbreak : LineStart sfv p ↔ sfv[p - 1] = byte '\n' := by
      rw [LineStart, List.getElem?_eq_getElem hlt, Option.some_inj]
      exact or_iff_right hzero
    rw [if_neg hzero, at?_lt hlt, List.getElem?_eq_getElem hlt, Option.map_some, decide_eq_decide.mpr hbreak]

example : tryFile ascii new (str "; b\nab 00000001\nA 1234ABCD\n") (str "a") = some (true, ⟨0x1234abcd, true⟩) := by
  decide +kernel

/-- What the loop does from a place on: it stops at the first line that is taken. -/
def Stops (l : Util.Locale) (reader : SFVReader) (sfv : Bytes) (fileName : AsciiName) (i : Nat)
    (result : Option (Bool × SFVReader)) : Prop :=
  (∃ p, i ≤ p ∧ Taken l sfv fileName p ∧ (∀ q, i ≤ q → q < p → ¬Taken l sfv fileName q) ∧
    result = some (true, ⟨number reader sfv fileName p, true⟩)) ∨
  (∀ q, i ≤ q → ¬Taken l sfv fileName q) ∧ result = some (false, reader)

theorem Stops.earlier {i j : Nat} {result : Option (Bool × SFVReader)} (h : Stops l reader sfv fileName j result)
    (hle : i ≤ j) (hno : ∀ q, i ≤ q → q < j → ¬Taken l sfv fileName q) : Stops l reader sfv fileName i result := by
  obtain ⟨p, hp, htaken, hfirst, hresult⟩ | ⟨hnone, hresult⟩ := h
  · refine Or.inl ⟨p, hle.trans hp, htaken, fun q hi hq => ?_, hresult⟩
    obtain hlt | hge := Nat.lt_or_ge q j
    · exact hno q hi hlt
    · exact hfirst q hge hq
  · refine Or.inr ⟨fun q hi => ?_, hresult⟩
    obtain hlt | hge := Nat.lt_or_ge q j
    · exact hno q hi hlt
    · exact hnone q hge

/-- One turn of the loop, at a place where the name is found. -/
theorem tryLoop_found {i p fuel : Nat} (hfind : findSubString l sfv fileName.bytes i = some p)
    (ih : ∀ j, p < j → j ≤ sfv.length + 1 →
      Stops l reader sfv fileName j (tryLoop l reader sfv fileName.bytes fuel j)) :
    Stops l reader sfv fileName i (tryLoop l reader sfv fileName.bytes (fuel + 1) i) := by
  obtain ⟨hle, hinside, hmatch, hbefore⟩ := findSubString_some l fileName.ne_nil hfind
  have hpos := List.length_pos_of_ne_nil fileName.ne_nil
  have hearlier : ∀ q, i ≤ q → q < p → ¬Taken l sfv fileName q := by
    intro q hi hq htaken
    have hno := hbefore q hq (htaken.start.between hi)
    rw [htaken.matched] at hno
    cases hno
  -- the loop goes on behind the place, and over no other start of a line
  have hgo : ∀ j, p < j → j ≤ p + fileName.bytes.length + 1 → j ≤ sfv.length + 1 → ¬Taken l sfv fileName p →
      Stops l reader sfv fileName i (tryLoop l reader sfv fileName.bytes fuel j) := by
    intro j hlt hj hend hno
    refine (ih j hlt hend).earlier (by omega) fun q hi hq htaken => ?_
    obtain hqp | rfl | hpq := Nat.lt_trichotomy q p
    · exact hearlier q hi hqp htaken
    · exact hno htaken
    · have hfar := htaken.start.behind hmatch hpq
      omega
  rw [tryLoop, hfind]
  dsimp only
  rw [atBeginning_eq (by omega), Option.bind_eq_bind, Option.bind_some]
  by_cases hstart : LineStart sfv p
  · rw [if_pos (decide_eq_true hstart)]
    by_cases hroom : p + fileName.bytes.length + 1 < minus sfv.length 8
    · rw [if_pos hroom, Nat.add_sub_cancel]
      obtain hlt | heq := Nat.lt_or_eq_of_le hinside
      · rw [at?_lt hlt, List.getElem?_eq_getElem hlt, Option.bind_eq_bind, Option.bind_some]
        by_cases hspace : isSpace sfv[p + fileName.bytes.length] = true
        · rw [if_neg (not_not.mpr hspace), if_neg (by omega)]
          exact Or.inl
            ⟨p, hle, ⟨hstart, hinside, hmatch, hroom, _, List.getElem?_eq_getElem hlt, hspace⟩, hearlier, rfl⟩
        · rw [if_pos hspace]
          refine hgo _ (by omega) le_rfl (by omega) fun htaken => ?_
          obtain ⟨c, hc, hcspace⟩ := htaken.space
          rw [List.getElem?_eq_getElem hlt, Option.some_inj] at hc
          exact hspace (hc ▸ hcspace)
      · rw [heq, at?_length, Option.bind_eq_bind, Option.bind_some, if_pos (by decide), ← heq]
        refine hgo _ (by omega) le_rfl (by omega) fun htaken => ?_
        obtain ⟨c, hc, -⟩ := htaken.space
        rw [heq, List.getElem?_length] at hc
        cases hc
    · rw [if_neg hroom]
      exact hgo _ (by omega) (by omega) (by omega) fun htaken => hroom htaken.room
  · rw [if_neg (by rw [decide_eq_false hstart]; exact Bool.false_ne_true)]
    exact hgo _ (by omega) (by omega) (by omega) fun htaken => hstart htaken.start

theorem tryLoop_stops {fuel i : Nat} (hi : i ≤ sfv.length + 1) (hfuel : sfv.length + 1 < fuel + i) :
    Stops l reader sfv fileName i (tryLoop l reader sfv fileName.bytes fuel i) := by
  induction fuel generalizing i with
  | zero => omega
  | succ fuel ih =>
    cases hfind : findSubString l sfv fileName.bytes i with
    | some p =>
      have hle := (findSubString_some l fileName.ne_nil hfind).1
      -- each turn starts behind the place found, so the fuel lasts
      exact tryLoop_found hfind fun j hlt hend => ih hend (by omega)
    | none =>
      rw [tryLoop, hfind]
      refine Or.inr ⟨fun q hi htaken => ?_, rfl⟩
      have hno := findSubString_none l hfind htaken.inside (htaken.start.between hi)
      rw [htaken.matched] at hno
      cases hno

/-- The file's loop ends, reads nothing out of range and stops at the first line that is taken. -/
theorem tryFile_taken (l : Util.Locale) (reader : SFVReader) (sfv : Bytes) (fileName : AsciiName) :
    (∃ p, FirstTaken l sfv fileName p ∧
      tryFile l reader sfv fileName.bytes = some (true, ⟨number reader sfv fileName p, true⟩)) ∨
    (∀ p, ¬Taken l sfv fileName p) ∧ tryFile l reader sfv fileName.bytes = some (false, reader) := by
  have hstops : Stops l reader sfv fileName 0 (tryLoop l reader sfv fileName.bytes (sfv.length + 2) 0) :=
    tryLoop_stops (Nat.zero_le _) (by omega)
  obtain ⟨p, -, htaken, hfirst, hresult⟩ | ⟨hnone, hresult⟩ := hstops
  · exact Or.inl ⟨p, ⟨htaken, fun q => hfirst q (Nat.zero_le _)⟩, hresult⟩
  · exact Or.inr ⟨fun p => hnone p (Nat.zero_le _), hresult⟩

theorem isxdigit_plain : ∀ {c : UInt8}, isxdigit c = true →
    isSpace c = false ∧ c ≠ byte '-' ∧ c ≠ byte '+' ∧ c ≠ byte 'x' ∧ c ≠ byte 'X' ∧ c ≠ byte '\n' := by
  apply Encoder.forall_byte
  decide +kernel

theorem ofHexDigits_lt (s : Bytes) : ofHexDigits s < 16 ^ s.length := by
  have hdigit : ∀ c : UInt8, ((xdigit? c).getD 0).toNat < 16 := by
    apply Encoder.forall_byte
    decide +kernel
  induction s using List.reverseRecOn with
  | nil => exact Nat.one_pos
  | append_singleton s c ih =>
    have hc := hdigit c
    rw [ofHexDigits, List.foldl_append, List.length_append, Nat.pow_add]
    change 16 * ofHexDigits s + _ < 16 ^ s.length * 16
    omega

/-- Eight digits are read behind any whitespace. -/
theorem scanHex_eight {spaces digits behind : Bytes} (hspaces : ∀ c ∈ spaces, isSpace c = true)
    (hlength : digits.length = 8) (hdigits : ∀ c ∈ digits, isxdigit c = true)
    (hbehind : ∀ c, behind.head? = some c → isxdigit c = false) :
    scanHex (spaces ++ (digits ++ behind)) = some (UInt32.ofNat (ofHexDigits digits)) := by
  have htake : (digits ++ behind).takeWhile isxdigit = digits := by
    rw [List.takeWhile_append_of_pos hdigits]
    cases behind with
    | nil => exact List.append_nil _
    | cons c behind => rw [List.takeWhile_cons_of_neg (by simp [hbehind c rfl]), List.append_nil]
  have hlt : ¬2 ^ 64 ≤ ofHexDigits digits := by
    have hlt := ofHexDigits_lt digits
    rw [hlength] at hlt
    omega
  obtain ⟨c, x, rest, rfl⟩ : ∃ c x rest, digits = c :: x :: rest := by
    match digits, hlength with
    | c :: x :: rest, _ => exact ⟨c, x, rest, rfl⟩
  obtain ⟨hspace, hminus, hplus, -⟩ := isxdigit_plain (hdigits c (by simp))
  obtain ⟨-, -, -, hlower, hupper, -⟩ := isxdigit_plain (hdigits x (by simp))
  have hdrop : (spaces ++ (c :: x :: rest ++ behind)).dropWhile isSpace = c :: x :: (rest ++ behind) := by
    rw [List.dropWhile_append_of_pos hspaces, List.cons_append, List.cons_append,
      List.dropWhile_cons_of_neg (by simp [hspace])]
  rw [List.cons_append, List.cons_append] at htake
  rw [scanHex, hdrop]
  simp only [List.head?_cons, Option.some_inj, hminus, hplus, or_self, if_false, hlower, hupper, and_false, htake,
    reduceCtorEq, hlt]

theorem CrcLine.name_length (line : CrcLine sfv fileName) : line.name.length = fileName.bytes.length := by
  have h := congrArg List.length line.sameName
  rwa [List.length_map, List.length_map] at h

theorem CrcLine.length_eq (line : CrcLine sfv fileName) : sfv.length =
    line.place + fileName.bytes.length + line.spaces.length + 8 + line.behind.length := by
  have h := congrArg List.length line.text
  simp only [List.length_append, line.name_length, line.digits_length] at h
  rw [h, place]
  omega

theorem CrcLine.lineStart (line : CrcLine sfv fileName) : LineStart sfv line.place := by
  obtain hnil | hbreak := line.start
  · exact Or.inl (by rw [place, hnil]; rfl)
  · right
    have hne : line.before ≠ [] := fun hnil => by rw [hnil] at hbreak; cases hbreak
    have hlt : line.place - 1 < line.before.length := Nat.sub_one_lt_of_lt (List.length_pos_of_ne_nil hne)
    have hget : sfv[line.place - 1]? = _ := congrArg (·[line.place - 1]?) line.text
    rw [hget, List.getElem?_append_left hlt]
    rwa [List.getLast?_eq_getElem?] at hbreak

theorem CrcLine.drop_place (line : CrcLine sfv fileName) :
    sfv.drop line.place = line.name ++ (line.spaces ++ (line.digits ++ line.behind)) :=
  (congrArg (List.drop line.place) line.text).trans List.drop_left

theorem CrcLine.drop_name (line : CrcLine sfv fileName) :
    sfv.drop (line.place + fileName.bytes.length) = line.spaces ++ (line.digits ++ line.behind) := by
  rw [← List.drop_drop, line.drop_place, ← line.name_length]
  exact List.drop_left

theorem CrcLine.matched (line : CrcLine sfv fileName) : matchesAt l sfv fileName.bytes line.place = true := by
  rw [matchesAt_eq l fileName.ne_nil fileName.nul, line.drop_place]
  exact matchRest_of_lower l fileName.ascii fileName.nul line.sameName _

theorem CrcLine.number_eq (line : CrcLine sfv fileName) : number reader sfv fileName line.place = line.value := by
  rw [number, ← List.drop_drop, line.drop_name, List.drop_append_of_le_length (List.length_pos_of_ne_nil line.spaces_ne_nil),
    scanHex_eight (fun c hc => (line.spaces_isSpace c (List.mem_of_mem_drop hc)).1) line.digits_length
      line.digits_isxdigit line.digits_end]
  rfl

/-- The code takes the line unless its digits end the text. -/
theorem CrcLine.taken_iff (line : CrcLine sfv fileName) : Taken l sfv fileName line.place ↔ ¬line.EndsText := by
  have hlength := line.length_eq
  have hpos := List.length_pos_of_ne_nil line.spaces_ne_nil
  have hroom : line.place + fileName.bytes.length + 1 < minus sfv.length 8 ↔ ¬line.EndsText := by
    rw [minus, if_pos (by omega), EndsText, ← List.length_eq_zero_iff]
    omega
  refine ⟨fun h => hroom.mp h.room, fun h => ?_⟩
  refine ⟨line.lineStart, by omega, line.matched, hroom.mpr h, line.spaces.head line.spaces_ne_nil, ?_, ?_⟩
  · rw [← Nat.add_zero (line.place + _), ← List.getElem?_drop, line.drop_name, List.getElem?_append_left hpos,
      List.head_eq_getElem, List.getElem?_eq_getElem]
  · exact (line.spaces_isSpace _ (List.head_mem line.spaces_ne_nil)).1

/-- Behind digits that end the text no line starts. -/
theorem CrcLine.EndsText.last {line : CrcLine sfv fileName} (h : line.EndsText) {q : Nat} (hq : LineStart sfv q) :
    q ≤ line.place := by
  by_contra hlt
  have hbehind := hq.behind (line.matched : matchesAt ascii _ _ _ = true) (not_le.mp hlt)
  obtain hzero | hbreak := hq
  · omega
  · rw [show q - 1 = line.place + fileName.bytes.length + (q - 1 - (line.place + fileName.bytes.length)) by omega,
      ← List.getElem?_drop, line.drop_name, h.2, List.append_nil] at hbreak
    obtain hspace | hdigit := List.mem_append.mp (List.mem_of_getElem? hbreak)
    · exact (line.spaces_isSpace _ hspace).2 rfl
    · exact (isxdigit_plain (line.digits_isxdigit _ hdigit)).2.2.2.2.2 rfl

/-- No line is taken before the first that gives the checksum, the digits of which do not end the text; or the first
line that is taken before it has the same number. Where no line gives the checksum, none is taken. -/
def Readable (l : Util.Locale) (reader : SFVReader) (sfv : Bytes) (fileName : AsciiName) : Prop :=
  (∃ line : CrcLine sfv fileName, line.First ∧
    ((∀ p, p < line.place → ¬Taken l sfv fileName p) ∧ ¬line.EndsText ∨
      ∃ p, p < line.place ∧ FirstTaken l sfv fileName p ∧ number reader sfv fileName p = line.value)) ∨
    IsEmpty (CrcLine sfv fileName) ∧ ∀ p, ¬Taken l sfv fileName p

theorem tryFile_meets_iff (l : Util.Locale) (reader : SFVReader) (sfv : Bytes) (fileName : AsciiName) :
    Meets l reader sfv fileName ↔ Readable l reader sfv fileName := by
  have hspec := tryFile_taken l reader sfv fileName
  constructor
  · rintro (⟨line, hfirst, hresult⟩ | ⟨hempty, hresult⟩)
    · obtain ⟨p, hp, htry⟩ | ⟨-, htry⟩ := hspec
      · left
        refine ⟨line, hfirst, ?_⟩
        rw [hresult] at htry
        have hvalue : number reader sfv fileName p = line.value := by
          simpa using htry.symm
        obtain hlt | hge := Nat.lt_or_ge p line.place
        · exact Or.inr ⟨p, hlt, hp, hvalue⟩
        · refine Or.inl ⟨fun q hq => hp.2 q (hq.trans_le hge), fun hends => ?_⟩
          obtain rfl := Nat.le_antisymm (hends.last hp.1.start) hge
          exact line.taken_iff.mp hp.1 hends
      · rw [hresult] at htry
        cases htry
    · obtain ⟨p, hp, htry⟩ | ⟨hnone, htry⟩ := hspec
      · rw [hresult] at htry
        cases htry
      · exact Or.inr ⟨hempty, hnone⟩
  · rintro (⟨line, hfirst, hline⟩ | ⟨hempty, hnone⟩)
    · have htaken : ∃ p, FirstTaken l sfv fileName p ∧ number reader sfv fileName p = line.value := by
        obtain ⟨hbefore, hends⟩ | ⟨p, -, hp, hvalue⟩ := hline
        · exact ⟨line.place, ⟨line.taken_iff.mpr hends, hbefore⟩, line.number_eq⟩
        · exact ⟨p, hp, hvalue⟩
      obtain ⟨p, hp, hvalue⟩ := htaken
      obtain ⟨q, hq, htry⟩ | ⟨hnone, -⟩ := hspec
      · obtain rfl := hq.unique hp
        exact Or.inl ⟨line, hfirst, by rw [htry, hvalue]⟩
      · exact absurd hp.1 (hnone p)
    · obtain ⟨p, hp, -⟩ | ⟨-, htry⟩ := hspec
      · exact absurd hp.1 (hnone p)
      · exact Or.inr ⟨hempty, htry⟩

/-- A line without an end is not taken, though it gives the checksum. -/
theorem not_tryFile_meets : ¬∀ (sfv : Bytes) (fileName : AsciiName), Meets ascii new sfv fileName := by
  intro h
  obtain ⟨line, -, hresult⟩ | ⟨hempty, -⟩ :=
    h (str "a 12345678") ⟨str "a", by decide, by decide +kernel, by decide, by decide⟩
  · have hnone : tryFile ascii new (str "a 12345678") (str "a") = some (false, new) := by decide +kernel
    rw [hnone] at hresult
    cases hresult
  · exact hempty.false ⟨[], str "a", str " ", str "12345678", [], rfl, Or.inl rfl, rfl, by decide,
      by decide +kernel, rfl, by decide +kernel, fun c hc => by cases hc⟩

/-- No file makes `load` read out of range or keeps it from its end. -/
theorem load_isSome (l : Util.Locale) (reader : SFVReader) (fileName : AsciiName) (files : List (Option Bytes)) :
    (load l fileName.bytes reader files).isSome = true := by
  induction files generalizing reader with
  | nil => rfl
  | cons file files ih =>
    cases file with
    | none => exact ih reader
    | some sfv =>
      rw [load]
      obtain ⟨p, -, htry⟩ | ⟨-, htry⟩ := tryFile_taken l reader sfv fileName
      · rw [htry]
        rfl
      · rw [htry]
        exact ih reader

end SFVReader

end Dcpp
