import Dcpp.AdcRoundTrip
import Dcpp.Base32
import Dcpp.ResultLines

-- The search results that are sent as ADC commands.
namespace Dcpp

namespace AdcCommand

/-- The header of a message over UDP, with the CID of its sender. -/
def getHeaderStringCID (c : AdcCommand) (cid : Encoder.HashValue) : Bytes :=
  [c.type.toChar] ++ c.cmdChar ++ [byte ' '] ++ cid.toBase32

def toStringCID (c : AdcCommand) (aCID : Encoder.HashValue) : Bytes :=
  c.getHeaderStringCID aCID ++ c.getParamString false

end AdcCommand

namespace SearchManager

open Edit Util ShareManager AdcCommand AdcRoundTrip

/-- A result with the slots that are sent with it. -/
structure SentResult extends SearchResult where
  slots : Int32
  freeSlots : Int32
deriving DecidableEq

/-- `to` is set when the command is sent through a hub. -/
def SentResult.toRES (r : SentResult) (type : AdcType) («to» : UInt32) : AdcCommand where
  cmd := (byte 'R', byte 'E', byte 'S')
  type := type
  «from» := 0
  «to» := «to»
  features := []
  parameters := [str "SI" ++ Util.toString r.size.toInt, str "SL" ++ Util.toString r.freeSlots.toInt,
    str "FN" ++ toAdcFile r.file, str "TR" ++ r.tth.toBase32]

/-- The command for a result, with the token of the search. -/
def respond (r : SentResult) (type : AdcType) («to» : UInt32) (token : Bytes) : AdcCommand :=
  let res := r.toRES type «to»
  if token = [] then res else { res with parameters := res.parameters ++ [str "TO" ++ token] }

/-- What `onRES` collects. -/
structure Collected where
  freeSlots : Int
  size : Int
  file : Bytes
  tth : Bytes
  token : Bytes

def Collected.add (r : Collected) (s : Bytes) : Collected :=
  if s.take 2 = str "FN" then { r with file := toNmdcFile (s.drop 2) }
  else if s.take 2 = str "SL" then { r with freeSlots := toInt (s.drop 2) }
  else if s.take 2 = str "SI" then { r with size := toInt64 (s.drop 2) }
  else if s.take 2 = str "TR" then { r with tth := s.drop 2 }
  else if s.take 2 = str "TO" then { r with token := s.drop 2 }
  else r

def collect (parameters : List Bytes) : Collected := parameters.foldl .add ⟨-1, -1, [], [], []⟩

variable {U : Type} (c : Clients U)

/-- The rest of `onRES`. -/
def Collected.result (r : Collected) («from» : U) (remoteIp : Bytes) : Option (FiredResult U) :=
  if r.file = [] ∨ r.freeSlots = -1 ∨ r.size = -1 then none
  else
    let type : Types := if r.file.getLast? = some (byte '\\') then .TYPE_DIRECTORY else .TYPE_FILE
    if type = .TYPE_FILE ∧ r.tth = [] then none
    else do
      let slash ← find [byte '/'] r.token 0
      let hubUrl ← c.findUniqueId (toUInt32 (r.token.take slash))
      return ⟨«from», hubUrl, type, 0, r.freeSlots, r.size, r.file, c.hubNames «from», remoteIp,
        Encoder.HashValue.ofBase32 r.tth, erase r.token 0 (slash + 1)⟩

def onRES (parameters : List Bytes) («from» : U) (remoteIp : Bytes) : Option (FiredResult U) :=
  (collect parameters).result c «from» remoteIp

/-- What is done with a result that comes over UDP: its first parameter is the CID of the sender. -/
def handleRES (findUser : Encoder.HashValue → Option U) (cmd : AdcCommand) (remoteIp : Bytes) :
    Option (FiredResult U) :=
  match cmd.parameters with
  | [] => none
  | cid :: parameters =>
    if cid.length ≠ 39 then none
    else (findUser (Encoder.HashValue.ofBase32 cid)).bind fun user => onRES c parameters user remoteIp

/-- A path with separators of one kind. -/
def separators (file : Bytes) : Bytes := file.map fun c => if c = byte '/' then byte '\\' else c

theorem separators_eq_iff {file : Bytes} : separators file = file ↔ byte '/' ∉ file := by
  constructor
  · intro h hmem
    have hnone : byte '/' ∉ separators file := by
      intro hsep
      obtain ⟨c, -, hc⟩ := List.mem_map.mp hsep
      split at hc
      next => exact absurd hc (by decide)
      next hne => exact hne hc
    rw [h] at hnone
    exact hnone hmem
  · intro h
    conv_rhs => rw [← List.map_id file]
    exact List.map_congr_left fun c hc => if_neg fun heq : c = byte '/' => h (heq ▸ hc)

theorem toNmdcFile_toAdcFile {file : Bytes} (h : byte '\\' ∈ file) : toNmdcFile (toAdcFile file) = separators file := by
  have hlist : ¬(file = str "files.xml.bz2" ∨ file = str "files.xml") := by
    rintro (rfl | rfl)
    · exact absurd h (by decide)
    · exact absurd h (by decide)
  rw [toAdcFile, if_neg hlist, List.map_cons, toNmdcFile, if_neg (List.cons_ne_nil _ _), List.drop_succ_cons,
    List.drop_zero, List.map_map, separators]
  refine List.map_congr_left fun c _ => ?_
  by_cases hc : c = byte '\\'
  · subst hc
    rfl
  · rw [Function.comp_apply, if_neg hc]

/-- What the parameters of a command say. -/
theorem collect_respond {r : SentResult} (h : byte '\\' ∈ r.file) (type : AdcType) («to» : UInt32) {token : Bytes}
    (htoken : token ≠ []) : collect (respond r type «to» token).parameters =
      ⟨r.freeSlots.toInt, r.size.toInt, separators r.file, r.tth.toBase32, token⟩ := by
  have hsize : toInt64 (Util.toString r.size.toInt) = r.size.toInt :=
    toInt64_toString r.size.le_toInt (Int.le_sub_one_of_lt r.size.toInt_lt)
  have hslots : toInt (Util.toString r.freeSlots.toInt) = r.freeSlots.toInt :=
    toInt_toString r.freeSlots.le_toInt r.freeSlots.toInt_lt
  rw [respond, if_neg htoken]
  change Collected.mk (toInt (Util.toString r.freeSlots.toInt)) (toInt64 (Util.toString r.size.toInt))
    (toNmdcFile (toAdcFile r.file)) r.tth.toBase32 token = _
  rw [hsize, hslots, toNmdcFile_toAdcFile h]

theorem length_hash (h : Encoder.HashValue) : h.toBase32.length = 39 := by
  rw [Encoder.HashValue.toBase32, Encoder.length_toBase32, h.size]
  rfl

theorem toBase32_ne_nil (h : Encoder.HashValue) : h.toBase32 ≠ [] :=
  List.ne_nil_of_length_pos (by rw [length_hash]; decide)

variable {c}

/-- The token of a search, with the unique id of the client that has searched. -/
def searchToken (uniqueId : Nat) (token : Bytes) : Bytes := Util.toString uniqueId ++ byte '/' :: token

theorem searchToken_ne_nil (uniqueId : Nat) (token : Bytes) : searchToken uniqueId token ≠ [] :=
  List.append_ne_nil_of_right_ne_nil _ (List.cons_ne_nil _ _)

/-- What a search result becomes whose token begins with the unique id of a client. -/
theorem onRES_respond {r : SentResult} (h : byte '\\' ∈ r.file) (type : AdcType) («to» : UInt32) {uniqueId : Nat}
    (hid : uniqueId < 2 ^ 32) {hubUrl : Bytes} (hhub : c.findUniqueId uniqueId = some hubUrl) (token : Bytes)
    («from» : U) (remoteIp : Bytes) :
    onRES c (respond r type «to» (searchToken uniqueId token)).parameters «from» remoteIp =
      if r.freeSlots.toInt = -1 ∨ r.size.toInt = -1 then none
      else some ⟨«from», hubUrl,
        if (separators r.file).getLast? = some (byte '\\') then .TYPE_DIRECTORY else .TYPE_FILE, 0, r.freeSlots.toInt,
        r.size.toInt, separators r.file, c.hubNames «from», remoteIp, r.tth, token⟩ := by
  have hne : separators r.file ≠ [] := mt List.map_eq_nil_iff.mp (List.ne_nil_of_mem h)
  have hslash : byte '/' ∉ Util.toString uniqueId := not_mem_toString (by decide) (by decide) _
  have herase (id : Bytes) : erase (id ++ byte '/' :: token) 0 (id.length + 1) = token := by simp [erase]
  rw [onRES, collect_respond h type «to» (searchToken_ne_nil uniqueId token), Collected.result, searchToken]
  dsimp only
  by_cases hno : r.freeSlots.toInt = -1 ∨ r.size.toInt = -1
  · rw [if_pos (Or.inr hno), if_pos hno]
  · have htth (type : Types) : ¬(type = .TYPE_FILE ∧ r.tth.toBase32 = []) := fun h => toBase32_ne_nil r.tth h.2
    rw [if_neg (not_or.mpr ⟨hne, hno⟩), if_neg hno, if_neg (htth _), find_first hslash, Option.bind_eq_bind,
      Option.bind_some, List.take_left, herase, toUInt32_toString hid, hhub, Encoder.ofBase32_toBase32]
    rfl

section Parsed

variable {r : SentResult} {token : Bytes}

@[simp] theorem respond_cmd (type : AdcType) («to» : UInt32) :
    (respond r type «to» token).cmd = (byte 'R', byte 'E', byte 'S') := by
  rw [respond]
  split <;> rfl

@[simp] theorem respond_type (type : AdcType) («to» : UInt32) : (respond r type «to» token).type = type := by
  rw [respond]
  split <;> rfl

@[simp] theorem respond_to (type : AdcType) («to» : UInt32) : (respond r type «to» token).to = «to» := by
  rw [respond]
  split <;> rfl

theorem respond_isName (type : AdcType) («to» : UInt32) : IsName (respond r type «to» token).cmd := by
  rw [respond_cmd]
  exact ⟨by decide, by decide, by decide⟩

theorem withoutTrailing_respond (htoken : token ≠ []) (type : AdcType) («to» : UInt32) (before : List Bytes) :
    withoutTrailing (before ++ (respond r type «to» token).parameters) =
      before ++ (respond r type «to» token).parameters := by
  rw [respond, if_neg htoken, ← List.append_assoc, withoutTrailing, List.getLast?_concat, if_neg]
  exact fun h => absurd (Option.some_inj.mp h) (List.append_ne_nil_of_left_ne_nil (by decide) token)

/-- Through a hub the parameters come as they are. -/
theorem ofLine_respond (htoken : token ≠ []) {type : AdcType} {«to» sid : UInt32}
    (h : Carries (respond r type «to» token) sid) (from' to' : UInt32) :
    ∃ cmd, ofLine (line (respond r type «to» token) sid false) false from' to' = .ok cmd ∧
      cmd.parameters = (respond r type «to» token).parameters := by
  obtain ⟨cmd, hcmd, hback⟩ := parse_line (respond_isName type «to») h from' to'
  exact ⟨cmd, hcmd, hback.parameters.trans (withoutTrailing_respond htoken type «to» [])⟩

theorem escape_toBase32 (cid : Encoder.HashValue) : escape cid.toBase32 false = cid.toBase32 := by
  rw [escape]
  conv_rhs => rw [← List.flatMap_singleton' cid.toBase32]
  refine List.flatMap_congr fun c hc => if_neg fun hspecial => ?_
  refine (Encoder.toBase32_plain cid.data c hc).2 ?_
  obtain rfl | rfl | rfl := hspecial <;> decide

/-- The CID stands where the first parameter does. -/
theorem line_CID {cmd : AdcCommand} (htype : cmd.type = .UDP) (cid : Encoder.HashValue) :
    (cmd.toStringCID cid).dropLast = line { cmd with parameters := cid.toBase32 :: cmd.parameters } 0 false := by
  have hheader : cmd.getHeaderStringCID cid =
      { cmd with parameters := cid.toBase32 :: cmd.parameters }.getHeaderString 0 false ++
        byte ' ' :: escape cid.toBase32 false := by
    simp [getHeaderStringCID, getHeaderString, htype, AdcType.hasFrom, AdcType.hasTo, escape_toBase32, cmdChar]
  rw [toStringCID, line, AdcCommand.toString, hheader, getParamString, getParamString, List.flatMap_cons]
  simp only [List.append_assoc]

theorem ofLine_respondUDP (htoken : token ≠ []) (cid : Encoder.HashValue) (from' to' : UInt32) :
    ∃ cmd, ofLine (toStringCID (respond r .UDP 0 token) cid).dropLast false from' to' = .ok cmd ∧
      cmd.parameters = cid.toBase32 :: (respond r .UDP 0 token).parameters := by
  rw [line_CID (respond_type .UDP 0)]
  set sent := { respond r .UDP 0 token with parameters := cid.toBase32 :: (respond r .UDP 0 token).parameters }
  have htype : sent.type = .UDP := respond_type .UDP 0
  have hcarries : Carries sent 0 := by
    constructor <;> (intro h; rw [htype] at h; cases h)
  obtain ⟨cmd, hcmd, hback⟩ := parse_line (c := sent) (respond_isName .UDP 0) hcarries from' to'
  exact ⟨cmd, hcmd, hback.parameters.trans (withoutTrailing_respond htoken .UDP 0 [cid.toBase32])⟩

theorem handleRES_of_parameters {findUser : Encoder.HashValue → Option U} {cmd : AdcCommand} {cid : Encoder.HashValue}
    {parameters : List Bytes} (h : cmd.parameters = cid.toBase32 :: parameters) {user : U}
    (huser : findUser cid = some user) (remoteIp : Bytes) :
    handleRES c findUser cmd remoteIp = onRES c parameters user remoteIp := by
  rw [handleRES, h]
  dsimp only
  rw [if_neg (not_not.mpr (length_hash cid)), Encoder.ofBase32_toBase32, huser, Option.bind_some]

end Parsed

end SearchManager

end Dcpp
