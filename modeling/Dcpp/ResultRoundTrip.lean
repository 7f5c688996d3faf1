import Dcpp.ResultCommands
import Dcpp.SearchResults
import Dcpp.Utf8

-- What comes back of the search results that are sent.
namespace Dcpp.SearchManager

open Edit Util ShareManager Text AdcCommand AdcRoundTrip

/-- The client of a hub, with the conversion to an encoding. -/
structure Client where
  getMyNick : Bytes
  getEncoding : Bytes
  getIpPort : Bytes
  fromUtf8 : Bytes → Bytes → Bytes

def SentResult.toSR (r : SentResult) (c : Client) : Bytes :=
  let acpFile := c.fromUtf8 r.file c.getEncoding
  str "$SR " ++ c.fromUtf8 c.getMyNick c.getEncoding ++ [byte ' '] ++
    (if r.type = .TYPE_FILE then acpFile ++ [0x05] ++ Util.toString r.size.toInt else acpFile.dropLast) ++
    [byte ' '] ++ Util.toString r.freeSlots.toInt ++ [byte '/'] ++ Util.toString r.slots.toInt ++ [0x05] ++
    (str "TTH:" ++ r.tth.toBase32) ++ str " (" ++ c.getIpPort ++ str ")|"

section Reader

variable (freeSlots slots : Int) (hubName ipPort bar : Bytes)

/-- A line from the slots on. -/
def slotsOn : Bytes :=
  Util.toString freeSlots ++ byte '/' :: (Util.toString slots ++ 0x05 :: (hubName ++ (str " (" ++ (ipPort ++
    byte ')' :: bar))))

variable {freeSlots slots hubName ipPort bar}

theorem count_slotsOn (hhub : 0x05 ∉ hubName) (hip : 0x05 ∉ ipPort) (hbar : 0x05 ∉ bar) :
    (slotsOn freeSlots slots hubName ipPort bar).count 0x05 = 1 := by
  have hnum (val : Int) : (Util.toString val).count 0x05 = 0 :=
    List.count_eq_zero.mpr (not_mem_toString (by decide) (by decide) val)
  have hparen : (str " (").count 0x05 = 0 := by decide
  simp only [slotsOn, List.count_append, List.count_cons, hnum, hparen, List.count_eq_zero.mpr hhub,
    List.count_eq_zero.mpr hip, List.count_eq_zero.mpr hbar]
  decide

/-- From the slots on a line is read as it is written. -/
theorem srRest_read {x u nick : Bytes} {f : Types × Bytes × Int × Nat}
    (hx : x = u ++ slotsOn freeSlots slots hubName ipPort bar) (hf : u.length = f.2.2.2 + 1)
    (hfree : toInt (Util.toString freeSlots) = freeSlots) (hslots : toInt (Util.toString slots) = slots)
    (hip : byte ' ' ∉ ipPort) (hspace : byte ' ' ∉ bar) (hparen : byte ')' ∉ bar) :
    srRest x nick f = some (some ⟨nick, f.1, f.2.1, f.2.2.1, freeSlots, slots, hubName, ipPort⟩) := by
  obtain ⟨hfind₁, hcut₁, hx₁, hlen₁⟩ := cut_field hx hf (not_mem_toString (by decide) (by decide) freeSlots)
  obtain ⟨hfind₂, hcut₂, hx₂, hlen₂⟩ := cut_field hx₁ hlen₁ (not_mem_toString (by decide) (by decide) slots)
  generalize u ++ Util.toString freeSlots ++ [byte '/'] ++ Util.toString slots ++ [0x05] = before at hx₂ hlen₂
  have hx₃ : x = (before ++ hubName ++ str " (") ++ (ipPort ++ byte ')' :: bar) := by
    rw [hx₂]
    simp only [List.append_assoc]
  have hlast : lastIndexOf (str " (") x = some (before ++ hubName).length := by
    have hnone : byte ' ' ∉ [byte '('] ++ (ipPort ++ byte ')' :: bar) := by
      simp only [List.mem_append, List.mem_cons, not_or]
      exact ⟨⟨by decide, List.not_mem_nil⟩, hip, by decide, hspace⟩
    have h := lastIndexOf_append hnone (before ++ hubName)
    rw [hx₂, ← List.append_assoc]
    exact h
  have hhub := substr_distance before hubName (str " (" ++ (ipPort ++ byte ')' :: bar))
  have hend : rfind (byte ')') x x.length = some (before ++ hubName ++ str " (" ++ ipPort).length := by
    rw [hx₃, ← List.append_assoc]
    exact rfind_append hparen _ (by simp)
  have hport := substr_distance (before ++ hubName ++ str " (") ipPort (byte ')' :: bar)
  have hlen₃ : (before ++ hubName ++ str " (").length = (before ++ hubName).length + 2 := List.length_append
  rw [← hx₂, hlen₂] at hhub
  rw [← hx₃, hlen₃] at hport
  rw [srRest, hfind₁]
  simp only [hcut₁, hfind₂, hcut₂, hlast, hhub, hend, hport, Option.bind_eq_bind, Option.bind_some, hfree, hslots,
    Option.pure_def]

/-- The nick stands in front, and the separators behind it are counted. -/
theorem parseSR_nick {x nick rest : Bytes} (hx : x = str "$SR " ++ (nick ++ byte ' ' :: rest)) (hnick : byte ' ' ∉ nick) :
    parseSR x = ((srFile x (4 + nick.length)).bind fun r => r.elim (some none) (srRest x nick)) ∧
      (x.drop (4 + nick.length)).count 0x05 = rest.count 0x05 := by
  obtain ⟨hfind, hcut, -, -⟩ := cut_field hx (i := 4) rfl hnick
  constructor
  · rw [parseSR, hfind]
    simp only [hcut, Option.bind_eq_bind, Option.bind_some]
    congr 1
    funext r
    cases r <;> rfl
  · have hdrop : x.drop (4 + nick.length) = byte ' ' :: rest := by
      rw [hx, ← List.append_assoc]
      exact List.drop_left' List.length_append
    rw [hdrop, List.count_cons_of_ne (by decide)]

variable {nick : Bytes}

/-- A file is found by the separator behind it. -/
theorem parseSR_file {x file : Bytes} {size : Int} (hx : x = str "$SR " ++ (nick ++ byte ' ' :: (file ++ 0x05 ::
      (Util.toString size ++ byte ' ' :: slotsOn freeSlots slots hubName ipPort bar))))
    (hnick : byte ' ' ∉ nick) (hfile : 0x05 ∉ file) (hsize : toInt64 (Util.toString size) = size)
    (hfree : toInt (Util.toString freeSlots) = freeSlots) (hslots : toInt (Util.toString slots) = slots)
    (hhub : 0x05 ∉ hubName) (hip : byte ' ' ∉ ipPort) (hip' : 0x05 ∉ ipPort) (hbar : bar = [] ∨ bar = [byte '|']) :
    parseSR x = some (some ⟨nick, .TYPE_FILE, file, size, freeSlots, slots, hubName, ipPort⟩) := by
  have hbars : byte ' ' ∉ bar ∧ byte ')' ∉ bar ∧ 0x05 ∉ bar := by
    obtain rfl | rfl := hbar <;> decide
  have hnum : byte ' ' ∉ Util.toString size := not_mem_toString (by decide) (by decide) size
  obtain ⟨hparse, hcount⟩ := parseSR_nick hx hnick
  have htwo : (x.drop (4 + nick.length)).count 0x05 = 2 := by
    have hdigits : (Util.toString size).count 0x05 = 0 :=
      List.count_eq_zero.mpr (not_mem_toString (by decide) (by decide) size)
    rw [hcount]
    simp only [List.count_append, List.count_cons, List.count_eq_zero.mpr hfile, hdigits,
      count_slotsOn hhub hip' hbars.2.2]
    decide
  obtain ⟨-, -, hx₁, hlen₁⟩ := cut_field hx (i := 4) rfl hnick
  obtain ⟨hfind₂, hcut₂, hx₂, hlen₂⟩ := cut_field hx₁ hlen₁ hfile
  obtain ⟨hfind₃, hcut₃, hx₃, hlen₃⟩ := cut_field hx₂ hlen₂ hnum
  rw [hparse, srFile, htwo, if_neg (by decide), if_pos rfl, hfind₂]
  simp only [hcut₂, hfind₃, hcut₃, hsize, Option.bind_eq_bind, Option.bind_some, Option.pure_def, Option.elim_some]
  exact srRest_read hx₃ hlen₃ hfree hslots hip hbars.1 hbars.2.1

/-- A directory is found by the space behind it, and an empty one is not. -/
theorem parseSR_directory {x dir : Bytes} (hx : x = str "$SR " ++ (nick ++ byte ' ' :: (dir ++ byte ' ' ::
      slotsOn freeSlots slots hubName ipPort bar)))
    (hnick : byte ' ' ∉ nick) (hdir : 0x05 ∉ dir) (hfree : toInt (Util.toString freeSlots) = freeSlots)
    (hslots : toInt (Util.toString slots) = slots) (hhub : 0x05 ∉ hubName) (hip : byte ' ' ∉ ipPort)
    (hip' : 0x05 ∉ ipPort) (hbar : bar = [] ∨ bar = [byte '|']) :
    parseSR x = if dir = [] then some none
      else some (some ⟨nick, .TYPE_DIRECTORY, dir ++ str "\\", 0, freeSlots, slots, hubName, ipPort⟩) := by
  have hbars : byte ' ' ∉ bar ∧ byte ')' ∉ bar ∧ 0x05 ∉ bar := by
    obtain rfl | rfl := hbar <;> decide
  obtain ⟨hparse, hcount⟩ := parseSR_nick hx hnick
  have hone : (x.drop (4 + nick.length)).count 0x05 = 1 := by
    rw [hcount]
    simp only [List.count_append, List.count_cons, List.count_eq_zero.mpr hdir, count_slotsOn hhub hip' hbars.2.2]
    decide
  obtain ⟨-, -, hx₁, hlen₁⟩ := cut_field hx (i := 4) rfl hnick
  generalize str "$SR " ++ nick ++ [byte ' '] = before at hx₁ hlen₁
  set w := Util.toString freeSlots ++ byte '/' :: Util.toString slots with hw
  set v := hubName ++ (str " (" ++ (ipPort ++ byte ')' :: bar)) with hv
  have hx₂ : x = (before ++ dir ++ byte ' ' :: w) ++ 0x05 :: v := by
    rw [hx₁, hw, hv, slotsOn]
    simp only [List.append_assoc, List.cons_append]
  have hx₃ : x = (before ++ dir ++ [byte ' ']) ++ slotsOn freeSlots slots hubName ipPort bar := by
    rw [hx₁]
    simp only [List.append_assoc, List.cons_append, List.nil_append]
  have hsep : 0x05 ∉ v := by
    simp only [hv, List.mem_append, List.mem_cons, not_or]
    exact ⟨hhub, by decide, hip', by decide, hbars.2.2⟩
  have hspace : byte ' ' ∉ w := by
    have hmark (val : Int) : byte ' ' ∉ Util.toString val := not_mem_toString (by decide) (by decide) val
    exact List.not_mem_append (hmark freeSlots) (List.not_mem_cons_of_ne_of_not_mem (by decide) (hmark slots))
  have hfirst : rfind 0x05 x x.length = some (before ++ dir ++ byte ' ' :: w).length := by
    rw [hx₂]
    exact rfind_append hsep _ (by simp)
  have hsecond : rfind (byte ' ') x ((before ++ dir ++ byte ' ' :: w).length - 1) = some (before ++ dir).length := by
    have hlen : (before ++ dir ++ byte ' ' :: w).length = (before ++ dir).length + w.length + 1 := List.length_append
    rw [hx₂, rfind_take _ _ _ (by omega)]
    exact rfind_append hspace _ (by omega)
  have hcut : substr x (4 + nick.length + 1) (distance (4 + nick.length + 1) (before ++ dir).length) = some dir := by
    have h := substr_distance before dir (byte ' ' :: slotsOn freeSlots slots hubName ipPort bar)
    rwa [← hx₁, hlen₁] at h
  have hlen : (before ++ dir).length = 4 + nick.length + 1 + dir.length := by rw [List.length_append, hlen₁]
  rw [hparse, srFile, hone, if_pos rfl, hfirst, Option.bind_some, hsecond]
  dsimp only
  by_cases hnil : dir = []
  · have hlt : (before ++ dir).length < 4 + nick.length + 2 := by
      rw [hlen, hnil]
      simp
    rw [if_pos hlt, if_pos hnil]
    rfl
  · have hpos : 0 < dir.length := List.length_pos_iff.mpr hnil
    have hlt : ¬(before ++ dir).length < 4 + nick.length + 2 := by omega
    rw [if_neg hlt, if_neg hnil, hcut]
    exact srRest_read hx₃ List.length_append hfree hslots hip hbars.1 hbars.2.1

end Reader

/-- The conversions between UTF-8 and an encoding that extends ASCII: in the encoding no other character has a space or
a control character in it. -/
structure ExtendsAscii (fromUtf8 toUtf8 : Bytes → Bytes) : Prop where
  low : ∀ s, IsText s → ∀ b ≤ byte ' ', b ∉ s → b ∉ fromUtf8 s
  last : ∀ s, ∀ b < 128, IsText (s ++ [b]) → fromUtf8 (s ++ [b]) = fromUtf8 s ++ [b]
  ascii : ∀ s, (∀ b ∈ s, b < 128) → fromUtf8 s = s ∧ toUtf8 s = s

/-- A reader of the older protocol knows the user who sends, and the encoding of the hub. -/
structure Hears {U : Type} (c : Clients U) (client : Client) (user : U) (hint : Bytes) : Prop where
  text : IsText client.getMyNick
  nick : byte ' ' ∉ client.getMyNick
  space : byte ' ' ∉ client.getIpPort
  control : 0x05 ∉ client.getIpPort
  encoding : ExtendsAscii (fun s => client.fromUtf8 s client.getEncoding) fun s => c.toUtf8 s client.getEncoding
  known : srUser c (client.fromUtf8 client.getMyNick client.getEncoding) client.getIpPort =
    some (user, hint, client.getEncoding)

/-- The path of a result is text that the encoding of the hub can hold. -/
structure Carried {U : Type} (c : Clients U) (client : Client) (r : SearchResult) : Prop where
  text : IsText r.file
  control : 0x05 ∉ r.file
  held : c.toUtf8 (client.fromUtf8 r.file client.getEncoding) client.getEncoding = r.file

namespace SentResult

variable (r : SentResult) (client : Client)

/-- The file with its size, or the directory, as they stand in a line. -/
def field : Bytes :=
  let acpFile := client.fromUtf8 r.file client.getEncoding
  if r.type = .TYPE_FILE then acpFile ++ 0x05 :: Util.toString r.size.toInt else acpFile.dropLast

/-- A line up to its end. -/
def lineWith (bar : Bytes) : Bytes :=
  str "$SR " ++ (client.fromUtf8 client.getMyNick client.getEncoding ++ byte ' ' :: (r.field client ++ byte ' ' ::
    slotsOn r.freeSlots.toInt r.slots.toInt (str "TTH:" ++ r.tth.toBase32) client.getIpPort bar))

theorem toSR_eq : r.toSR client = r.lineWith client [byte '|'] := by
  have hend : str ")|" = byte ')' :: [byte '|'] := rfl
  simp only [toSR, lineWith, field, slotsOn, hend, List.append_assoc, List.cons_append, List.nil_append]

theorem dropLast_toSR : (r.toSR client).dropLast = r.lineWith client [] := by
  have hbar : r.lineWith client [byte '|'] = r.lineWith client [] ++ [byte '|'] := by
    simp only [lineWith, slotsOn, List.append_assoc, List.cons_append, List.nil_append]
  rw [toSR_eq, hbar, List.dropLast_concat]

end SentResult

/-- A line of the older protocol gives a result back. -/
def GivesBackSR {U : Type} (fired : Option (Option (FiredResult U))) (r : SentResult) : Prop :=
  ∃ f, fired = some (some f) ∧ f.type = r.type ∧ f.file = r.file ∧ (r.type = .TYPE_FILE → f.size = r.size.toInt) ∧
    f.freeSlots = r.freeSlots.toInt ∧ f.slots = r.slots.toInt ∧ f.tth = r.tth

/-- A command gives a result back, with the token of the search. -/
def GivesBackRES {U : Type} (fired : Option (FiredResult U)) (r : SentResult) (token : Bytes) : Prop :=
  ∃ f, fired = some f ∧ f.type = r.type ∧ f.file = r.file ∧ f.size = r.size.toInt ∧
    f.freeSlots = r.freeSlots.toInt ∧ f.tth = r.tth ∧ f.token = token

section Written

variable {U : Type} {c : Clients U} {client : Client} {user : U} {hint : Bytes} {r : SentResult}

/-- The separator at the end of a directory is the last byte in the encoding, too. -/
theorem encoded_directory (hhears : Hears c client user hint) (hcarried : Carried c client r.toSearchResult)
    (hpath : r.HasPath) (htype : r.type = .TYPE_DIRECTORY) : ∃ d, r.file = d ++ str "\\" ∧
      client.fromUtf8 r.file client.getEncoding = client.fromUtf8 d client.getEncoding ++ str "\\" := by
  rw [SearchResult.HasPath, htype] at hpath
  obtain ⟨d, hd⟩ := hpath
  refine ⟨d, hd, ?_⟩
  rw [hd]
  exact hhears.encoding.last d _ (by decide) (hd ▸ hcarried.text)

/-- A line is read as it was written, but for a directory without a name. -/
theorem parseSR_lineWith (hhears : Hears c client user hint) (hcarried : Carried c client r.toSearchResult)
    (hpath : r.HasPath) {bar : Bytes} (hbar : bar = [] ∨ bar = [byte '|']) :
    parseSR (r.lineWith client bar) =
      if r.type = .TYPE_DIRECTORY ∧ (client.fromUtf8 r.file client.getEncoding).dropLast = [] then some none
      else some (some ⟨client.fromUtf8 client.getMyNick client.getEncoding, r.type,
        client.fromUtf8 r.file client.getEncoding, if r.type = .TYPE_FILE then r.size.toInt else 0,
        r.freeSlots.toInt, r.slots.toInt, str "TTH:" ++ r.tth.toBase32, client.getIpPort⟩) := by
  have hnum (n : Int32) : toInt (Util.toString n.toInt) = n.toInt := toInt_toString n.le_toInt n.toInt_lt
  have hsize : toInt64 (Util.toString r.size.toInt) = r.size.toInt :=
    toInt64_toString r.size.le_toInt (Int.le_sub_one_of_lt r.size.toInt_lt)
  have hnick := hhears.encoding.low _ hhears.text _ (by decide) hhears.nick
  have hfile := hhears.encoding.low _ hcarried.text _ (by decide) hcarried.control
  have hhub : 0x05 ∉ str "TTH:" ++ r.tth.toBase32 :=
    List.not_mem_append (by decide) fun h => (Encoder.toBase32_plain _ _ h).2 (by decide)
  rw [SentResult.lineWith, SentResult.field]
  cases htype : r.type with
  | TYPE_FILE =>
    rw [if_pos rfl, if_neg (fun h => nomatch h.1), if_pos rfl, List.append_assoc, List.cons_append]
    exact parseSR_file rfl hnick hfile hsize (hnum _) (hnum _) hhub hhears.space hhears.control hbar
  | TYPE_DIRECTORY =>
    obtain ⟨d, -, hlast⟩ := encoded_directory hhears hcarried hpath htype
    have hdir : 0x05 ∉ client.fromUtf8 d client.getEncoding := by
      rw [hlast] at hfile
      exact fun h => hfile (List.mem_append_left _ h)
    have hdrop : (client.fromUtf8 d client.getEncoding ++ str "\\").dropLast = client.fromUtf8 d client.getEncoding :=
      List.dropLast_concat
    rw [if_neg (by decide), hlast, hdrop]
    simpa using parseSR_directory rfl hnick hdir (hnum _) (hnum _) hhub hhears.space hhears.control hbar

/-- What is fired for a line. -/
theorem onSR_lineWith (hhears : Hears c client user hint) (hcarried : Carried c client r.toSearchResult)
    (hpath : r.HasPath) {bar : Bytes} (hbar : bar = [] ∨ bar = [byte '|']) (remoteIp : Bytes) :
    onSR c (r.lineWith client bar) remoteIp =
      if r.type = .TYPE_DIRECTORY ∧ (client.fromUtf8 r.file client.getEncoding).dropLast = [] then some none
      else some (some ⟨user, hint, r.type, r.slots.toInt, r.freeSlots.toInt,
        if r.type = .TYPE_FILE then r.size.toInt else 0, r.file, c.hubNames user, remoteIp, r.tth, []⟩) := by
  have hname : c.toUtf8 (str "TTH:" ++ r.tth.toBase32) client.getEncoding = str "TTH:" ++ r.tth.toBase32 := by
    have hprefix : ∀ b ∈ str "TTH:", b < 128 := by decide +kernel
    refine (hhears.encoding.ascii _ fun b hb => ?_).2
    obtain hb | hb := List.mem_append.mp hb
    · exact hprefix b hb
    · exact (Encoder.toBase32_plain _ b hb).1
  have hdrop : (str "TTH:" ++ r.tth.toBase32).drop 4 = r.tth.toBase32 := rfl
  have htth : ¬(r.tth.toBase32 = [] ∧ r.type = .TYPE_FILE) := fun h => toBase32_ne_nil r.tth h.1
  rw [onSR, parseSR_lineWith hhears hcarried hpath hbar]
  split
  next => rfl
  next =>
    rw [Option.map_some, Option.bind_some, srResult, hhears.known]
    dsimp only
    rw [hname, if_pos (List.prefix_append _ _), hdrop, if_neg htth, if_pos (List.prefix_append _ _),
      Encoder.ofBase32_toBase32, hcarried.held]

/-- Nothing stands for a directory only when its path is nothing but the separator. -/
theorem dropLast_eq_nil_iff (hhears : Hears c client user hint) (hcarried : Carried c client r.toSearchResult)
    (hpath : r.HasPath) (htype : r.type = .TYPE_DIRECTORY) :
    (client.fromUtf8 r.file client.getEncoding).dropLast = [] ↔ r.file = str "\\" := by
  obtain ⟨d, hd, hlast⟩ := encoded_directory hhears hcarried hpath htype
  have hdrop : (client.fromUtf8 d client.getEncoding ++ str "\\").dropLast = client.fromUtf8 d client.getEncoding :=
    List.dropLast_concat
  rw [hlast, hdrop]
  constructor
  · intro hnil
    have hheld := hcarried.held
    rw [hlast, hnil, List.nil_append, (hhears.encoding.ascii _ (by decide +kernel)).2] at hheld
    exact hheld.symm
  · intro hfile
    have hnil : d = [] := List.self_eq_append_left.mp (hfile.symm.trans hd)
    rw [hnil]
    exact (hhears.encoding.ascii [] nofun).1

/-- Exactly a directory without a name is lost. -/
theorem givesBackSR_iff (hhears : Hears c client user hint) (hcarried : Carried c client r.toSearchResult)
    (hpath : r.HasPath) {bar : Bytes} (hbar : bar = [] ∨ bar = [byte '|']) (remoteIp : Bytes) :
    GivesBackSR (onSR c (r.lineWith client bar) remoteIp) r ↔ (r.type = .TYPE_DIRECTORY → r.file ≠ str "\\") := by
  have hlost : (r.type = .TYPE_DIRECTORY ∧ (client.fromUtf8 r.file client.getEncoding).dropLast = []) ↔
      r.type = .TYPE_DIRECTORY ∧ r.file = str "\\" :=
    and_congr_right fun htype => dropLast_eq_nil_iff hhears hcarried hpath htype
  rw [onSR_lineWith hhears hcarried hpath hbar, ← not_and]
  simp only [hlost]
  constructor
  · rintro ⟨f, hf, -⟩ hnone
    rw [if_pos hnone] at hf
    cases hf
  · intro hsome
    rw [if_neg hsome]
    exact ⟨_, rfl, rfl, rfl, fun htype => if_pos htype, rfl, rfl, rfl⟩

end Written

/-- When a command gives its result back: the path has no slash in it, that of a file does not end like the one of a
directory, and the numbers are not the ones that stand for nothing. -/
structure Unambiguous (r : SentResult) : Prop where
  slash : byte '/' ∉ r.file
  file : r.type = .TYPE_FILE → r.file.getLast? ≠ some (byte '\\')
  size : r.size ≠ -1
  freeSlots : r.freeSlots ≠ -1

theorem givesBackRES_iff {U : Type} {c : Clients U} {r : SentResult} (hpath : r.HasPath) (type : AdcType)
    («to» : UInt32) {uniqueId : Nat} (hid : uniqueId < 2 ^ 32) {hubUrl : Bytes}
    (hhub : c.findUniqueId uniqueId = some hubUrl) (token : Bytes) («from» : U) (remoteIp : Bytes) :
    GivesBackRES (onRES c (respond r type «to» (searchToken uniqueId token)).parameters «from» remoteIp)
      r token ↔ Unambiguous r := by
  have hmem : byte '\\' ∈ r.file := by
    rw [SearchResult.HasPath] at hpath
    split at hpath
    · obtain ⟨d, hd⟩ := hpath
      simp [hd]
    · obtain ⟨d, name, hd⟩ := hpath
      simp [hd]
  have hlast : r.type = .TYPE_DIRECTORY → r.file.getLast? = some (byte '\\') := by
    intro htype
    rw [SearchResult.HasPath, htype] at hpath
    obtain ⟨d, hd⟩ := hpath
    rw [hd, List.getLast?_concat]
  have hsize : r.size.toInt = -1 ↔ r.size = -1 := Int64.toInt_inj (y := -1)
  have hfree : r.freeSlots.toInt = -1 ↔ r.freeSlots = -1 := Int32.toInt_inj (y := -1)
  rw [onRES_respond hmem type «to» hid hhub token «from» remoteIp]
  simp only [hsize, hfree]
  constructor
  · rintro ⟨f, hf, htype, hfile, -⟩
    by_cases hno : r.freeSlots = -1 ∨ r.size = -1
    · rw [if_pos hno] at hf
      cases hf
    · rw [if_neg hno, Option.some_inj] at hf
      subst hf
      rw [not_or] at hno
      dsimp only at htype hfile
      rw [hfile] at htype
      refine ⟨separators_eq_iff.mp hfile, fun hf hend => ?_, hno.2, hno.1⟩
      rw [if_pos hend, hf] at htype
      cases htype
  · rintro ⟨hslash, hfile, hsize, hfree⟩
    have htype : (if r.file.getLast? = some (byte '\\') then Types.TYPE_DIRECTORY else .TYPE_FILE) = r.type := by
      cases htype : r.type with
      | TYPE_FILE => exact if_neg (hfile htype)
      | TYPE_DIRECTORY => exact if_pos (hlast htype)
    rw [if_neg (not_or.mpr ⟨hfree, hsize⟩), separators_eq_iff.mpr hslash]
    exact ⟨_, rfl, htype, rfl, rfl, rfl, rfl, rfl⟩

section Way

variable {U : Type} (c : Clients U)

/-- A line comes over UDP as it is, and from a hub without the separator at its end. -/
def ComesBackSR (client : Client) (r : SentResult) (remoteIp : Bytes) : Prop :=
  ∀ line ∈ [r.toSR client, (r.toSR client).dropLast], GivesBackSR (onSR c line remoteIp) r

/-- A command comes through a hub from a user who is on it; what it does not set is as it is in memory. -/
def ComesBackHub (sent : AdcCommand) (sid : UInt32) (user : U) (r : SentResult) (token remoteIp : Bytes) : Prop :=
  ∀ («from» «to» : UInt32), ∃ cmd, ofLine (line sent sid false) false «from» «to» = .ok cmd ∧
    GivesBackRES (onRES c cmd.parameters user remoteIp) r token

/-- A command comes over UDP with the CID of a user. -/
def ComesBackUDP (findUser : Encoder.HashValue → Option U) (sent : AdcCommand) (cid : Encoder.HashValue)
    (r : SentResult) (token remoteIp : Bytes) : Prop :=
  ∀ («from» «to» : UInt32), ∃ cmd, ofLine (sent.toStringCID cid).dropLast false «from» «to» = .ok cmd ∧
    GivesBackRES (handleRES c findUser cmd remoteIp) r token

variable {c} {client : Client} {user : U} {hint : Bytes} {r : SentResult}

theorem comesBackSR_iff (hhears : Hears c client user hint) (hcarried : Carried c client r.toSearchResult)
    (hpath : r.HasPath) (remoteIp : Bytes) :
    ComesBackSR c client r remoteIp ↔ (r.type = .TYPE_DIRECTORY → r.file ≠ str "\\") := by
  rw [ComesBackSR, SentResult.dropLast_toSR, SentResult.toSR_eq, List.forall_mem_cons, List.forall_mem_singleton,
    givesBackSR_iff hhears hcarried hpath (Or.inr rfl), givesBackSR_iff hhears hcarried hpath (Or.inl rfl), and_self]

variable {uniqueId : Nat} {hubUrl token : Bytes}

theorem comesBackHub_iff (hpath : r.HasPath) (hid : uniqueId < 2 ^ 32) (hhub : c.findUniqueId uniqueId = some hubUrl)
    {type : AdcType} {«to» sid : UInt32} (h : Carries (respond r type «to» (searchToken uniqueId token)) sid)
    (remoteIp : Bytes) :
    ComesBackHub c (respond r type «to» (searchToken uniqueId token)) sid user r token remoteIp ↔ Unambiguous r := by
  rw [← givesBackRES_iff hpath type «to» hid hhub token user remoteIp]
  constructor
  · intro hback
    obtain ⟨cmd, hcmd, hgives⟩ := hback 0 0
    obtain ⟨cmd', hcmd', hparameters⟩ := ofLine_respond (searchToken_ne_nil uniqueId token) h 0 0
    obtain rfl := Except.ok.inj (hcmd.symm.trans hcmd')
    rwa [hparameters] at hgives
  · intro hgives from' to'
    obtain ⟨cmd, hcmd, hparameters⟩ := ofLine_respond (searchToken_ne_nil uniqueId token) h from' to'
    refine ⟨cmd, hcmd, ?_⟩
    rwa [hparameters]

theorem comesBackUDP_iff (hpath : r.HasPath) (hid : uniqueId < 2 ^ 32) (hhub : c.findUniqueId uniqueId = some hubUrl)
    {findUser : Encoder.HashValue → Option U} {cid : Encoder.HashValue} (huser : findUser cid = some user)
    (remoteIp : Bytes) :
    ComesBackUDP c findUser (respond r .UDP 0 (searchToken uniqueId token)) cid r token remoteIp ↔ Unambiguous r := by
  rw [← givesBackRES_iff hpath .UDP 0 hid hhub token user remoteIp]
  constructor
  · intro hback
    obtain ⟨cmd, hcmd, hgives⟩ := hback 0 0
    obtain ⟨cmd', hcmd', hparameters⟩ := ofLine_respondUDP (searchToken_ne_nil uniqueId token) cid 0 0
    obtain rfl := Except.ok.inj (hcmd.symm.trans hcmd')
    rwa [handleRES_of_parameters hparameters huser] at hgives
  · intro hgives from' to'
    obtain ⟨cmd, hcmd, hparameters⟩ := ofLine_respondUDP (searchToken_ne_nil uniqueId token) cid from' to'
    refine ⟨cmd, hcmd, ?_⟩
    rwa [handleRES_of_parameters hparameters huser]

/-- When a result comes back on every way: what an ADC command needs, and a name in front of the separator of a
directory. -/
structure Recoverable (r : SentResult) : Prop extends Unambiguous r where
  directory : r.type = .TYPE_DIRECTORY → r.file ≠ str "\\"

/-- Exactly the recoverable results of the share come back in the older protocol and as ADC commands. -/
theorem comesBack_iff {p : ShareManager.Platform} {s : Share} {query : SearchQuery} {maxResults : Nat}
    (hr : r.toSearchResult ∈ ShareManager.search p s query maxResults) (hhears : Hears c client user hint)
    (hcarried : Carried c client r.toSearchResult) (hid : uniqueId < 2 ^ 32)
    (hhub : c.findUniqueId uniqueId = some hubUrl) {type : AdcType} {«to» sid : UInt32}
    (h : Carries (respond r type «to» (searchToken uniqueId token)) sid) {findUser : Encoder.HashValue → Option U}
    {cid : Encoder.HashValue} (huser : findUser cid = some user) (remoteIp : Bytes) :
    (ComesBackSR c client r remoteIp ∧
        ComesBackHub c (respond r type «to» (searchToken uniqueId token)) sid user r token remoteIp ∧
        ComesBackUDP c findUser (respond r .UDP 0 (searchToken uniqueId token)) cid r token remoteIp) ↔
      Recoverable r := by
  have hpath := search_hasPath p hr
  rw [comesBackSR_iff hhears hcarried hpath, comesBackHub_iff hpath hid hhub h, comesBackUDP_iff hpath hid hhub huser,
    and_self]
  exact ⟨fun h => ⟨h.2, h.1⟩, fun h => ⟨h.directory, h.toUnambiguous⟩⟩

end Way

/-- A directory with one file, whose hash is known. -/
def holding (name : Bytes) : List (ShareManager.Settings × ShareManager.Event) :=
  [(defaults, .addDirectory ⟨fun _ => [.node ⟨name, false, false, false, 1, some (hashOf 1)⟩ []], fun _ => true,
    fun _ => false⟩ (str "/s/") (str "share"))]

/-- What is sent for that file. -/
def found (name : Bytes) : SentResult := ⟨⟨.TYPE_FILE, 1, str "share\\" ++ name, hashOf 1⟩, 4, 2⟩

def sender : Client := ⟨str "nick", str "utf-8", str "1.2.3.4:411", fun s _ => s⟩

def receivers : Clients Unit where
  findHub _ := str "dchub://hub"
  findLegacyUser _ := none
  findHubEncoding _ := str "utf-8"
  findUser _ _ := some ()
  hubNames _ := str "Hub"
  findUniqueId id := if id = 7 then some (str "adc://hub") else none
  toUtf8 s _ := s

theorem hears_sender : Hears receivers sender () (str "dchub://hub") where
  text := isText_ascii (by decide +kernel)
  nick := by decide
  space := by decide
  control := by decide
  encoding := ⟨fun _ _ _ _ h => h, fun _ _ _ _ => rfl, fun _ _ => ⟨rfl, rfl⟩⟩
  known := rfl

theorem carries_direct (name : Bytes) :
    Carries (respond (found name) .DIRECT (toSID (str "ABCD")) (searchToken 7 (str "1a/2"))) (toSID (str "EFGH")) where
  «from» := fun _ => ⟨by decide, by decide⟩
  «to» := fun _ => by
    rw [respond_to]
    exact ⟨by decide, by decide⟩
  features := fun h => by cases h

theorem search_holding (name : Bytes) (h : ((Runs.run (change ascii) start (holding name)).any fun s =>
    decide ((found name).toSearchResult ∈ ShareManager.search ascii s readme 10)) = true) :
    ∃ s, Runs.run (change ascii) start (holding name) = some s ∧
      (found name).toSearchResult ∈ ShareManager.search ascii s readme 10 := by
  obtain ⟨s, hs, hmem⟩ := (Option.any_eq_true _ _).mp h
  exact ⟨s, hs, of_decide_eq_true hmem⟩

theorem comesBack_iff_brackets : ∃ s, Runs.run (change ascii) start (holding (str "readme [1] (a b)")) = some s ∧
    ((ComesBackSR receivers sender (found (str "readme [1] (a b)")) (str "1.2.3.4") ∧
        ComesBackHub receivers (respond (found (str "readme [1] (a b)")) .DIRECT (toSID (str "ABCD"))
          (searchToken 7 (str "1a/2"))) (toSID (str "EFGH")) () (found (str "readme [1] (a b)")) (str "1a/2")
          (str "1.2.3.4") ∧
        ComesBackUDP receivers (fun _ => some ())
          (respond (found (str "readme [1] (a b)")) .UDP 0 (searchToken 7 (str "1a/2"))) (hashOf 3)
          (found (str "readme [1] (a b)")) (str "1a/2") (str "1.2.3.4")) ↔
      Recoverable (found (str "readme [1] (a b)"))) := by
  obtain ⟨s, hs, hmem⟩ := search_holding (str "readme [1] (a b)") (by decide +kernel)
  exact ⟨s, hs, comesBack_iff hmem hears_sender ⟨isText_ascii (by decide +kernel), by decide, rfl⟩ (by decide) rfl
    (carries_direct _) rfl (str "1.2.3.4")⟩

/-- A file whose name ends with a backslash comes back in the older protocol, but as an ADC command it is taken for a
directory. -/
theorem not_comesBack : ∃ s, Runs.run (change ascii) start (holding (str "readme\\")) = some s ∧
    (found (str "readme\\")).toSearchResult ∈ ShareManager.search ascii s readme 10 ∧
    ComesBackSR receivers sender (found (str "readme\\")) (str "1.2.3.4") ∧
    ¬ComesBackHub receivers (respond (found (str "readme\\")) .DIRECT (toSID (str "ABCD")) (searchToken 7 (str "1a/2")))
      (toSID (str "EFGH")) () (found (str "readme\\")) (str "1a/2") (str "1.2.3.4") ∧
    ¬ComesBackUDP receivers (fun _ => some ()) (respond (found (str "readme\\")) .UDP 0 (searchToken 7 (str "1a/2")))
      (hashOf 3) (found (str "readme\\")) (str "1a/2") (str "1.2.3.4") := by
  obtain ⟨s, hs, hmem⟩ := search_holding (str "readme\\") (by decide +kernel)
  have hpath := search_hasPath ascii hmem
  have huser : (fun _ : Encoder.HashValue => some ()) (hashOf 3) = some () := rfl
  have hfound : ¬Unambiguous (found (str "readme\\")) := fun h => h.file rfl (by decide)
  refine ⟨s, hs, hmem, ?_, ?_, ?_⟩
  · rw [comesBackSR_iff hears_sender ⟨isText_ascii (by decide +kernel), by decide, rfl⟩ hpath]
    exact nofun
  · rwa [comesBackHub_iff hpath (by decide) rfl (carries_direct _)]
  · rwa [comesBackUDP_iff hpath (by decide) rfl huser]

end Dcpp.SearchManager
