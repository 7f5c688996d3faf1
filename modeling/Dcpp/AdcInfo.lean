import Dcpp.AdcCommand
import Dcpp.Encoder
import Dcpp.Util
import Dcpp.Library.Deltas
import Dcpp.Library.Runs

-- The information that an ADC hub gets about the user itself.
namespace Dcpp.AdcHub

open Deltas

inductive ConnectionState where
  | CONNECTING | PROTOCOL | IDENTIFY | VERIFY | NORMAL | DISCONNECTED
deriving DecidableEq

inductive Incoming where
  | DISABLED | ACTIVE | ACTIVE_UPNP | PASSIVE
deriving DecidableEq

/-- What the rest of the client answers during `infoImpl`. The counts are those after `updateCounts`, and
`uploadSpeed` is the text of the setting in bytes. -/
structure Info where
  myCID : Bytes
  myPID : Bytes
  nick : Bytes
  description : Bytes
  email : Bytes
  slots : Int
  freeSlots : Int
  shareSizeString : Bytes
  sharedFiles : Nat
  normal : Int
  registered : Int
  op : Int
  away : Bool
  downLimit : Int
  upLimit : Int
  uploadSpeed : Bytes
  language : Bytes
  enableCCPM : Bool
  enableSUDP : Bool
  secure : Bool
  v6Valid : Bool
  connection : Incoming
  connection6 : Incoming
  noIpOverride : Bool
  noIpOverride6 : Bool
  userIp4 : Bytes
  userIp6 : Bytes
  resolve : Bytes → Bytes
  resolve6 : Bytes → Bytes
  searchPort : Bytes

def APPNAME : Bytes := str "BDC++"
def VERSIONSTRING : Bytes := str "0.8813"

def Incoming.isActive (c : Incoming) : Bool := c ≠ .PASSIVE ∧ c ≠ .DISABLED

def Info.addV4 (i : Info) : Bool := !i.v6Valid || i.connection ≠ .DISABLED
def Info.addV6 (i : Info) : Bool := i.v6Valid || i.connection6 ≠ .DISABLED

/-- The features, of which some need a certificate. -/
def supported (i : Info) (keyprint : Option Bytes) : Bytes :=
  str "SEGA" ++
  (if keyprint.isSome then str ",ADC0" ++ (if i.enableCCPM then str ",CCPM" else []) else []) ++
  (if i.enableSUDP && i.secure then str ",SUDP" else []) ++
  (if i.addV4 && i.connection.isActive then str ",TCP4,UDP4" else []) ++
  (if i.addV6 && i.connection6.isActive then str ",TCP6,UDP6" else []) ++
  (if (i.addV6 && !i.connection6.isActive && i.connection6 ≠ .DISABLED) ||
      (i.addV4 && !i.connection.isActive && i.connection ≠ .DISABLED) then str ",NAT0" else [])

def keyprintToString (aKP : Bytes) : Bytes := str "SHA256/" ++ Encoder.toBase32 aKP

/-- The parameters of `appendConnectivity`. -/
def connectivity (i : Info) (v4 v6 : Bool) : List (Bytes × Bytes) :=
  [(str "I4", if v4 then (if i.noIpOverride && i.userIp4 ≠ [] then i.resolve i.userIp4 else str "0.0.0.0") else []),
    (str "U4", if v4 && i.connection.isActive then i.searchPort else []),
    (str "I6", if v6 then (if i.noIpOverride6 && i.userIp6 ≠ [] then i.resolve6 i.userIp6 else str "::") else []),
    (str "U6", if v6 && i.connection6.isActive then i.searchPort else [])]

/-- The fields of a user in the order in which `infoImpl` adds them; the keyprint only if there is one. -/
def fields (i : Info) (keyprint : Option Bytes) : List (Bytes × Bytes) :=
  [(str "ID", i.myCID), (str "PD", i.myPID), (str "NI", i.nick), (str "DE", i.description),
    (str "SL", Util.toString i.slots), (str "FS", Util.toString i.freeSlots), (str "SS", i.shareSizeString),
    (str "SF", Util.toString i.sharedFiles), (str "EM", i.email), (str "HN", Util.toString i.normal),
    (str "HR", Util.toString i.registered), (str "HO", Util.toString i.op), (str "AP", APPNAME),
    (str "VE", VERSIONSTRING), (str "AW", if i.away then str "1" else []),
    (str "DS", if 0 < i.downLimit then Util.toString (i.downLimit * 1024) else []),
    (str "US", if 0 < i.upLimit then Util.toString (i.upLimit * 1024) else i.uploadSpeed),
    (str "LC", i.language)] ++
  (keyprint.map fun kp => (str "KP", keyprintToString kp)).toList ++
  [(str "SU", supported i keyprint)] ++ connectivity i i.addV4 i.addV6

/-- A map from the names of fields to their values. -/
abbrev StringMap := Bytes → Option Bytes

def addParam (s : StringMap × AdcCommand) (param : Bytes × Bytes) : StringMap × AdcCommand :=
  let (lastInfoMap, c) := s
  let (var, value) := param
  let sent := { c with parameters := c.parameters ++ [var ++ value] }
  match lastInfoMap var with
  | some last =>
    if last ≠ value then
      if value = [] then (Function.update lastInfoMap var none, sent)
      else (Function.update lastInfoMap var (some value), sent)
    else (lastInfoMap, c)
  | none => if value ≠ [] then (Function.update lastInfoMap var (some value), sent) else (lastInfoMap, c)

/-- `AdcCommand(CMD_INF, TYPE_BROADCAST)`. -/
def inf : AdcCommand := ⟨(byte 'I', byte 'N', byte 'F'), .BROADCAST, 0, 0, [], []⟩

/-- The connection to a hub. `view` is what the hub knows from the parameters that were sent, and `withheld` is set when
an INF was not sent, because the hub has forbidden it or a plugin took it. -/
structure State where
  state : ConnectionState
  lastInfoMap : StringMap
  forbidden : Bool
  keyprint : Option Bytes
  loaded : Bool
  view : StringMap
  withheld : Bool

def start : State := ⟨.DISCONNECTED, fun _ => none, false, none, false, fun _ => none, false⟩

/-- How a hub reads a parameter: one without a value deletes the field. -/
def readParam (view : StringMap) (p : Bytes) : StringMap :=
  Function.update view (p.take 2) (if p.drop 2 = [] then none else some (p.drop 2))

def send (c : AdcCommand) (taken : Bool) (s : State) : State :=
  if s.forbidden || taken then { s with withheld := true }
  else { s with view := c.parameters.foldl readParam s.view }

def identified (s : State) : Bool := s.state = .IDENTIFY ∨ s.state = .NORMAL

def infoImpl (i : Info) (taken : Bool) (s : State) : State :=
  if identified s then
    let (lastInfoMap, c) := (fields i s.keyprint).foldl addParam (s.lastInfoMap, inf)
    let s := { s with lastInfoMap := lastInfoMap }
    if c.parameters ≠ [] then send c taken s else s
  else s

/-- A new session, of which the hub knows nothing. -/
def connected (s : State) : State :=
  { s with
    state := .PROTOCOL, lastInfoMap := fun _ => none, forbidden := false, view := fun _ => none, withheld := false }

inductive Event where
  | connected
  | setState (state : ConnectionState)
  | forbid
  | loadCertificates (keyprint : Option Bytes)
  | infoImpl (i : Info) (taken : Bool)

/-- The certificates are loaded once, when the program starts. -/
def step (s : State) : Event → Option State
  | .connected => some (connected s)
  | .setState state => some { s with state := state }
  | .forbid => some { s with forbidden := true }
  | .loadCertificates keyprint => if s.loaded then none else some { s with keyprint := keyprint, loaded := true }
  | .infoImpl i taken => some (infoImpl i taken s)

/-- The fields that are not empty. -/
def current (i : Info) (keyprint : Option Bytes) : StringMap := ofValues [] (fields i keyprint)

/-- What a call tells the hub of a connection. -/
structure Informs (s : State) (i : Info) (taken : Bool) : Prop where
  other : identified s = false → infoImpl i taken s = s
  view : identified s = true → (infoImpl i taken s).withheld = false →
    (infoImpl i taken s).view = current i s.keyprint
  anew : ((fields i s.keyprint).foldl addParam ((connected s).lastInfoMap, inf)).2.parameters =
    ((fields i s.keyprint).filter fun d => d.2 ≠ []).map fun d => d.1 ++ d.2

/-- The names of the fields. -/
def names (keyprint : Option Bytes) : List Bytes :=
  (["ID", "PD", "NI", "DE", "SL", "FS", "SS", "SF", "EM", "HN", "HR", "HO", "AP", "VE", "AW", "DS", "US", "LC"] ++
    (keyprint.map fun _ => "KP").toList ++ ["SU", "I4", "U4", "I6", "U6"]).map str

theorem fields_names (i : Info) (keyprint : Option Bytes) : (fields i keyprint).map Prod.fst = names keyprint := by
  cases keyprint <;> rfl

theorem names_nodup (keyprint : Option Bytes) : (names keyprint).Nodup := by
  cases keyprint with
  | none => decide
  | some kp =>
    change (names (some [])).Nodup
    decide

theorem names_subset (keyprint : Option Bytes) : names none ⊆ names keyprint := by
  cases keyprint with
  | none => exact List.Subset.refl _
  | some kp =>
    change names none ⊆ names (some [])
    decide

theorem length_of_mem_names {keyprint : Option Bytes} {name : Bytes} (h : name ∈ names keyprint) : name.length = 2 := by
  have hall : ∀ keyprint : Option Bytes, ∀ name ∈ names keyprint, name.length = 2 := by
    intro keyprint
    cases keyprint with
    | none => decide
    | some kp =>
      change ∀ name ∈ names (some []), name.length = 2
      decide
  exact hall keyprint name h

/-- The text of a parameter. -/
def text (d : Bytes × Bytes) : Bytes := d.1 ++ d.2

theorem readParam_text (view : StringMap) {d : Bytes × Bytes} (h : d.1.length = 2) :
    readParam view (text d) = put [] view d := by
  rw [readParam, text, ← h, List.take_left, List.drop_left]
  rfl

theorem foldl_readParam (view : StringMap) {ds : List (Bytes × Bytes)} (h : ∀ d ∈ ds, d.1.length = 2) :
    (ds.map text).foldl readParam view = puts [] view ds := by
  induction ds generalizing view with
  | nil => rfl
  | cons d ds ih =>
    rw [List.map_cons, List.foldl_cons, readParam_text view (h d List.mem_cons_self)]
    exact ih _ fun d' hd' => h d' (List.mem_cons_of_mem _ hd')

theorem addParam_eq {m : StringMap} (hm : ∀ k, m k ≠ some []) (c : AdcCommand) (d : Bytes × Bytes) :
    addParam (m, c) d =
      (put [] m d, { c with parameters := c.parameters ++ (delta [] m d).map text }) := by
  obtain ⟨var, value⟩ := d
  have hkeep : m var = entry [] value → put [] m (var, value) = m := fun h => by
    rw [put, ← h]
    exact Function.update_eq_self var m
  rw [addParam, delta]
  dsimp only
  split
  next last hlast =>
    split
    next hne =>
      have hdiff : m var ≠ entry [] value := by
        rw [hlast, entry]
        split
        next => exact Option.some_ne_none _
        next => exact fun heq => hne (Option.some.inj heq)
      rw [if_neg hdiff, put, entry]
      split <;> rfl
    next heq =>
      rw [not_not] at heq
      have hval : value ≠ [] := fun hnil => hm var (by rw [hlast, heq, hnil])
      have hsame : m var = entry [] value := by rw [hlast, heq, entry, if_neg hval]
      rw [if_pos hsame, hkeep hsame, List.map_nil, List.append_nil]
  next hnone =>
    split
    next hne =>
      have hdiff : m var ≠ entry [] value := by
        rw [hnone, entry, if_neg hne]
        exact (Option.some_ne_none value).symm
      rw [if_neg hdiff, put, entry, if_neg hne]
      rfl
    next heq =>
      rw [not_not] at heq
      have hsame : m var = entry [] value := by rw [hnone, entry, if_pos heq]
      rw [if_pos hsame, hkeep hsame, List.map_nil, List.append_nil]

/-- What is added are the differences from the last map. -/
theorem foldl_addParam {m : StringMap} (hm : ∀ k, m k ≠ some []) (c : AdcCommand) (ds : List (Bytes × Bytes)) :
    ds.foldl addParam (m, c) =
      (puts [] m ds, { c with parameters := c.parameters ++ (deltas [] m ds).map text }) := by
  induction ds generalizing m c with
  | nil => rw [List.foldl_nil, deltas, List.map_nil, List.append_nil]; rfl
  | cons d ds ih =>
    rw [List.foldl_cons, addParam_eq hm, ih (put_ne_some [] hm d), deltas, List.map_append, List.append_assoc]
    rfl

theorem puts_ne_some {m : StringMap} (hm : ∀ k, m k ≠ some []) (ds : List (Bytes × Bytes)) (k : Bytes) :
    puts [] m ds k ≠ some [] := by
  induction ds generalizing m with
  | nil => exact hm k
  | cons d ds ih => exact ih (put_ne_some [] hm d)

/-- The last map has values of known fields, and the hub knows it unless something was withheld. -/
structure Known (s : State) : Prop where
  values : ∀ k, s.lastInfoMap k ≠ some []
  names : ∀ k, k ∉ names s.keyprint → s.lastInfoMap k = none
  loaded : s.loaded = false → s.keyprint = none
  view : s.withheld = false → s.view = s.lastInfoMap

theorem known_start : Known start := ⟨fun _ => nofun, fun _ _ => rfl, fun _ => rfl, fun _ => rfl⟩

/-- The map after a call has the current fields. -/
theorem Known.puts_fields {s : State} (h : Known s) (i : Info) :
    puts [] s.lastInfoMap (fields i s.keyprint) = current i s.keyprint :=
  puts_eq_ofValues [] (fields_names i s.keyprint ▸ names_nodup _) (fields_names i s.keyprint ▸ h.names)

theorem infoImpl_of_identified {s : State} (h : Known s) (hid : identified s = true) (i : Info) (taken : Bool) :
    (infoImpl i taken s).lastInfoMap = current i s.keyprint ∧ (infoImpl i taken s).keyprint = s.keyprint ∧
      (infoImpl i taken s).loaded = s.loaded ∧
      ((infoImpl i taken s).withheld = false → (infoImpl i taken s).view = current i s.keyprint) := by
  have hlen : ∀ d ∈ deltas [] s.lastInfoMap (fields i s.keyprint), d.1.length = 2 := by
    intro d hd
    apply length_of_mem_names
    rw [← fields_names i s.keyprint]
    exact List.mem_map_of_mem (mem_of_mem_deltas [] hd)
  have hview : s.view = s.lastInfoMap →
      ((deltas [] s.lastInfoMap (fields i s.keyprint)).map text).foldl readParam s.view = current i s.keyprint := by
    intro heq
    rw [heq, foldl_readParam _ hlen, puts_deltas, h.puts_fields]
  rw [infoImpl, if_pos hid, foldl_addParam h.values, h.puts_fields]
  generalize hparams : (deltas [] s.lastInfoMap (fields i s.keyprint)).map text = params at hview
  have hc : inf.parameters ++ params = params := List.nil_append params
  dsimp only
  rw [hc]
  generalize current i s.keyprint = m at hview
  split
  next =>
    rw [send]
    split
    next => exact ⟨rfl, rfl, rfl, nofun⟩
    next => exact ⟨rfl, rfl, rfl, fun hw => hview (h.view hw)⟩
  next hnil =>
    rw [not_not] at hnil
    subst hnil
    exact ⟨rfl, rfl, rfl, fun hw => hview (h.view hw)⟩

theorem infoImpl_of_not_identified {s : State} (h : identified s = false) (i : Info) (taken : Bool) :
    infoImpl i taken s = s := by
  rw [infoImpl, if_neg (by rw [h]; exact Bool.false_ne_true)]

theorem current_ne_some (i : Info) (keyprint : Option Bytes) (k : Bytes) : current i keyprint k ≠ some [] :=
  puts_ne_some (m := fun _ => none) (fun _ => nofun) _ k

theorem current_of_notMem (i : Info) {keyprint : Option Bytes} {k : Bytes} (h : k ∉ names keyprint) :
    current i keyprint k = none := by
  rw [current, ofValues, puts_of_notMem]
  rwa [fields_names]

theorem step_known {s t : State} {e : Event} (hs : Known s) (ht : step s e = some t) : Known t := by
  cases e with
  | connected =>
    obtain rfl := Option.some.inj ht
    exact ⟨fun _ => nofun, fun _ _ => rfl, hs.loaded, fun _ => rfl⟩
  | setState state =>
    obtain rfl := Option.some.inj ht
    exact ⟨hs.values, hs.names, hs.loaded, hs.view⟩
  | forbid =>
    obtain rfl := Option.some.inj ht
    exact ⟨hs.values, hs.names, hs.loaded, hs.view⟩
  | loadCertificates keyprint =>
    rw [step] at ht
    split at ht
    next => cases ht
    next hloaded =>
      obtain rfl := Option.some.inj ht
      have hnone := hs.loaded (Bool.eq_false_iff.mpr hloaded)
      refine ⟨hs.values, fun k hk => hs.names k fun hmem => hk ?_, nofun, hs.view⟩
      rw [hnone] at hmem
      exact names_subset keyprint hmem
  | infoImpl i taken =>
    obtain rfl := Option.some.inj ht
    cases hid : identified s with
    | false =>
      rw [infoImpl_of_not_identified hid]
      exact hs
    | true =>
      obtain ⟨hmap, hkeyprint, hloaded, hview⟩ := infoImpl_of_identified hs hid i taken
      refine ⟨?_, ?_, ?_, fun hw => (hview hw).trans hmap.symm⟩
      · rw [hmap]
        exact current_ne_some i s.keyprint
      · rw [hmap, hkeyprint]
        exact fun k hk => current_of_notMem i hk
      · rw [hloaded, hkeyprint]
        exact hs.loaded

/-- In every run each call tells the hub what is current. -/
theorem run_informs {events : List Event} {s : State} (h : Runs.run step start events = some s) (i : Info)
    (taken : Bool) : Informs s i taken := by
  have hs : Known s := Runs.run_preserves (fun _ _ _ hinv (_ : True) => step_known hinv) known_start
    (fun _ _ _ _ => trivial) h
  refine ⟨fun hid => infoImpl_of_not_identified hid i taken, fun hid => ?_, ?_⟩
  · exact (infoImpl_of_identified hs hid i taken).2.2.2
  · rw [connected, foldl_addParam (m := fun _ => none) (fun _ => nofun),
      deltas_of_none [] (fields_names i s.keyprint ▸ names_nodup _) fun _ _ => rfl]
    exact List.nil_append _

/-- A user without a share. -/
def someone : Info where
  myCID := str "CID"
  myPID := str "PID"
  nick := str "nick"
  description := []
  email := []
  slots := 1
  freeSlots := 1
  shareSizeString := str "0"
  sharedFiles := 0
  normal := 1
  registered := 0
  op := 0
  away := false
  downLimit := 0
  upLimit := 0
  uploadSpeed := str "0"
  language := str "en-US"
  enableCCPM := true
  enableSUDP := true
  secure := false
  v6Valid := false
  connection := .ACTIVE
  connection6 := .DISABLED
  noIpOverride := false
  noIpOverride6 := false
  userIp4 := []
  userIp6 := []
  resolve := id
  resolve6 := id
  searchPort := str "412"

theorem run_informs_loaded : ∃ s, Runs.run step start [.loadCertificates (some [1]), .connected, .setState .IDENTIFY,
    .infoImpl someone false] = some s ∧ Informs s { someone with description := str "away" } false := by
  have h : Runs.run step start [.loadCertificates (some [1]), .connected, .setState .IDENTIFY,
    .infoImpl someone false] = some _ := rfl
  exact ⟨_, h, run_informs h _ _⟩

/-- A hub that has forbidden INF does not get the description. -/
theorem not_run_informs : ¬ ∀ (events : List Event) (s : State), Runs.run step start events = some s →
    ∀ (i : Info) (taken : Bool), (infoImpl i taken s).view = current i s.keyprint := by
  intro h
  have hview := h [.connected, .setState .IDENTIFY, .infoImpl someone false, .forbid] _ rfl
    { someone with description := str "away" } false
  have hat := congrFun hview (str "DE")
  revert hat
  decide +kernel

end Dcpp.AdcHub
