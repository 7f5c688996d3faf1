import Mathlib.Logic.Function.Basic
import Dcpp.AdcCommand
import Dcpp.Library.Keyed
import Dcpp.Library.Runs

namespace Dcpp.ConnectionManager

inductive ConnectionType where
  | DOWNLOAD | UPLOAD | PM
deriving DecidableEq

namespace ConnectionQueueItem

inductive State where
  | CONNECTING | WAITING | NO_DOWNLOAD_SLOTS | ACTIVE
deriving DecidableEq

end ConnectionQueueItem

/-- `errors` is -1 after a protocol error. -/
structure ConnectionQueueItem (U : Type) where
  token : Bytes
  lastAttempt : Nat
  errors : Int
  state : ConnectionQueueItem.State
  type : ConnectionType
  user : Option U
deriving DecidableEq

namespace UserConnection

inductive State where
  | UNCONNECTED | CONNECT
  | SUPNICK | INF | LOCK | DIRECTION | KEY
  | GET | SEND
  | SND | IDLE
  | RUNNING
deriving DecidableEq

/-- The states in which the upload or the download manager has the connection. -/
def State.transfer : State → Bool
  | .GET | .SEND | .SND | .IDLE | .RUNNING => true
  | _ => false

end UserConnection

/-- The flags are fields; `id` stands for the address, and `disconnecting` is set when the socket is
asked to disconnect. -/
structure UserConnection (U : Type) where
  id : Nat
  state : UserConnection.State
  nmdc : Bool
  upload : Bool
  download : Bool
  pm : Bool
  incoming : Bool
  associated : Bool
  supportsTthf : Bool
  supportsAdcGet : Bool
  secure : Bool
  user : Option U
  token : Bytes
  hubUrl : Bytes
  disconnecting : Bool
deriving DecidableEq

/-- `userConnections` are the connections that are listened to. -/
structure State (U C : Type) where
  cqis : ConnectionType → List (ConnectionQueueItem U)
  userConnections : List (UserConnection U)
  nextId : Nat
  tokens : List (Bytes × C × ConnectionType)
  expectedConnections : List (Bytes × Bytes × Bytes)
  shuttingDown : Bool

/-- What a handler reads outside of the connection manager: the settings, the socket, the users and
hubs, the download manager, and the token that `makeToken` draws. -/
structure Env (U C : Type) where
  requireTls : Bool
  enableCcpm : Bool
  isTrusted : Bool
  verifyKeyprint : Bool
  getCID : U → C
  ofBase32 : Bytes → C
  makeCid : Bytes → Bytes → C
  findUser : C → Option U
  isOnline : U → Bool
  isTls : U → Bool
  startDownload : Bool
  gotDownload : Bool
  token : Bytes

variable {U C : Type} [DecidableEq U] [DecidableEq C]

/-- Writes a connection back to its place. -/
def setConnection (s : State U C) (uc : UserConnection U) : State U C :=
  { s with
    userConnections :=
      Keyed.modifyFirst (fun x => decide (x.id = uc.id)) (fun _ => uc) s.userConnections }

def UserConnection.disconnect (uc : UserConnection U) : UserConnection U :=
  { uc with disconnecting := true }

/-- Finds the item of a user. -/
def find (s : State U C) (type : ConnectionType) (user : Option U) : Option (ConnectionQueueItem U) :=
  (s.cqis type).find? fun cqi => cqi.user = user

/-- Changes the item that `find` gives. -/
def setItem (s : State U C) (type : ConnectionType) (user : Option U)
    (f : ConnectionQueueItem U → ConnectionQueueItem U) : State U C :=
  { s with
    cqis := Function.update s.cqis type
      (Keyed.modifyFirst (fun cqi => decide (cqi.user = user)) f (s.cqis type)) }

/-- A new item in its container. -/
def getCQI (s : State U C) (token : Bytes) (user : Option U) (type : ConnectionType) : State U C :=
  { s with cqis := Function.update s.cqis type (s.cqis type ++ [⟨token, 0, 0, .WAITING, type, user⟩]) }

def putCQI (s : State U C) (cqi : ConnectionQueueItem U) : State U C :=
  { s with
    cqis := Function.update s.cqis cqi.type
      (Keyed.erase (fun i => (i.type, i.user)) (cqi.type, cqi.user) (s.cqis cqi.type)) }

def getDownloadConnection (token : Bytes) (aUser : U) (s : State U C) : State U C :=
  match find s .DOWNLOAD (some aUser) with
  | none => getCQI s token (some aUser) .DOWNLOAD
  | some _ => s

/-- A connection that is listened to, and its place. -/
def getConnection (aNmdc secure : Bool) (s : State U C) : UserConnection U × State U C :=
  let uc : UserConnection U :=
    ⟨s.nextId, .UNCONNECTED, aNmdc, false, false, false, false, false, false, false, secure, none, [],
      [], false⟩
  (uc, { s with userConnections := s.userConnections ++ [uc], nextId := s.nextId + 1 })

def putConnection (uc : UserConnection U) (s : State U C) : State U C :=
  { s with userConnections := Keyed.erase UserConnection.id uc.id s.userConnections }

/-- `connected` tells that the socket raised no exception. -/
def accept (secure connected : Bool) (s : State U C) : State U C :=
  let (uc, s) := getConnection false secure s
  let uc := { uc with incoming := true, state := .SUPNICK }
  let s := setConnection s uc
  if connected then s else putConnection uc s

def nmdcConnect (aNick hubUrl : Bytes) (blocked secure connected : Bool) (s : State U C) : State U C :=
  if s.shuttingDown || blocked then s
  else
    let (uc, s) := getConnection true secure s
    let uc := { uc with token := aNick, hubUrl := hubUrl, state := .CONNECT, nmdc := true }
    let s := setConnection s uc
    if connected then s else putConnection uc s

def lookupToken (s : State U C) (token : Bytes) : Option (C × ConnectionType) :=
  (s.tokens.find? fun t => t.1 = token).map fun t => t.2

def adcConnect (hubUrl aToken : Bytes) (secure connected : Bool) (s : State U C) : State U C :=
  if s.shuttingDown then s
  else
    let (uc, s) := getConnection false secure s
    let uc := { uc with
      token := aToken
      hubUrl := hubUrl
      state := .CONNECT
      pm := match lookupToken s aToken with
        | some (_, type) => type = .PM
        | none => false }
    let s := setConnection s uc
    if connected then s else putConnection uc s

/-- A token replaces an older one that is the same. -/
def addToken (token : Bytes) (cid : C) (type : ConnectionType) (s : State U C) : State U C :=
  { s with tokens := (token, cid, type) :: s.tokens.filter fun t => t.1 ≠ token }

/-- `emplace` keeps what is expected of the nick already. -/
def nmdcExpect (aNick aMyNick aHubUrl : Bytes) (s : State U C) : State U C :=
  if (s.expectedConnections.find? fun e => e.1 = aNick).isSome then s
  else { s with expectedConnections := (aNick, aMyNick, aHubUrl) :: s.expectedConnections }

/-- A socket connects once, which `dcassert` tells; then the manager sends first. -/
def onConnected (uc : UserConnection U) (s : State U C) : State U C :=
  if uc.state ≠ .CONNECT then s else setConnection s { uc with state := .SUPNICK }

/-- A feature is added by `AD`. -/
def onSUP (cmd : AdcCommand) (uc : UserConnection U) (s : State U C) : State U C :=
  if uc.state ≠ .SUPNICK then s
  else if cmd.parameters.any fun i => i = str "ADBASE" ∨ i = str "ADBAS0" then
    setConnection s { uc with supportsAdcGet := true, supportsTthf := true, state := .INF }
  else setConnection s uc.disconnect

def onSupports (feat : List Bytes) (uc : UserConnection U) (s : State U C) : State U C :=
  setConnection s { uc with
    supportsAdcGet := uc.supportsAdcGet || decide (str "ADCGet" ∈ feat)
    supportsTthf := uc.supportsTthf || decide (str "TTHF" ∈ feat) }

/-- The downloads that a connection may be for. -/
def pending (env : Env U C) (cid : C) (cqi : ConnectionQueueItem U) : Bool :=
  (cqi.state = .CONNECTING || cqi.state = .WAITING) && cqi.user.map env.getCID = some cid

/-- The loop over the downloads, which stops at the first that is pending. -/
def resetErrors (env : Env U C) (cid : C) : List (ConnectionQueueItem U) → List (ConnectionQueueItem U)
  | [] => []
  | cqi :: l => { cqi with errors := 0 } :: if pending env cid cqi then l else resetErrors env cid l

/-- `on(MyNick)` once the hub is known. -/
def onNick (env : Env U C) (aNick : Bytes) (uc : UserConnection U) (s : State U C) : State U C :=
  let cid := env.makeCid aNick uc.hubUrl
  let uc := match (s.cqis .DOWNLOAD).find? (pending env cid) with
    | some cqi => { uc with user := cqi.user, download := true }
    | none => uc
  let s := { s with cqis := Function.update s.cqis .DOWNLOAD (resetErrors env cid (s.cqis .DOWNLOAD)) }
  match uc.user with
  | some _ => setConnection s { uc with state := .LOCK }
  | none =>
    match env.findUser cid with
    | none => putConnection uc s
    | some user =>
      if env.isOnline user then setConnection s { uc with user := some user, upload := true, state := .LOCK }
      else putConnection uc s

def onMyNick (env : Env U C) (aNick : Bytes) (uc : UserConnection U) (s : State U C) : State U C :=
  if uc.state ≠ .SUPNICK then s
  else if uc.incoming then
    match s.expectedConnections.find? fun e => e.1 = aNick with
    | none => putConnection uc s
    | some (_, myNick, hubUrl) =>
      let s := { s with expectedConnections := s.expectedConnections.filter fun e => e.1 ≠ aNick }
      if hubUrl = [] then putConnection uc s
      else onNick env aNick { uc with token := myNick, hubUrl := hubUrl } s
  else onNick env aNick uc s

/-- `online` tells that the user of the connection is found on its hub. -/
def onCLock (online : Bool) (uc : UserConnection U) (s : State U C) : State U C :=
  if uc.state ≠ .LOCK then s
  else if !online then s
  else setConnection s { uc with state := .DIRECTION }

/-- `upload` tells that the other end sent `Upload`; a number is drawn for each comparison. -/
def onDirection (upload : Bool) (number drawn drawn' : Int) (uc : UserConnection U) (s : State U C) :
    State U C :=
  if uc.state ≠ .DIRECTION then s
  else if upload then
    if uc.upload then putConnection uc s else setConnection s { uc with state := .KEY }
  else if uc.download then
    if drawn < number then setConnection s { uc with download := false, upload := true, state := .KEY }
    else if drawn' = number then putConnection uc s
    else setConnection s { uc with state := .KEY }
  else setConnection s { uc with state := .KEY }

/-- `DownloadManager::addConnection`, and `checkDownloads` of a connection that is new. -/
def downloadManagerAdd (env : Env U C) (uc : UserConnection U) : UserConnection U :=
  if !uc.supportsTthf || !uc.supportsAdcGet then uc.disconnect
  else if !env.startDownload then uc.disconnect
  else if env.gotDownload then { uc with state := .SND }
  else { uc with state := .IDLE }

/-- `UploadManager::addConnection`. -/
def uploadManagerAdd (uc : UserConnection U) : UserConnection U := { uc with state := .GET }

def addDownloadConnection (env : Env U C) (uc : UserConnection U) (s : State U C) : State U C :=
  match find s .DOWNLOAD uc.user with
  | none => putConnection uc s
  | some cqi =>
    if cqi.state = .WAITING ∨ cqi.state = .CONNECTING then
      setConnection (setItem s .DOWNLOAD uc.user fun cqi => { cqi with state := .ACTIVE })
        (downloadManagerAdd env { uc with associated := true })
    else putConnection uc s

def addNewConnection (env : Env U C) (type : ConnectionType) (uc : UserConnection U) (s : State U C) :
    State U C :=
  if type ≠ .PM ∨ env.enableCcpm = true then
    match find s type uc.user with
    | none =>
      let uc' := { uc with associated := true }
      setConnection (setItem (getCQI s env.token uc.user type) type uc.user
        fun cqi => { cqi with state := .ACTIVE }) (if type = .UPLOAD then uploadManagerAdd uc' else uc')
    | some _ => putConnection uc s
  else putConnection uc s

def onKey (env : Env U C) (uc : UserConnection U) (s : State U C) : State U C :=
  if uc.state ≠ .KEY then s
  else if uc.download then addDownloadConnection env uc s
  else addNewConnection env .UPLOAD uc s

def checkKeyprint (env : Env U C) (uc : UserConnection U) : Bool :=
  if !uc.secure || env.isTrusted then true else env.verifyKeyprint

def checkToken (env : Env U C) (uc : UserConnection U) (s : State U C) : Option ConnectionType :=
  match lookupToken s uc.token with
  | some (cid, type) => if some cid = uc.user.map env.getCID then some type else none
  | none => none

def checkDownload (uc : UserConnection U) (s : State U C) : Bool × State U C :=
  match find s .DOWNLOAD uc.user with
  | some d =>
    if d.token = uc.token then (true, setItem s .DOWNLOAD uc.user fun d => { d with errors := 0 })
    else (false, s)
  | none => (false, s)

/-- `on(INF)` once the type that the token gives is known; it is none where the other end listened. -/
def addInfConnection (env : Env U C) (cmd : AdcCommand) (type : Option ConnectionType)
    (uc : UserConnection U) (s : State U C) : State U C :=
  let (download, s) := if type = some .DOWNLOAD then (true, s) else checkDownload uc s
  if download then addDownloadConnection env { uc with download := true } s
  else if type = some .PM || uc.pm || cmd.hasFlag (str "PM") 0 then
    addNewConnection env .PM { uc with pm := true } s
  else addNewConnection env .UPLOAD { uc with upload := true } s

/-- `on(INF)` of a connection that was accepted. -/
def onIncomingINF (env : Env U C) (cmd : AdcCommand) (user : U) (uc : UserConnection U) (s : State U C) :
    State U C :=
  match cmd.getParam (str "TO") 0 with
  | none => putConnection uc s
  | some token =>
    let uc := { uc with token := token }
    match checkToken env uc s with
    | none => putConnection uc s
    | some type =>
      if type = .PM || cmd.hasFlag (str "PM") 0 then
        if env.isTls user then addInfConnection env cmd (some type) { uc with pm := true } s
        else putConnection uc s
      else addInfConnection env cmd (some type) uc s

def onINF (env : Env U C) (cmd : AdcCommand) (uc : UserConnection U) (s : State U C) : State U C :=
  if uc.state ≠ .INF then setConnection s uc.disconnect
  else if env.requireTls && !uc.nmdc && !uc.secure then putConnection uc s
  else
    match cmd.getParam (str "ID") 0 with
    | none => setConnection s uc.disconnect
    | some cid =>
      match uc.user.or (env.findUser (env.ofBase32 cid)) with
      | none => putConnection uc s
      | some user =>
        let uc := { uc with user := some user }
        if !checkKeyprint env uc then putConnection uc s
        else if uc.incoming then onIncomingINF env cmd user uc s
        else addInfConnection env cmd none uc s

def force (aUser : U) (s : State U C) : State U C :=
  setItem s .DOWNLOAD (some aUser) fun cqi => { cqi with lastAttempt := 0 }

/-- The type of the item that stands for an associated connection. -/
def UserConnection.type (uc : UserConnection U) : Option ConnectionType :=
  if uc.download then some .DOWNLOAD
  else if uc.upload then some .UPLOAD
  else if uc.pm then some .PM
  else none

/-- Undefined where an item is missing that the code reads through its iterator. -/
def failed (protocolError : Bool) (now : Nat) (uc : UserConnection U) (s : State U C) :
    Option (State U C) :=
  if uc.associated then
    match uc.type with
    | some .DOWNLOAD => (find s .DOWNLOAD uc.user).map fun _ =>
      putConnection uc (setItem s .DOWNLOAD uc.user fun cqi =>
        { cqi with
          state := .WAITING
          lastAttempt := now
          errors := if protocolError then -1 else cqi.errors + 1 })
    | some type => (find s type uc.user).map fun cqi => putConnection uc (putCQI s cqi)
    | none => some (putConnection uc s)
  else some (putConnection uc s)

def disconnectUser (user : U) (s : State U C) : State U C :=
  { s with
    userConnections := s.userConnections.map fun uc =>
      if uc.user = some user then uc.disconnect else uc }

/-- The flag that `disconnect` of a type looks at. -/
def UserConnection.isSet (uc : UserConnection U) : ConnectionType → Bool
  | .DOWNLOAD => uc.download
  | .UPLOAD => uc.upload
  | .PM => uc.pm

def disconnectType (user : U) (type : ConnectionType) (s : State U C) : State U C :=
  { s with
    userConnections := Keyed.modifyFirst (fun uc => decide (uc.user = some user) && uc.isSet type)
      UserConnection.disconnect s.userConnections }

def disconnectAll (s : State U C) : State U C :=
  { s with userConnections := s.userConnections.map UserConnection.disconnect }

def shutdown (s : State U C) : State U C := disconnectAll { s with shuttingDown := true }

/-- What the timer reads: the time, the users, the mode of the client, and what the queue and the
download manager say of a user's downloads. -/
structure Tick (U C : Type) where
  aTick : Nat
  isOnline : Option U → Bool
  isPassive : Option U → Bool
  isActive : Bool
  paused : Option U → Bool
  startDown : Option U → Bool
  isOnlineCid : C → Bool
  timedOut : UserConnection U → Bool

/-- One round of the loop over the downloads: the item, whether it is removed, and `attemptDone`. -/
def attempt (tick : Tick U C) (attemptDone : Bool) (cqi : ConnectionQueueItem U) :
    ConnectionQueueItem U × Bool × Bool :=
  if cqi.state = .ACTIVE then (cqi, false, attemptDone)
  else if !tick.isOnline cqi.user then (cqi, true, attemptDone)
  else if tick.isPassive cqi.user && !tick.isActive then (cqi, true, attemptDone)
  else if cqi.errors = -1 ∧ cqi.lastAttempt ≠ 0 then (cqi, false, attemptDone)
  else if cqi.lastAttempt = 0 ∨ attemptDone = false ∧
      cqi.lastAttempt + 60 * 1000 * (max 1 cqi.errors).toNat < tick.aTick then
    let cqi := { cqi with lastAttempt := tick.aTick }
    if tick.paused cqi.user then (cqi, true, attemptDone)
    else if cqi.state = .WAITING then
      if tick.startDown cqi.user then ({ cqi with state := .CONNECTING }, false, true)
      else ({ cqi with state := .NO_DOWNLOAD_SLOTS }, false, attemptDone)
    else if cqi.state = .NO_DOWNLOAD_SLOTS ∧ tick.startDown cqi.user = true then
      ({ cqi with state := .WAITING }, false, attemptDone)
    else (cqi, false, attemptDone)
  else if cqi.state = .CONNECTING ∧ cqi.lastAttempt + 50 * 1000 < tick.aTick then
    ({ cqi with errors := cqi.errors + 1, state := .WAITING }, false, attemptDone)
  else (cqi, false, attemptDone)

/-- The loop over the downloads: the items, and the users whose items are removed. -/
def attempts (tick : Tick U C) : Bool → List (ConnectionQueueItem U) →
    List (ConnectionQueueItem U) × List (Option U)
  | _, [] => ([], [])
  | attemptDone, cqi :: l =>
    let (cqi', removed, attemptDone) := attempt tick attemptDone cqi
    let (items, users) := attempts tick attemptDone l
    (cqi' :: items, if removed then cqi.user :: users else users)

def onSecond (tick : Tick U C) (s : State U C) : State U C :=
  let (items, removed) := attempts tick false (s.cqis .DOWNLOAD)
  { s with cqis := Function.update s.cqis .DOWNLOAD (items.filter fun cqi => cqi.user ∉ removed) }

def onMinute (tick : Tick U C) (s : State U C) : State U C :=
  { s with
    tokens := s.tokens.filter fun t => tick.isOnlineCid t.2.1
    userConnections := s.userConnections.map fun uc =>
      if !uc.pm && tick.timedOut uc then uc.disconnect else uc }

/-- What happens on a connection. `transfer` is a move of the upload or the download manager, and
`line` a line that begins with a dollar sign. -/
inductive ConnectionEvent (U C : Type) where
  | connected
  | line
  | sup (cmd : AdcCommand)
  | inf (env : Env U C) (cmd : AdcCommand)
  | supports (feat : List Bytes)
  | myNick (env : Env U C) (aNick : Bytes)
  | lock (online : Bool)
  | direction (upload : Bool) (number drawn drawn' : Int)
  | key (env : Env U C)
  | transfer (state : UserConnection.State)
  | disconnect
  | failed (protocolError : Bool) (now : Nat)

inductive Event (U C : Type) where
  | getDownloadConnection (token : Bytes) (aUser : U)
  | addToken (token : Bytes) (cid : C) (type : ConnectionType)
  | nmdcExpect (aNick aMyNick aHubUrl : Bytes)
  | accept (secure connected : Bool)
  | nmdcConnect (aNick hubUrl : Bytes) (blocked secure connected : Bool)
  | adcConnect (hubUrl aToken : Bytes) (secure connected : Bool)
  | connection (id : Nat) (e : ConnectionEvent U C)
  | force (aUser : U)
  | disconnectUser (user : U)
  | disconnectType (user : U) (type : ConnectionType)
  | disconnectAll
  | shutdown
  | second (tick : Tick U C)
  | minute (tick : Tick U C)

def handle (uc : UserConnection U) (s : State U C) : ConnectionEvent U C → Option (State U C)
  | .connected => some (onConnected uc s)
  | .line => some (setConnection s { uc with nmdc := true })
  | .sup cmd => some (onSUP cmd uc s)
  | .inf env cmd => some (onINF env cmd uc s)
  | .supports feat => some (onSupports feat uc s)
  | .myNick env aNick => some (onMyNick env aNick uc s)
  | .lock online => some (onCLock online uc s)
  | .direction upload number drawn drawn' => some (onDirection upload number drawn drawn' uc s)
  | .key env => some (onKey env uc s)
  | .transfer state =>
    some (if uc.state.transfer && state.transfer then setConnection s { uc with state := state } else s)
  | .disconnect => some (setConnection s uc.disconnect)
  | .failed protocolError now => failed protocolError now uc s

def findConnection (s : State U C) (id : Nat) : Option (UserConnection U) :=
  s.userConnections.find? fun uc => uc.id = id

/-- The manager hears nothing of a connection that it has put away. -/
def step (s : State U C) : Event U C → Option (State U C)
  | .getDownloadConnection token aUser => some (getDownloadConnection token aUser s)
  | .addToken token cid type => some (addToken token cid type s)
  | .nmdcExpect aNick aMyNick aHubUrl => some (nmdcExpect aNick aMyNick aHubUrl s)
  | .accept secure connected => some (accept secure connected s)
  | .nmdcConnect aNick hubUrl blocked secure connected =>
    some (nmdcConnect aNick hubUrl blocked secure connected s)
  | .adcConnect hubUrl aToken secure connected => some (adcConnect hubUrl aToken secure connected s)
  | .connection id e =>
    match findConnection s id with
    | none => some s
    | some uc => handle uc s e
  | .force aUser => some (force aUser s)
  | .disconnectUser user => some (disconnectUser user s)
  | .disconnectType user type => some (disconnectType user type s)
  | .disconnectAll => some (disconnectAll s)
  | .shutdown => some (shutdown s)
  | .second tick => some (onSecond tick s)
  | .minute tick => some (onMinute tick s)

def start : State U C where
  cqis := fun _ => []
  userConnections := []
  nextId := 0
  tokens := []
  expectedConnections := []
  shuttingDown := false

def run (s : State U C) (events : List (Event U C)) : Option (State U C) := Runs.run step s events

end Dcpp.ConnectionManager
