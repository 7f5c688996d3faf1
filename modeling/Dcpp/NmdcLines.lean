import Dcpp.NmdcHub

-- The lines that an NMDC hub sends.
namespace Dcpp

open Edit Util

/-- The loop of `StringTokenizer`; no round is without a token. -/
def StringTokenizer.tokenLoop (aToken aString : Bytes) : Nat → Nat → Option (List Bytes)
  | 0, _ => none
  | rounds + 1, j =>
    match find aToken aString j with
    | some i => do
      let token ← substr aString j (i - j)
      return token :: (← tokenLoop aToken aString rounds (i + aToken.length))
    | none =>
      if j < aString.length then (substr aString j (aString.length - j)).map fun token => [token] else some []

/-- The tokens of a string between the places of `aToken`. -/
def StringTokenizer.getTokens (aString aToken : Bytes) : Option (List Bytes) :=
  tokenLoop aToken aString (aString.length + 1) 0

namespace Util

/-- `Util::replace`. -/
def replaceAll (search replacement s : Bytes) : Option Bytes :=
  replaceLoop search search.length replacement replacement.length s

end Util

namespace NmdcHub

open StringTokenizer

/-- `s.erase(pos)`, which throws behind the end. -/
def eraseFrom (s : Bytes) (pos : Nat) : Option Bytes := if pos ≤ s.length then some (s.take pos) else none

/-- `s.erase(s.begin() + i, s.begin() + j)`, in the range of the string. -/
def eraseRange (s : Bytes) (i j : Nat) : Option Bytes :=
  if i ≤ j ∧ j ≤ s.length then some (erase s i (j - i)) else none

variable {U : Type} [DecidableEq U] (env : Environment U)

/-- One field of a tag; the flags of the users are those for passive ones. -/
def tagField (s : Identity U × (U → Bool)) (i : Bytes) : Option (Identity U × (U → Bool)) :=
  let (id, passive) := s
  if i.length < 2 then some s
  else if str "H:" <+: i then do
    match ← getTokens (← substr i 2 i.length) (str "/") with
    | [hn, hr, ho] => return (((id.set "HN" hn).set "HR" hr).set "HO" ho, passive)
    | _ => return s
  else if str "S:" <+: i then do
    return (id.set "SL" (← substr i 2 i.length), passive)
  else
    match find (str "V:") i 0 with
    | some j => do
      return (id.set "VE" (← eraseRange i j (j + 2)), passive)
    | none =>
      if str "M:" <+: i ∧ i.length = 3 then do
        return (id, Function.update passive id.user ((← charAt i 2) ≠ byte 'A'))
      else some s

def updateFromTag (s : Identity U × (U → Bool)) (tag : Bytes) : Option (Identity U × (U → Bool)) := do
  let (id, passive) ← (← getTokens tag (str ",")).foldlM tagField s
  return (id.set "TA" (str "<" ++ tag ++ str ">"), passive)

def statusMessage (h : NmdcHub U) (line : Bytes) (spam : Bool) : Option (NmdcHub U) := do
  return h.fire (.statusMessage (← unescape line) spam)

/-- The words of the messages that hubs are full of. -/
def isSpam (line : Bytes) : Bool :=
  ((find (str "Hub-Security") line 0).isSome && (find (str "was kicked by") line 0).isSome) ||
    ((find (str "is kicking") line 0).isSome && (find (str "because:") line 0).isSome)

/-- A message of a user, or of the hub when nobody has the nick. -/
def chatMessage (h : NmdcHub U) (nick message : Bytes) : Option (NmdcHub U) :=
  let «from» := h.findUser env nick
  if «from».any fun u => u.identity.ignoreChat then some h
  else do
    let (h, u) := «from».elim (h.hubUser env nick) fun u => (h, u)
    let chatMessage ← unescape message
    if env.chatIn chatMessage then return h else return h.fire (.message chatMessage u.key)

/-- A line that is not a command. -/
def onChat (h : NmdcHub U) (aLine : Bytes) : Option (NmdcHub U) := do
  let banned := h.state ≠ .NORMAL ∧ (findSubString env.locale aLine (str "banned") 0).isSome
  let h := if banned then { h with autoReconnect := false } else h
  let line := toUtf8 env aLine
  if (← charAt line 0) ≠ byte '<' then h.statusMessage line false
  else
    match find [byte '>'] line 2 with
    | none => h.statusMessage line false
    | some i =>
      let nick ← substr line 1 (distance 1 i)
      if i < distance 1 line.length then
        let message ← substr line (i + 2) line.length
        if isSpam line then h.statusMessage line true else h.chatMessage env nick message
      else h.statusMessage line false

def isPassive (seeker : Bytes) : Bool := 4 < seeker.length && str "Hub:" <+: seeker

/-- Own searches. -/
def isOwn (h : NmdcHub U) (seeker : Bytes) : Bool :=
  if !isPassive seeker && env.isActive then seeker = h.localIp ++ str ":" ++ env.searchPort
  else isPassive seeker && noCaseStringEq env.locale (seeker.drop 4) h.getMyNick

/-- The list of seekers with one more. -/
def addSeeker (h : NmdcHub U) (seeker : Bytes) : NmdcHub U :=
  let h := h.clearFlooders env.tick
  { h with seekers := h.seekers ++ [(seeker, env.tick.toUInt32)] }

def isFlooder (h : NmdcHub U) (seeker : Bytes) : Bool := h.flooders.any fun fi => fi.1 = seeker

def tooMany (h : NmdcHub U) (seeker : Bytes) : Bool := 7 < h.seekers.countP fun fi => fi.1 = seeker

def searchFlood (h : NmdcHub U) (seeker : Bytes) : Option (NmdcHub U) := do
  let who ← if str "Hub:" <+: seeker then substr seeker 4 seeker.length else some (seeker ++ str " (Nick unknown)")
  let h := h.fire (.searchFlood who)
  return { h with flooders := h.flooders ++ [(seeker, env.tick.toUInt32)] }

/-- The seeker is marked as passive, if its name says so; there is no such user in the `none` inside. -/
def markPassive (h : NmdcHub U) (seeker : Bytes) : Option (Option (NmdcHub U)) :=
  if isPassive seeker then do
    match h.findUser env (← substr seeker 4 seeker.length) with
    | none => return none
    | some u =>
      if h.passive u.identity.user then return some h
      else return some ((h.setPassive u.identity.user true).updated env [u.key])
  else some (some h)

/-- The two letters at `i`. -/
def sizeMode (param : Bytes) (i : Nat) : Option ShareManager.SearchManager.SizeModes := do
  if (← charAt param i) = byte 'F' then return .SIZE_DONTCARE
  else if (← charAt param (i + 2)) = byte 'F' then return .SIZE_ATLEAST
  else return .SIZE_ATMOST

/-- What is searched for; it stands from `i` on. -/
def searchTerms (h : NmdcHub U) (seeker param : Bytes) (i : Nat) : Option (NmdcHub U) := do
  let a ← sizeMode param i
  match find [byte '?'] param (i + 4) with
  | none => return h
  | some j =>
    if i + 4 = j then return h
    else
      let size ← substr param (i + 4) (distance (i + 4) j)
      match find [byte '?'] param (j + 1) with
      | none => return h
      | some k =>
        if j + 1 = k then return h
        else
          let type ← substr param (j + 1) (distance (j + 1) k)
          let terms ← unescape (← substr param (k + 1) param.length)
          if terms = [] then return h
          else
            match ← h.markPassive env seeker with
            | none => return h
            | some h => return h.fire (.nmdcSearch seeker a (toInt64 size) (toInt type - 1) terms)

def onSearch (h : NmdcHub U) (param : Bytes) : Option (NmdcHub U) :=
  if h.state ≠ .NORMAL then some h
  else
    match find [byte ' '] param 0 with
    | none => some h
    | some j =>
      if j = 0 then some h
      else do
        let seeker ← substr param 0 (distance 0 j)
        if h.isOwn env seeker then return h
        else
          let h := h.addSeeker env seeker
          if h.isFlooder seeker then return h
          else if h.tooMany seeker then h.searchFlood env seeker
          else h.searchTerms env seeker param (j + 1)

/-- The tag at the end of a description is cut off. -/
def cutTag (s : Identity U × (U → Bool)) (tmpDesc : Bytes) : Option ((Identity U × (U → Bool)) × Bytes) :=
  if tmpDesc = [] then some (s, tmpDesc)
  else do
    if (← charAt tmpDesc (tmpDesc.length - 1)) ≠ byte '>' then return (s, tmpDesc)
    else
      match rfind (byte '<') tmpDesc tmpDesc.length with
      | none => return (s, tmpDesc)
      | some x =>
        let s ← updateFromTag s (← substr tmpDesc (x + 1) (distance (x + 2) tmpDesc.length))
        return (s, ← eraseFrom tmpDesc x)

/-- The e-mail address and the share of a user; they stand from `i` on. -/
def myInfoEmail (h : NmdcHub U) (u : OnlineUser U) (param : Bytes) (i : Nat) : Option (NmdcHub U) :=
  match find [byte '$'] param i with
  | none => some h
  | some j => do
    let u : OnlineUser U := { u with identity := u.identity.set "EM" (← unescape (← substr param i (distance i j))) }
    let h := h.setIdentity u
    match find [byte '$'] param (j + 1) with
    | none => return h
    | some k =>
      let u : OnlineUser U := { u with identity := u.identity.set "SS" (← substr param (j + 1) (distance (j + 1) k)) }
      return ((h.setIdentity u).setIfMine u).updated env [u.key]

/-- The connection and the status of a user; a user without a connection is a bot. -/
def myInfoConnection (h : NmdcHub U) (u : OnlineUser U) (param : Bytes) (i : Nat) : Option (NmdcHub U) :=
  match find [byte '$'] param i with
  | none => some h
  | some j => do
    let connection ← if i = j then some [] else substr param i (distance (i + 1) j)
    let status := Util.toString (← charAt param (j - 1)).toInt8.toInt
    let id := (((u.identity.setBool "BO" (connection = [])).setBool "HU" false).set "CO" connection).set "ST" status
    ((h.setIdentity ⟨u.key, id⟩).setTLS id.user id.hasTLS).myInfoEmail env ⟨u.key, id⟩ param (j + 1)

/-- The description of a user. -/
def myInfoDescription (h : NmdcHub U) (u : OnlineUser U) (param : Bytes) (i : Nat) : Option (NmdcHub U) :=
  match find [byte '$'] param i with
  | none => some h
  | some j => do
    let ((id, passive), tmpDesc) ← cutTag (u.identity, h.passive) (← unescape (← substr param i (distance i j)))
    let u : OnlineUser U := ⟨u.key, id.set "DE" tmpDesc⟩
    ({ h with passive }.setIdentity u).myInfoConnection env u param (j + 3)

def onMyInfo (h : NmdcHub U) (param : Bytes) : Option (NmdcHub U) :=
  match find [byte ' '] param 5 with
  | none => some h
  | some j =>
    if j = 5 then some h
    else do
      let nick ← substr param 5 (distance 5 j)
      if nick = [] then return h
      else
        let (h, u) := h.getUser env nick
        let u := if u.identity.isHidden then ⟨u.key, (u.identity.setBool "HI" false).setBool "HU" false⟩ else u
        (h.setIdentity u).myInfoDescription env u param (j + 1)

def onQuit (h : NmdcHub U) (param : Bytes) : NmdcHub U :=
  if param = [] then h
  else
    match h.findUser env param with
    | none => h
    | some u => (h.fire (.userRemoved u.key)).putUser env param

/-- The port to connect to; an `S` at its end asks for TLS. -/
def connectTo (h : NmdcHub U) (server port : Bytes) : Option (NmdcHub U) :=
  if port = [] then some h
  else do
    if (← charAt port (port.length - 1)) = byte 'S' then
      if env.nmdcTls then
        return h.fire (.nmdcConnect server (← eraseFrom port (port.length - 1)) h.getMyNick env.tlsOk)
      else return h
    else return h.fire (.nmdcConnect server port h.getMyNick false)

def onConnectToMe (h : NmdcHub U) (param : Bytes) : Option (NmdcHub U) :=
  if h.state ≠ .NORMAL then some h
  else
    match find [byte ' '] param 0 with
    | none => some h
    | some i =>
      if param.length ≤ i + 1 then some h
      else
        match find [byte ':'] param (i + 1) with
        | none => some h
        | some j => do
          let server := env.resolve (← substr param (i + 1) (distance (i + 1) j))
          let (isProtected, h) := h.isProtectedIP server
          if isProtected then return h
          else if param.length ≤ j + 1 then return h
          else h.connectTo env server (← substr param (j + 1) param.length)

def onRevConnectToMe (h : NmdcHub U) (param : Bytes) : Option (NmdcHub U) :=
  if h.state ≠ .NORMAL then some h
  else
    match find [byte ' '] param 0 with
    | none => some h
    | some j => do
      match h.findUser env (← substr param 0 j) with
      | none => return h
      | some u =>
        if env.isActive then return h.connectToMe env u
        else if h.passive u.identity.user then return h
        else return ((h.setPassive u.identity.user true).revConnectToMe env u).updated env [u.key]

/-- What `onData` does with a line that begins with a `$`. -/
def onResult (h : NmdcHub U) (aLine : Bytes) : Option (NmdcHub U) :=
  if str "SR " <+: aLine.drop 1 then do
    return (← SearchManager.onSR env.clients aLine []).elim h fun r => h.fire (.searchResult r)
  else some h

/-- The name of the hub goes up to ` - `, or up to the first space. -/
def onHubName (h : NmdcHub U) (param : Bytes) : Option (NmdcHub U) := do
  let cut : Option (Nat × Nat) :=
    match find (str " - ") param 0 with
    | some i => some (i, i + 3)
    | none => (find [byte ' '] param 0).map fun i => (i, i + 1)
  match cut with
  | none => return { h with hubNick := ← unescape param, hubDescription := [] }.fire .hubUpdated
  | some (i, j) =>
    let name ← unescape (← substr param 0 i)
    let description ← unescape (← substr param j param.length)
    return { h with hubNick := name, hubDescription := description }.fire .hubUpdated

/-- The flag of a feature. -/
def supportFlag (feature : Bytes) : Nat :=
  if feature = str "UserCommand" then 0x01
  else if feature = str "NoGetINFO" then 0x02
  else if feature = str "UserIP2" then 0x04
  else if feature = str "TLS" then 0x10
  else 0

def SUPPORTS_NOGETINFO : Nat := 0x02

def onSupports (h : NmdcHub U) (param : Bytes) : Option (NmdcHub U) := do
  return { h with supportFlags := (← getTokens param (str " ")).foldl (fun flags i => flags ||| supportFlag i) h.supportFlags }

/-- A command with its name; the hub separates the parts of the name by `\`. -/
def rawCommand (h : NmdcHub U) (type : Int) (param : Bytes) (i : Nat) : Option (NmdcHub U) :=
  match find [byte ' '] param i with
  | none => some h
  | some j => do
    let ctx ← substr param i param.length
    -- the search for the end of the name begins at the start of the line again
    match find [byte '$'] param 0 with
    | none => return h
    | some k =>
      let name ← replaceAll (str "/") (str "//") (← unescape (← substr param (j + 1) (distance (j + 1) k)))
      let name ← replaceAll (str "\\") (str "/") name
      let command ← unescape (← substr param (k + 1) (distance (k + 1) param.length))
      return h.fire (.hubUserCommand type (toInt ctx) name command)

def onUserCommand (h : NmdcHub U) (param : Bytes) : Option (NmdcHub U) :=
  match find [byte ' '] param 0 with
  | none => some h
  | some j => do
    let type := toInt (← substr param 0 j)
    if type = 0 ∨ type = 255 then
      return h.fire (.hubUserCommand type (toInt (← substr param (j + 1) param.length)) [] [])
    else if type = 1 ∨ type = 2 then h.rawCommand type param (j + 1)
    else return h

/-- What the client supports. -/
def features : List Bytes :=
  ["UserCommand", "NoGetINFO", "NoHello", "UserIP2", "TTHSearch", "ZPipe0", "SaltPass", "BotList"].map str ++
    if env.tlsOk then [str "TLS"] else []

/-- The lock ends before ` Pk=`, or before a space. -/
def lockOf (param : Bytes) : Option Bytes :=
  match find (str " Pk=") param 0 with
  | some j => do
    let lock ← substr param 0 j
    let _pk ← substr param (j + 4) param.length
    return lock
  | none =>
    match find [byte ' '] param 0 with
    | some j => substr param 0 j
    | none => some param

def onLock (h : NmdcHub U) (aLine : Bytes) : Option (NmdcHub U) :=
  if h.state ≠ .PROTOCOL then some h
  else do
    let h := { h with state := .IDENTIFY }
    let param ← substr aLine 6 aLine.length
    if param = [] then return h
    else
      let lock ← lockOf param
      let h := if CryptoManager.isExtended lock then h.supports (features env) else h
      let (h, ou) := (h.key (CryptoManager.makeKey lock)).getUser env env.getNick
      return h.validateNick env (ou.identity.get "NI")

def onHello (h : NmdcHub U) (param : Bytes) : NmdcHub U :=
  if param = [] then h
  else
    let (h, u) := h.getUser env param
    let isMe := u.identity.user = h.myIdentity.user
    let h := if isMe then h.setPassive u.identity.user !env.isActive else h
    let h :=
      if h.state = .IDENTIFY ∧ isMe then
        ((({ h with state := .NORMAL }.fire .updateCounts).send (str "$Version 1,0091|")).send
          (str "$GetNickList|")).fire (.myInfo true)
      else h
    h.updated env [u.key]

/-- The address of a user, and the user among the ones that change. -/
def userIP (s : NmdcHub U × List Bytes) (it : Bytes) : Option (NmdcHub U × List Bytes) :=
  match find [byte ' '] it 0 with
  | none => some s
  | some j =>
    if j + 1 = it.length then some s
    else do
      match s.1.findUser env (← substr it 0 j) with
      | none => return s
      | some u =>
        let u : OnlineUser U := ⟨u.key, u.identity.set "I4" (← substr it (j + 1) it.length)⟩
        let h := s.1.setIdentity u
        let h :=
          if u.identity.user = h.myIdentity.user then
            { h.setMyIdentity u.identity with localIp := env.detectIp u.identity }
          else h
        return (h, s.2 ++ [u.key])

def onUserIP (h : NmdcHub U) (param : Bytes) : Option (NmdcHub U) :=
  if param = [] then some h
  else do
    let (h, v) ← (← getTokens param (str "$$")).foldlM (userIP env) (h, [])
    return h.updated env v

/-- The users with some nicks. -/
def getUsers (h : NmdcHub U) (nicks : List Bytes) : NmdcHub U × List (OnlineUser U) :=
  nicks.foldl (fun s it =>
    if it = [] then s
    else
      let (h, u) := s.1.getUser env it
      (h, s.2 ++ [u])) (h, [])

def onNickList (h : NmdcHub U) (param : Bytes) : Option (NmdcHub U) :=
  if param = [] then some h
  else do
    let (h, v) := h.getUsers env (← getTokens param (str "$$"))
    let n := str " " ++ fromUtf8 env h.getMyNick ++ str "|"
    let tmp := v.flatMap fun i => str "$GetINFO " ++ fromUtf8 env (i.identity.get "NI") ++ n
    let h := if h.supportFlags &&& SUPPORTS_NOGETINFO = 0 ∧ tmp ≠ [] then h.send tmp else h
    return h.updated env (v.map OnlineUser.key)

/-- The users with some nicks get a flag. -/
def flagUsers (h : NmdcHub U) (name : String) (nicks : List Bytes) : NmdcHub U × List Bytes :=
  nicks.foldl (fun s it =>
    if it = [] then s
    else
      let (h, ou) := s.1.getUser env it
      let ou : OnlineUser U := ⟨ou.key, ou.identity.setBool name true⟩
      ((h.setIdentity ou).setIfMine ou, s.2 ++ [ou.key])) (h, [])

def onOpList (h : NmdcHub U) (param : Bytes) : Option (NmdcHub U) :=
  if param = [] then some h
  else do
    let (h, v) := h.flagUsers env "OP" (← getTokens param (str "$$"))
    return ((h.updated env v).fire .updateCounts).fire (.myInfo false)

def onBotList (h : NmdcHub U) (param : Bytes) : Option (NmdcHub U) :=
  if param = [] then some h
  else do
    let (h, v) := h.flagUsers env "BO" (← getTokens param (str "$$"))
    return h.updated env v

/-- A private message between two nicks. -/
def privateChat (h : NmdcHub U) (rtNick fromNick message : Bytes) : Option (NmdcHub U) :=
  let «from» := h.findUser env fromNick
  if «from».any fun u => u.identity.ignoreChat then some h
  else do
    let (h, replyTo) := (h.findUser env rtNick).elim (h.hubUser env rtNick) fun u => (h, u)
    let (h, «from») := «from».elim (h.hubUser env fromNick) fun u => (h, u)
    let chatMessage ← unescape message
    if env.chatPmIn chatMessage then return h
    else
      let (h, «to») := h.getUser env h.getMyNick
      return h.fire (.privateMessage chatMessage «from».key «to».key replyTo.key)

def onTo (h : NmdcHub U) (param : Bytes) : Option (NmdcHub U) :=
  match find (str "From:") param 0 with
  | none => some h
  | some i =>
    match find [byte '$'] param (i + 6) with
    | none => some h
    | some j => do
      let rtNick ← substr param (i + 6) (distance (i + 7) j)
      if rtNick = [] then return h
      else if param.length < j + 4 then return h
      else if (← charAt param (j + 1)) ≠ byte '<' then return h
      else
        match find [byte '>'] param (j + 1) with
        | none => return h
        | some k =>
          let fromNick ← substr param (j + 2) (distance (j + 2) k)
          if fromNick = [] then return h
          else if param.length < k + 2 then return h
          else h.privateChat env rtNick fromNick (← substr param (k + 2) param.length)

def onGetPass (h : NmdcHub U) (param : Bytes) : NmdcHub U :=
  let (h, ou) := h.getUser env h.getMyNick
  let ou : OnlineUser U := ⟨ou.key, ou.identity.set "RG" (str "1")⟩
  { (h.setIdentity ou).setMyIdentity ou.identity with salt := param }.fire .getPassword

/-- A command with its parameters; `$Lock` and `$SR` take the line as it came. -/
def onCommand (h : NmdcHub U) (aLine cmd param : Bytes) : Option (NmdcHub U) :=
  if cmd = str "$Search" then h.onSearch env param
  else if cmd = str "$MyINFO" then h.onMyInfo env param
  else if cmd = str "$Quit" then some (h.onQuit env param)
  else if cmd = str "$ConnectToMe" then h.onConnectToMe env param
  else if cmd = str "$RevConnectToMe" then h.onRevConnectToMe env param
  else if cmd = str "$SR" then h.onResult env aLine
  else if cmd = str "$HubName" then h.onHubName param
  else if cmd = str "$Supports" then h.onSupports param
  else if cmd = str "$UserCommand" then h.onUserCommand param
  else if cmd = str "$Lock" then h.onLock env aLine
  else if cmd = str "$Hello" then some (h.onHello env param)
  else if cmd = str "$ForceMove" then some ((h.fire .disconnect).fire (.redirect param))
  else if cmd = str "$HubIsFull" then some (h.fire .hubFull)
  else if cmd = str "$ValidateDenide" then some ((h.fire .disconnect).fire .nickTaken)
  else if cmd = str "$UserIP" then h.onUserIP env param
  else if cmd = str "$NickList" then h.onNickList env param
  else if cmd = str "$OpList" then h.onOpList env param
  else if cmd = str "$BotList" then h.onBotList env param
  else if cmd = str "$To:" then h.onTo env param
  else if cmd = str "$GetPass" then some (h.onGetPass env param)
  else if cmd = str "$BadPass" then some { h with password := [] }
  else if cmd = str "$ZOn" then some (h.fire .zpipe)
  else some h

/-- The command word, and the parameters behind the first space. -/
def splitLine (aLine : Bytes) : Option (Bytes × Bytes) :=
  match find [byte ' '] aLine 0 with
  | none => some (aLine, [])
  | some x => do
    return (← substr aLine 0 x, toUtf8 env (← substr aLine (x + 1) aLine.length))

/-- A line of the hub. There is no result where an index or a cut is out of range. -/
def onLine (h : NmdcHub U) (aLine : Bytes) : Option (NmdcHub U) :=
  if aLine = [] then some h
  else if aLine.headD 0 ≠ byte '$' then h.onChat env aLine
  else do
    let (cmd, param) ← splitLine env aLine
    h.onCommand env aLine cmd param

end NmdcHub

end Dcpp
