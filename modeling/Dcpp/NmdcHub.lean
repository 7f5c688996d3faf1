import Dcpp.FindSubString
import Dcpp.Library.Deltas
import Dcpp.ResultLines
import Dcpp.ValidateMessage

-- An NMDC hub with its users.
namespace Dcpp

namespace CryptoManager

def isExtended (aLock : Bytes) : Bool := str "EXTENDEDPROTOCOL" <+: aLock

def isExtra (b : UInt8) : Bool := b ∈ ([0, 5, 36, 96, 124, 126] : Bytes)

def keySubst (aKey : Bytes) : Bytes :=
  aKey.flatMap fun b =>
    if isExtra b then
      let digits := Util.digits b.toNat
      str "/%DCN" ++ (List.replicate (3 - digits.length) (byte '0') ++ digits) ++ str "%/"
    else [b]

def makeKey (aLock : Bytes) : Bytes :=
  let swap (v : UInt8) : UInt8 := (v >>> 4) ||| (v <<< 4)
  if aLock.length < 3 then []
  else
    let rest := List.zipWith (fun a b => swap (b ^^^ a)) aLock aLock.tail
    keySubst ((swap (aLock.headD 0 ^^^ 5) ^^^ rest.getLastD 0) :: rest)

end CryptoManager

/-- An identity; `user` is the user that it belongs to. -/
structure Identity (U : Type) where
  user : U
  info : Bytes → Option Bytes
  ignoreChat : Bool

namespace Identity

variable {U : Type}

def get (id : Identity U) (name : String) : Bytes := (id.info (str name)).getD []

def set (id : Identity U) (name : String) (val : Bytes) : Identity U :=
  { id with info := Deltas.put [] id.info (str name, val) }

/-- `setHub`, `setHidden`, `setBot` and `setOp`. -/
def setBool (id : Identity U) (name : String) (b : Bool) : Identity U := id.set name (if b then str "1" else [])

def isSet (id : Identity U) (name : String) : Bool := (id.info (str name)).isSome

def isClientType (id : Identity U) (ct : BitVec 32) : Bool := BitVec.ofInt 32 (Util.toInt (id.get "CT")) &&& ct = ct

def CT_HIDDEN : BitVec 32 := 64

def isHidden (id : Identity U) : Bool := id.isClientType CT_HIDDEN || id.isSet "HI"

/-- Whether the status has the flag `TLS`. -/
def hasTLS (id : Identity U) : Bool := BitVec.ofInt 32 (Util.toInt (id.get "ST")) &&& 0x10 ≠ 0

end Identity

/-- A user of the hub under its key. -/
structure OnlineUser (U : Type) where
  key : Bytes
  identity : Identity U

namespace NmdcHub

open Edit

inductive State where
  | CONNECTING
  | PROTOCOL
  | IDENTIFY
  | VERIFY
  | NORMAL
  | DISCONNECTED
deriving DecidableEq

/-- What the hub fires, sends or asks of the other managers; users go by their keys. -/
inductive Event (U : Type) where
  | send (aMessage : Bytes)
  | statusMessage (line : Bytes) (spam : Bool)
  | message (text «from» : Bytes)
  | privateMessage (text «from» «to» replyTo : Bytes)
  | searchFlood (seeker : Bytes)
  | nmdcSearch (seeker : Bytes) (aSearchType : ShareManager.SearchManager.SizeModes) (aSize aFileType : Int)
      (aString : Bytes)
  | searchResult (result : SearchManager.FiredResult U)
  | updated (users : List Bytes)
  | userRemoved (user : Bytes)
  | putOnline (user : Bytes)
  | putOffline (user : Bytes)
  | nmdcExpect (aNick : Bytes)
  | nmdcConnect (aServer aPort aNick : Bytes) (secure : Bool)
  | hubUpdated
  | hubUserCommand (type ctx : Int) (name command : Bytes)
  | updateCounts
  | myInfo (alwaysSend : Bool)
  | disconnect
  | redirect (address : Bytes)
  | hubFull
  | nickTaken
  | getPassword
  | zpipe
deriving DecidableEq

end NmdcHub

/-- A hub. The flags of the users belong to `ClientManager`, and `fired` is what it has fired, in order. -/
structure NmdcHub (U : Type) where
  state : NmdcHub.State
  users : List (OnlineUser U)
  passive : U → Bool
  tls : U → Bool
  myIdentity : Identity U
  hubNick : Bytes
  hubDescription : Bytes
  supportFlags : Nat
  localIp : Bytes
  salt : Bytes
  password : Bytes
  autoReconnect : Bool
  seekers : List (Bytes × UInt32)
  flooders : List (Bytes × UInt32)
  protectedIPs : List Bytes
  fired : List (NmdcHub.Event U)

namespace NmdcHub

open Edit

/-- The settings and the rest of the program; `getNick` is the nick of the settings. -/
structure Environment (U : Type) where
  locale : Util.Locale
  clients : SearchManager.Clients U
  fromUtf8 : Bytes → Bytes → Bytes
  encoding : Bytes
  getNick : Bytes
  getMe : U
  getUser : Bytes → U
  ignoresChat : Identity U → Bool
  isActive : Bool
  searchPort : Bytes
  port : Bytes
  securePort : Bytes
  nmdcTls : Bool
  tlsOk : Bool
  resolve : Bytes → Bytes
  detectIp : Identity U → Bytes
  tick : UInt64
  chatIn : Bytes → Bool
  chatPmIn : Bytes → Bool

variable {U : Type} [DecidableEq U] (env : Environment U)

def toUtf8 (s : Bytes) : Bytes :=
  if Text.validateUtf8 env.locale.wcharBits s then s else env.clients.toUtf8 s env.encoding

def fromUtf8 (s : Bytes) : Bytes := env.fromUtf8 s env.encoding

def escape (s : Bytes) : Option Bytes := validateMessage s false

def unescape (s : Bytes) : Option Bytes := validateMessage s true

/-- `s[i]` of a string; a NUL follows its last character. -/
def charAt (s : Bytes) (i : Nat) : Option UInt8 := if i ≤ s.length then some (s.getD i 0) else none

def fire (h : NmdcHub U) (e : Event U) : NmdcHub U := { h with fired := h.fired ++ [e] }

def send (h : NmdcHub U) (aMessage : Bytes) : NmdcHub U := h.fire (.send aMessage)

def getMyNick (h : NmdcHub U) : Bytes := h.myIdentity.get "NI"

def findUser (h : NmdcHub U) (aNick : Bytes) : Option (OnlineUser U) :=
  h.users.find? fun u => Util.noCaseStringEq env.locale u.key aNick

/-- A user of the hub gets another identity. -/
def setIdentity (h : NmdcHub U) (u : OnlineUser U) : NmdcHub U :=
  { h with users := h.users.map fun v => if v.key = u.key then u else v }

def setMyIdentity (h : NmdcHub U) (myIdentity : Identity U) : NmdcHub U := { h with myIdentity }

/-- An identity of the own user is also that of the client. -/
def setIfMine (h : NmdcHub U) (u : OnlineUser U) : NmdcHub U :=
  if u.identity.user = h.myIdentity.user then h.setMyIdentity u.identity else h

/-- The user with a nick, which may be new. -/
def getUser (h : NmdcHub U) (aNick : Bytes) : NmdcHub U × OnlineUser U :=
  match h.findUser env aNick with
  | some u => (h, u)
  | none =>
    let p := if aNick = env.getNick then env.getMe else env.getUser aNick
    let u : OnlineUser U := ⟨aNick, (Identity.mk p (fun _ => none) false).set "NI" aNick⟩
    (({ h with users := h.users ++ [u] }.setIfMine u).fire (.putOnline aNick), u)

def putUser (h : NmdcHub U) (aNick : Bytes) : NmdcHub U :=
  match h.findUser env aNick with
  | none => h
  | some u => { h with users := h.users.filter fun v => v.key ≠ u.key }.fire (.putOffline u.key)

/-- `updated`, which also matches the users against the rules for their chat. -/
def updated (h : NmdcHub U) (us : List Bytes) : NmdcHub U :=
  let matched (v : OnlineUser U) : OnlineUser U :=
    if v.key ∈ us then ⟨v.key, { v.identity with ignoreChat := env.ignoresChat v.identity }⟩ else v
  { h with users := h.users.map matched }.fire (.updated us)

def setPassive (h : NmdcHub U) (p : U) (b : Bool) : NmdcHub U := { h with passive := Function.update h.passive p b }

def setTLS (h : NmdcHub U) (p : U) (b : Bool) : NmdcHub U := { h with tls := Function.update h.tls p b }

/-- A user of whom nothing is known is taken to be the hub. -/
def hubUser (h : NmdcHub U) (aNick : Bytes) : NmdcHub U × OnlineUser U :=
  let (h, o) := h.getUser env aNick
  let o : OnlineUser U := ⟨o.key, (o.identity.setBool "HU" true).setBool "HI" true⟩
  ((h.setIdentity o).updated env [o.key], o)

/-- What is older than `window` is taken out at the front; the clock has more bits than the list keeps. -/
def clearOld (window : UInt32) (tick : UInt64) (m : List (Bytes × UInt32)) : List (Bytes × UInt32) :=
  m.dropWhile fun x => (x.2 + window).toUInt64 < tick

def clearFlooders (h : NmdcHub U) (aTick : UInt64) : NmdcHub U :=
  { h with seekers := clearOld (5 * 1000) aTick h.seekers, flooders := clearOld (120 * 1000) aTick h.flooders }

/-- Whether the address is one that hubs must not spam, which is reported. -/
def isProtectedIP (h : NmdcHub U) (ip : Bytes) : Bool × NmdcHub U :=
  if ip ∈ h.protectedIPs then
    (true, h.fire (.statusMessage (str "This hub is trying to use your client to spam " ++ ip ++
      str ", please urge hub owner to fix this") false))
  else (false, h)

def connectToMe (h : NmdcHub U) (u : OnlineUser U) : NmdcHub U :=
  if h.state ≠ .NORMAL then h
  else
    let nick := fromUtf8 env (u.identity.get "NI")
    let secure := env.nmdcTls && env.tlsOk && h.tls u.identity.user
    let port := if secure then env.securePort else env.port
    if port = [] then h
    else (h.fire (.nmdcExpect nick)).send (str "$ConnectToMe " ++ nick ++ str " " ++ h.localIp ++ str ":" ++ port ++
      (if secure then str "S" else []) ++ str "|")

def revConnectToMe (h : NmdcHub U) (u : OnlineUser U) : NmdcHub U :=
  if h.state ≠ .NORMAL then h
  else h.send (str "$RevConnectToMe " ++ fromUtf8 env h.getMyNick ++ str " " ++ fromUtf8 env (u.identity.get "NI") ++
    str "|")

def supports (h : NmdcHub U) (feat : List Bytes) : NmdcHub U :=
  h.send (str "$Supports " ++ (feat.flatMap fun i => i ++ str " ") ++ str "|")

def key (h : NmdcHub U) (aKey : Bytes) : NmdcHub U := h.send (str "$Key " ++ aKey ++ str "|")

def validateNick (h : NmdcHub U) (aNick : Bytes) : NmdcHub U :=
  h.send (str "$ValidateNick " ++ fromUtf8 env aNick ++ str "|")

end NmdcHub

end Dcpp
