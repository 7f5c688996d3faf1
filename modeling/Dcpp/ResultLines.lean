import Dcpp.DecodeUrl
import Dcpp.ShareSearch

-- The search results that come over the network.
namespace Dcpp.SearchManager

open Edit Util ShareManager

/-- What the line of a result says. -/
structure SRLine where
  nick : Bytes
  type : Types
  file : Bytes
  size : Int
  freeSlots : Int
  slots : Int
  hubName : Bytes
  ipPort : Bytes
deriving DecidableEq

/-- A result as it is fired; `U` are the users. -/
structure FiredResult (U : Type) where
  user : U
  hint : Bytes
  type : Types
  slots : Int
  freeSlots : Int
  size : Int
  file : Bytes
  hubName : Bytes
  ip : Bytes
  tth : Encoder.HashValue
  token : Bytes
deriving DecidableEq

/-- What `ClientManager` knows of the hubs and of their users, and the conversion from an encoding. -/
structure Clients (U : Type) where
  findHub : Bytes → Bytes
  findLegacyUser : Bytes → Option (U × Bytes)
  findHubEncoding : Bytes → Bytes
  findUser : Bytes → Bytes → Option U
  hubNames : U → Bytes
  findUniqueId : Nat → Option Bytes
  toUtf8 : Bytes → Bytes → Bytes

/-- The file with its size, and the place behind which the slots begin; `none` when the line is dropped. A file
has two 0x05, a directory only one. -/
def srFile (x : Bytes) (j : Nat) : Option (Option (Types × Bytes × Int × Nat)) :=
  let cnt := (x.drop j).count 0x05
  if cnt = 1 then
    match (rfind 0x05 x x.length).bind fun k => rfind (byte ' ') x (k - 1) with
    | none => some none
    | some k =>
      if k < j + 2 then some none
      else do
        let file ← substr x (j + 1) (distance (j + 1) k)
        return some (.TYPE_DIRECTORY, file ++ str "\\", 0, k)
  else if cnt = 2 then
    match find [0x05] x (j + 1) with
    | none => some none
    | some k => do
      let file ← substr x (j + 1) (distance (j + 1) k)
      match find [byte ' '] x (k + 1) with
      | none => return none
      | some m =>
        let size ← substr x (k + 1) (distance (k + 1) m)
        return some (.TYPE_FILE, file, toInt64 size, m)
  else some (some (.TYPE_FILE, [], 0, j))

/-- The slots, the name of the hub and its address. -/
def srRest (x nick : Bytes) (f : Types × Bytes × Int × Nat) : Option (Option SRLine) :=
  match find [byte '/'] x (f.2.2.2 + 1) with
  | none => some none
  | some j => do
    let freeSlots ← substr x (f.2.2.2 + 1) (distance (f.2.2.2 + 1) j)
    match find [0x05] x (j + 1) with
    | none => return none
    | some k =>
      let slots ← substr x (j + 1) (distance (j + 1) k)
      match lastIndexOf (str " (") x with
      | none => return none
      | some m =>
        let hubName ← substr x (k + 1) (distance (k + 1) m)
        match rfind (byte ')') x x.length with
        | none => return none
        | some n =>
          let ipPort ← substr x (m + 2) (distance (m + 2) n)
          return some ⟨nick, f.1, f.2.1, f.2.2.1, toInt freeSlots, toInt slots, hubName, ipPort⟩

/-- What `onSR` cuts out of a line: there is no result where a cut is out of range, and `some none` where the line is
dropped. -/
def parseSR (x : Bytes) : Option (Option SRLine) :=
  match find [byte ' '] x 4 with
  | none => some none
  | some j => do
    let nick ← substr x 4 (distance 4 j)
    match ← srFile x j with
    | none => return none
    | some r => srRest x nick r

variable {U : Type} (c : Clients U)

/-- The user with the URL of its hub; the hub may have several URLs. -/
def srUser (nick ipPort : Bytes) : Option (U × Bytes × Bytes) :=
  let hint := c.findHub ipPort
  if hint = [] then
    (c.findLegacyUser nick).map fun u => (u.1, u.2, c.findHubEncoding u.2)
  else
    let encoding := c.findHubEncoding hint
    (c.findUser (c.toUtf8 nick encoding) hint).map fun u => (u, hint, encoding)

/-- The result that a line is fired as. -/
def srResult (remoteIp : Bytes) (r : SRLine) : Option (FiredResult U) :=
  match srUser c r.nick r.ipPort with
  | none => none
  | some (user, hint, encoding) =>
    let hubName := c.toUtf8 r.hubName encoding
    let hasTTH := str "TTH:" <+: hubName
    let tth := if hasTTH then hubName.drop 4 else []
    if tth = [] ∧ r.type = .TYPE_FILE then none
    else some ⟨user, hint, r.type, r.slots, r.freeSlots, r.size, c.toUtf8 r.file encoding,
      if hasTTH then c.hubNames user else hubName, remoteIp, Encoder.HashValue.ofBase32 tth, []⟩

def onSR (x remoteIp : Bytes) : Option (Option (FiredResult U)) :=
  (parseSR x).map fun r => r.bind (srResult c remoteIp)

/-- The slots begin in the line. -/
theorem srFile_spec {x : Bytes} {j : Nat} (hj : j < x.length) :
    ∃ r, srFile x j = some r ∧ ∀ f ∈ r, f.2.2.2 < x.length := by
  rw [srFile]
  split
  next =>
    split
    next => exact ⟨none, rfl, fun _ h => by cases h⟩
    next k hk =>
      obtain ⟨_, -, hk⟩ := Option.bind_eq_some_iff.mp hk
      split
      next => exact ⟨none, rfl, fun _ h => by cases h⟩
      next =>
        rw [substr_of_le (Nat.succ_le_of_lt hj)]
        exact ⟨_, rfl, fun _ h => (Option.some_inj.mp h) ▸ (le_of_rfind hk).2⟩
  next =>
    split
    next =>
      split
      next => exact ⟨none, rfl, fun _ h => by cases h⟩
      next k hk =>
        rw [substr_of_le (Nat.succ_le_of_lt hj)]
        simp only [Option.bind_eq_bind, Option.bind_some]
        split
        next => exact ⟨none, rfl, fun _ h => by cases h⟩
        next m hm =>
          rw [substr_of_le (find_lt hk).2]
          exact ⟨_, rfl, fun _ h => (Option.some_inj.mp h) ▸ (find_lt hm).2⟩
    next => exact ⟨_, rfl, fun _ h => (Option.some_inj.mp h) ▸ hj⟩

theorem srRest_isSome {x : Bytes} (nick : Bytes) {f : Types × Bytes × Int × Nat} (hf : f.2.2.2 < x.length) :
    (srRest x nick f).isSome := by
  rw [srRest]
  split
  next => rfl
  next k hk =>
    refine isSome_substr_bind hf fun _ => ?_
    split
    next => rfl
    next m hm =>
      refine isSome_substr_bind (find_lt hk).2 fun _ => ?_
      split
      next => rfl
      next n hn =>
        refine isSome_substr_bind (find_lt hm).2 fun _ => ?_
        split
        next => rfl
        next => exact isSome_substr_bind (lastIndexOf_bounds hn) fun _ => rfl

/-- Every cut of a line is in range. -/
theorem parseSR_isSome (x : Bytes) : (parseSR x).isSome := by
  rw [parseSR]
  split
  next => rfl
  next j hj =>
    obtain ⟨hle, hlt⟩ := find_lt hj
    obtain ⟨r, hr, hbound⟩ := srFile_spec hlt
    refine isSome_substr_bind (hle.trans hlt.le) fun nick => ?_
    rw [hr]
    cases r with
    | none => rfl
    | some f => exact srRest_isSome nick (hbound f rfl)

theorem onSR_isSome (x remoteIp : Bytes) : (onSR c x remoteIp).isSome := by
  rw [onSR, Option.isSome_map]
  exact parseSR_isSome x

end Dcpp.SearchManager
