import Mathlib.Data.List.Nodup
import Dcpp.AdcCommand
import Dcpp.Encoder
import Dcpp.Library.Deltas
import Dcpp.Library.Runs

-- The users of an ADC hub.
namespace Dcpp.AdcHub

open Encoder

/-- A user with the fields of its identity. -/
structure OnlineUser where
  cid : HashValue
  info : Bytes → Option Bytes

/-- The users by their SIDs. The map of the source is not in an order, nor is the list. -/
abbrev Users := List (UInt32 × OnlineUser)

/-- `CID()`. -/
def noCID : HashValue := ⟨List.replicate BYTES 0, rfl⟩

def findUser (aSID : UInt32) (users : Users) : Option OnlineUser := (users.find? fun i => i.1 = aSID).map Prod.snd

/-- The user with a CID, with its SID. -/
def findCID (aCID : HashValue) (users : Users) : Option (UInt32 × OnlineUser) := users.find? fun i => i.2.cid = aCID

def getUser (aSID : UInt32) (aCID : HashValue) (users : Users) : Users :=
  if (findUser aSID users).isSome then users else users ++ [(aSID, ⟨aCID, fun _ => none⟩)]

def putUser (aSID : UInt32) (users : Users) : Users := users.filter fun i => i.1 ≠ aSID

/-- `Identity::set`, for every parameter that has a name. -/
def setParams (parameters : List Bytes) (u : OnlineUser) : OnlineUser :=
  let named := parameters.filter fun i => 2 ≤ i.length
  { u with info := named.foldl (fun info i => Deltas.put [] info (i.take 2, i.drop 2)) u.info }

/-- The user that an INF is about: its SID, and the users with it. -/
def infUser (c : AdcCommand) (users : Users) : Option (UInt32 × Users) :=
  match c.getParam (str "ID") 0 with
  | some cid =>
    match findCID (HashValue.ofBase32 cid) users with
    | some (sid, _) => if sid ≠ c.from then none else some (sid, users)
    | none => some (c.from, getUser c.from (HashValue.ofBase32 cid) users)
  | none =>
    if c.from = AdcCommand.HUB_SID then some (c.from, getUser c.from noCID users)
    else if (findUser c.from users).isSome then some (c.from, users)
    else none

def handleINF (c : AdcCommand) (users : Users) : Users :=
  if c.parameters = [] then users
  else
    match infUser c users with
    | none => users
    | some (sid, users) => users.map fun i => if i.1 = sid then (i.1, setParams c.parameters i.2) else i

def handleQUI (c : AdcCommand) (users : Users) : Users := putUser (AdcCommand.toSID (c.parameters.headD [])) users

def handleSTA (c : AdcCommand) (users : Users) : Users :=
  if c.parameters.length < 2 then users
  else if c.from = AdcCommand.HUB_SID then getUser c.from noCID users
  else users

inductive Message where
  | INF (c : AdcCommand)
  | QUI (c : AdcCommand)
  | STA (c : AdcCommand)

def handle (users : Users) : Message → Users
  | .INF c => handleINF c users
  | .QUI c => handleQUI c users
  | .STA c => handleSTA c users

/-- An INF with the SID of a user, and with its CID or with none. -/
def IsOwn (i : UInt32 × OnlineUser) : Message → Prop
  | .INF c => c.from = i.1 ∧ ∀ cid, c.getParam (str "ID") 0 = some cid → HashValue.ofBase32 cid = i.2.cid
  | _ => False

/-- A message changes a user only if it is its own INF, and no two users have one CID. -/
structure Right (users : Users) (m : Message) : Prop where
  own : ∀ sid u u', (sid, u) ∈ users → (sid, u') ∈ handle users m → u' ≠ u → IsOwn (sid, u) m
  cids : ∀ i ∈ handle users m, ∀ j ∈ handle users m, i.2.cid = j.2.cid → i = j

/-- The hub gets an entry without a CID only if no user has it. -/
def HubFree (users : Users) : Prop :=
  findUser AdcCommand.HUB_SID users = none → findCID noCID users = none

/-- The condition on a message: a new CID comes with a new SID. -/
def Meets (users : Users) : Message → Prop
  | .INF c =>
    match c.getParam (str "ID") 0 with
    | some cid => findCID (HashValue.ofBase32 cid) users = none → findUser c.from users = none
    | none => c.parameters ≠ [] → c.from = AdcCommand.HUB_SID → HubFree users
  | .QUI _ => True
  | .STA c => 2 ≤ c.parameters.length → c.from = AdcCommand.HUB_SID → HubFree users

/-- Every SID and every CID is there once. -/
structure Distinct (users : Users) : Prop where
  sids : (users.map Prod.fst).Nodup
  cids : (users.map fun i => i.2.cid).Nodup

theorem findUser_eq_none {aSID : UInt32} {users : Users} : findUser aSID users = none ↔ ∀ i ∈ users, i.1 ≠ aSID := by
  rw [findUser, Option.map_eq_none_iff, List.find?_eq_none]
  simp only [decide_eq_true_eq]

theorem findCID_eq_none {aCID : HashValue} {users : Users} :
    findCID aCID users = none ↔ ∀ i ∈ users, i.2.cid ≠ aCID := by
  rw [findCID, List.find?_eq_none]
  simp only [decide_eq_true_eq]

theorem findCID_some {aCID : HashValue} {users : Users} {i : UInt32 × OnlineUser} (h : findCID aCID users = some i) :
    i ∈ users ∧ i.2.cid = aCID := by
  rw [findCID] at h
  have hcid := List.find?_some h
  exact ⟨List.mem_of_find?_eq_some h, of_decide_eq_true hcid⟩

theorem Distinct.sublist {users users' : Users} (h : Distinct users) (hs : users'.Sublist users) : Distinct users' :=
  ⟨(hs.map Prod.fst).nodup h.sids, (hs.map fun i => i.2.cid).nodup h.cids⟩

/-- A user with a new SID has to have a new CID. -/
theorem Distinct.getUser {users : Users} (h : Distinct users) {aSID : UInt32} {aCID : HashValue}
    (hcid : findUser aSID users = none → findCID aCID users = none) : Distinct (getUser aSID aCID users) := by
  rw [AdcHub.getUser]
  split
  next => exact h
  next hsome =>
    have hnone := Option.not_isSome_iff_eq_none.mp hsome
    have hsid := findUser_eq_none.mp hnone
    have hcid := findCID_eq_none.mp (hcid hnone)
    constructor
    · rw [List.map_append, List.map_singleton]
      refine List.nodup_append.mpr ⟨h.sids, List.nodup_singleton _, ?_⟩
      intro sid hmem sid' hsid' heq
      obtain ⟨i, hi, rfl⟩ := List.mem_map.mp hmem
      exact hsid i hi (heq.trans (List.mem_singleton.mp hsid'))
    · rw [List.map_append, List.map_singleton]
      refine List.nodup_append.mpr ⟨h.cids, List.nodup_singleton _, ?_⟩
      intro cid hmem cid' hcid' heq
      obtain ⟨i, hi, rfl⟩ := List.mem_map.mp hmem
      exact hcid i hi (heq.trans (List.mem_singleton.mp hcid'))

/-- What is found is there, so the users without it are those from before. -/
theorem mem_getUser {aSID : UInt32} {aCID : HashValue} {users : Users} {i : UInt32 × OnlineUser}
    (h : i ∈ getUser aSID aCID users) (hne : i.1 ≠ aSID) : i ∈ users := by
  rw [getUser] at h
  split at h
  next => exact h
  next =>
    obtain h | h := List.mem_append.mp h
    · exact h
    · exact absurd (congrArg Prod.fst (List.mem_singleton.mp h)) hne

theorem Distinct.eq_of_sid {users : Users} (h : Distinct users) {sid : UInt32} {u u' : OnlineUser}
    (hu : (sid, u) ∈ users) (hu' : (sid, u') ∈ users) : u = u' :=
  congrArg Prod.snd (List.inj_on_of_nodup_map h.sids hu hu' rfl)

/-- The parameters change neither a SID nor a CID. -/
theorem Distinct.setParams {users : Users} (h : Distinct users) (sid : UInt32) (parameters : List Bytes) :
    Distinct (users.map fun i => if i.1 = sid then (i.1, setParams parameters i.2) else i) := by
  have hsid : ∀ i : UInt32 × OnlineUser, (if i.1 = sid then (i.1, AdcHub.setParams parameters i.2) else i).1 = i.1 := by
    intro i
    split <;> rfl
  have hcid : ∀ i : UInt32 × OnlineUser,
      (if i.1 = sid then (i.1, AdcHub.setParams parameters i.2) else i).2.cid = i.2.cid := by
    intro i
    split <;> rfl
  constructor
  · rw [List.map_map]
    exact (List.map_congr_left fun i _ => hsid i) ▸ h.sids
  · rw [List.map_map]
    exact (List.map_congr_left fun i _ => hcid i) ▸ h.cids

/-- An INF is about the user with its SID, which is there before or new; the CID, if it has one, is that of the user. -/
theorem infUser_some {users users' : Users} {c : AdcCommand} {sid : UInt32} (h : Distinct users)
    (hm : Meets users (.INF c)) (hne : c.parameters ≠ []) (hu : infUser c users = some (sid, users')) :
    sid = c.from ∧ Distinct users' ∧ (∀ i ∈ users', i.1 ≠ c.from → i ∈ users) ∧
      ∀ u, (c.from, u) ∈ users → IsOwn (c.from, u) (.INF c) := by
  rw [infUser] at hu
  rw [Meets] at hm
  cases hid : c.getParam (str "ID") 0 with
  | some cid =>
    rw [hid] at hu hm
    dsimp only at hu hm
    have hown : ∀ u, HashValue.ofBase32 cid = u.cid → IsOwn (c.from, u) (.INF c) := by
      intro u heq
      refine ⟨rfl, fun cid' hcid' => ?_⟩
      rw [hid] at hcid'
      rw [← Option.some.inj hcid']
      exact heq
    split at hu
    next sid' u' hfind =>
      split at hu
      next => cases hu
      next heq =>
        rw [ne_eq, not_not] at heq
        cases hu
        refine ⟨heq, h, fun i hi _ => hi, fun u hmem => hown u ?_⟩
        obtain ⟨hmem', hcid⟩ := findCID_some hfind
        rw [h.eq_of_sid hmem (heq ▸ hmem'), hcid]
    next hfind =>
      cases hu
      have hnew := hm hfind
      exact ⟨rfl, h.getUser fun _ => hfind, fun i hi hne => mem_getUser hi hne,
        fun u hmem => absurd rfl (findUser_eq_none.mp hnew _ hmem)⟩
  | none =>
    rw [hid] at hu hm
    dsimp only at hu hm
    have hown : ∀ u, IsOwn (c.from, u) (.INF c) := fun u => ⟨rfl, fun cid' hcid' => by rw [hid] at hcid'; cases hcid'⟩
    split at hu
    next hhub =>
      cases hu
      refine ⟨rfl, h.getUser ?_, fun i hi hne => mem_getUser hi hne, fun u _ => hown u⟩
      rw [hhub]
      exact hm hne hhub
    next =>
      split at hu
      next =>
        cases hu
        exact ⟨rfl, h, fun i hi _ => hi, fun u _ => hown u⟩
      next => cases hu

theorem handle_distinct {users : Users} {m : Message} (h : Distinct users) (hm : Meets users m) :
    Distinct (handle users m) := by
  cases m with
  | INF c =>
    rw [handle, handleINF]
    split
    next => exact h
    next hne =>
      split
      next => exact h
      next sid users' hu =>
        obtain ⟨_, hd, _⟩ := infUser_some h hm hne hu
        exact hd.setParams sid c.parameters
  | QUI c => exact h.sublist List.filter_sublist
  | STA c =>
    rw [handle, handleSTA]
    split
    next => exact h
    next hlen =>
      split
      next hhub =>
        refine h.getUser ?_
        rw [hhub]
        exact hm (Nat.le_of_not_lt hlen) hhub
      next => exact h

/-- A user that is there before and after is changed only by its own INF. -/
theorem handle_own {users : Users} {m : Message} (h : Distinct users) (hm : Meets users m) {sid : UInt32}
    {u u' : OnlineUser} (hu : (sid, u) ∈ users) (hu' : (sid, u') ∈ handle users m) (hne : u' ≠ u) :
    IsOwn (sid, u) m := by
  have hsame : (sid, u') ∉ users := fun hmem => hne (h.eq_of_sid hmem hu)
  cases m with
  | INF c =>
    rw [handle, handleINF] at hu'
    split at hu'
    next => exact absurd hu' hsame
    next hparams =>
      split at hu'
      next => exact absurd hu' hsame
      next sid' users' hinf =>
        obtain ⟨rfl, _, hold, hown⟩ := infUser_some h hm hparams hinf
        obtain ⟨i, hi, heq⟩ := List.mem_map.mp hu'
        split at heq
        next hfrom =>
          obtain rfl : c.from = sid := hfrom.symm.trans (congrArg Prod.fst heq)
          exact hown u hu
        next hfrom => exact absurd (heq ▸ hold i hi hfrom) hsame
  | QUI c => exact absurd (List.mem_of_mem_filter hu') hsame
  | STA c =>
    rw [handle, handleSTA] at hu'
    split at hu'
    next => exact absurd hu' hsame
    next =>
      split at hu'
      next =>
        -- the entry of the hub is there, or it is new
        by_cases hfrom : sid = c.from
        · rw [getUser, if_pos] at hu'
          · exact absurd hu' hsame
          · rw [Option.isSome_iff_ne_none]
            exact fun hnone => findUser_eq_none.mp hnone _ hu hfrom
        · exact absurd (mem_getUser hu' hfrom) hsame
      next => exact absurd hu' hsame

/-- In a run in which every message meets the condition every message is right. -/
theorem run_right (messages : List Message) (h : Runs.Each (fun users m => some (handle users m)) Meets [] messages) :
    Runs.Each (fun users m => some (handle users m)) Right [] messages := by
  intro i hi users hrun
  have hd : Distinct users := by
    have hnil : Distinct [] := ⟨List.nodup_nil, List.nodup_nil⟩
    refine Runs.run_preserves ?_ hnil (Runs.each_take h i) hrun
    intro s m t hs hm ht
    exact Option.some.inj ht ▸ handle_distinct hs hm
  have hm := h i hi users hrun
  exact ⟨fun _ _ _ hu hu' hne => handle_own hd hm hu hu' hne,
    fun _ hi _ hj heq => List.inj_on_of_nodup_map (handle_distinct hd hm).cids hi hj heq⟩

/-- An INF of a user with a CID and a nick. -/
def infOf (sid : UInt32) (cid nick : String) : Message :=
  .INF ⟨(byte 'I', byte 'N', byte 'F'), .BROADCAST, sid, 0, [], [str ("ID" ++ cid), str ("NI" ++ nick)]⟩

theorem run_right_two :
    Runs.Each (fun users m => some (handle users m)) Right [] [infOf 1 "AE" "a", infOf 2 "AI" "b"] := by
  refine run_right _ (Runs.each_cons (fun _ => rfl) fun users h => ?_)
  obtain rfl := Option.some.inj h
  exact Runs.each_cons (fun _ => rfl) fun _ _ => Runs.each_nil _ _ _

/-- An INF with a new CID under the SID of a user changes the fields of that user. -/
theorem not_run_right :
    ¬ Runs.Each (fun users m => some (handle users m)) Right [] [infOf 1 "AE" "a", infOf 1 "AI" "b"] := by
  intro h
  have hright := h 1 (by decide) _ rfl
  let u := setParams [str "IDAE", str "NIa"] ⟨HashValue.ofBase32 (str "AE"), fun _ => none⟩
  have hne : setParams [str "IDAI", str "NIb"] u ≠ u := by
    intro heq
    have hat := congrFun (congrArg OnlineUser.info heq) (str "NI")
    revert hat
    decide +kernel
  have hown := hright.own 1 u _ (List.mem_singleton.mpr rfl) (List.mem_singleton.mpr rfl) hne
  have hcid : HashValue.ofBase32 (str "AI") = HashValue.ofBase32 (str "AE") := hown.2 (str "AI") rfl
  revert hcid
  decide +kernel

end Dcpp.AdcHub
