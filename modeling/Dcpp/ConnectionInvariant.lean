import Dcpp.ConnectionManager

namespace Dcpp.ConnectionManager

variable {U C : Type} [DecidableEq U]

/-- The connection stands for the item of a user. -/
def UserConnection.isAssociated (type : ConnectionType) (user : Option U) (uc : UserConnection U) : Bool :=
  uc.associated && (decide (uc.type = some type) && decide (uc.user = user))

/-- An item that keeps other connections away: every one but a download that is not active. -/
def ConnectionQueueItem.taken (type : ConnectionType) (cqi : ConnectionQueueItem U) : Bool :=
  decide (type ≠ .DOWNLOAD) || decide (cqi.state = .ACTIVE)

/-- Every item that is taken has exactly one connection, and every associated connection has its
item; so an item that no connection stands for lets the next connection have it. -/
structure Accounted (s : State U C) : Prop where
  one : ∀ type, ∀ cqi ∈ s.cqis type, cqi.taken type = true →
    (s.userConnections.filter (UserConnection.isAssociated type cqi.user)).length = 1
  item : ∀ uc ∈ s.userConnections, uc.associated = true →
    ∃ type, ∃ cqi ∈ s.cqis type, cqi.taken type = true ∧ uc.isAssociated type cqi.user = true
  free : ∀ type user, (∀ uc ∈ s.userConnections, uc.isAssociated type user = false) →
    ∀ cqi ∈ s.cqis type, cqi.user = user → cqi.taken type = false

/-- An associated connection sends no second INF that gets past the `ID`, and no second `$Key`. -/
def Meets (s : State U C) : Event U C → Prop
  | .connection id (.inf env cmd) => ∀ uc, findConnection s id = some uc → uc.associated = true →
    uc.state = .INF → (env.requireTls && !uc.nmdc && !uc.secure) = false ∧ cmd.getParam (str "ID") 0 = none
  | .connection id (.key _) => ∀ uc, findConnection s id = some uc → uc.associated = true → uc.state ≠ .KEY
  | _ => True

/-- The item of a user is there, and taken. -/
def held (cqis : ConnectionType → List (ConnectionQueueItem U)) (type : ConnectionType)
    (user : Option U) : Bool :=
  ((cqis type).find? fun cqi => cqi.user = user).any (ConnectionQueueItem.taken type)

/-- What the state of a connection tells of its flags. -/
def UserConnection.Staged (uc : UserConnection U) : Prop :=
  match uc.state with
  | .UNCONNECTED | .CONNECT | .SUPNICK =>
    uc.user = none ∧ uc.upload = false ∧ uc.download = false ∧ uc.associated = false
  | .INF => uc.associated = false → uc.upload = false ∧ uc.download = false
  | .LOCK | .DIRECTION => (uc.upload = true ∨ uc.download = true) ∧ uc.associated = false
  | .KEY => uc.upload = true ∨ uc.download = true
  | _ => True

structure UserConnection.Legal (uc : UserConnection U) : Prop where
  staged : uc.Staged
  typed : uc.associated = true → uc.type ≠ none

/-- One item for each user. -/
structure Items (cqis : ConnectionType → List (ConnectionQueueItem U)) : Prop where
  typed : ∀ type, ∀ cqi ∈ cqis type, cqi.type = type
  nodup : ∀ type, ((cqis type).map ConnectionQueueItem.user).Nodup

structure Inv (s : State U C) : Prop where
  ids : (s.userConnections.map UserConnection.id).Nodup
  fresh : ∀ uc ∈ s.userConnections, uc.id < s.nextId
  legal : ∀ uc ∈ s.userConnections, uc.Legal
  items : Items s.cqis
  count : ∀ type user, s.userConnections.countP (UserConnection.isAssociated type user) =
    if held s.cqis type user then 1 else 0

theorem start_inv : Inv (start : State U C) where
  ids := List.nodup_nil
  fresh := fun _ h => absurd h List.not_mem_nil
  legal := fun _ h => absurd h List.not_mem_nil
  items := ⟨fun _ _ h => absurd h List.not_mem_nil, fun _ => List.nodup_nil⟩
  count := fun _ _ => rfl

theorem held_of_mem {cqis : ConnectionType → List (ConnectionQueueItem U)} (h : Items cqis)
    {type : ConnectionType} {cqi : ConnectionQueueItem U} (hc : cqi ∈ cqis type) :
    held cqis type cqi.user = cqi.taken type := by
  rw [held, Keyed.find?_key (h.nodup type) hc]
  rfl

theorem Inv.held_of_type {s : State U C} (h : Inv s) {uc : UserConnection U} (huc : uc ∈ s.userConnections)
    (ha : uc.associated = true) {type : ConnectionType} (ht : uc.type = some type) :
    uc.isAssociated type uc.user = true ∧ held s.cqis type uc.user = true := by
  have hassoc : uc.isAssociated type uc.user = true := by
    simp [UserConnection.isAssociated, ha, ht]
  have hpos : 0 < s.userConnections.countP (UserConnection.isAssociated type uc.user) :=
    List.countP_pos_iff.mpr ⟨uc, huc, hassoc⟩
  rw [h.count] at hpos
  refine ⟨hassoc, ?_⟩
  by_contra hne
  rw [if_neg hne] at hpos
  exact Nat.lt_irrefl 0 hpos

theorem Inv.accounted {s : State U C} (h : Inv s) : Accounted s where
  one type cqi hc ht := by
    rw [← List.countP_eq_length_filter, h.count, held_of_mem h.items hc, ht]
    rfl
  item uc huc ha := by
    obtain ⟨type, ht⟩ := Option.ne_none_iff_exists'.mp ((h.legal uc huc).typed ha)
    obtain ⟨hassoc, hheld⟩ := h.held_of_type huc ha ht
    obtain ⟨cqi, hfind, htaken⟩ := (Option.any_eq_true _ _).mp hheld
    obtain ⟨hc, huser⟩ := Keyed.mem_of_find?_key hfind
    exact ⟨type, cqi, hc, htaken, huser ▸ hassoc⟩
  free type user hno cqi hc hu := by
    have hzero : s.userConnections.countP (UserConnection.isAssociated type user) = 0 :=
      List.countP_eq_zero.mpr fun uc huc => by simp [hno uc huc]
    rw [h.count, ← hu, held_of_mem h.items hc] at hzero
    by_contra hne
    rw [if_pos (eq_true_of_ne_false hne)] at hzero
    exact Nat.one_ne_zero hzero

section Items

variable {cqis : ConnectionType → List (ConnectionQueueItem U)}

omit [DecidableEq U] in
theorem Items.update (h : Items cqis) {type : ConnectionType} {l : List (ConnectionQueueItem U)}
    (ht : ∀ cqi ∈ l, cqi.type = type) (hnd : (l.map ConnectionQueueItem.user).Nodup) :
    Items (Function.update cqis type l) := by
  constructor <;> intro type'
  · by_cases hty : type' = type
    · subst hty
      rwa [Function.update_self]
    · rw [Function.update_of_ne hty]
      exact h.typed type'
  · by_cases hty : type' = type
    · subst hty
      rwa [Function.update_self]
    · rw [Function.update_of_ne hty]
      exact h.nodup type'

theorem held_update (type type' : ConnectionType) (user : Option U) (l : List (ConnectionQueueItem U)) :
    held (Function.update cqis type l) type' user =
      if type' = type then (l.find? fun cqi => cqi.user = user).any (ConnectionQueueItem.taken type)
      else held cqis type' user := by
  split
  next h =>
    subst h
    rw [held, Function.update_self]
  next h => rw [held, held, Function.update_of_ne h]

variable {s : State U C} {type : ConnectionType} {user : Option U}
  {f : ConnectionQueueItem U → ConnectionQueueItem U}

theorem items_setItem (h : Items s.cqis) (hu : ∀ cqi, (f cqi).user = cqi.user)
    (ht : ∀ cqi, (f cqi).type = cqi.type) : Items (setItem s type user f).cqis := by
  apply h.update
  · intro cqi hc
    obtain hc | ⟨cqi', hc', rfl⟩ := Keyed.mem_modifyFirst hc
    · exact h.typed type cqi hc
    · rw [ht]
      exact h.typed type cqi' hc'
  · rw [Keyed.map_modifyFirst fun cqi _ => hu cqi]
    exact h.nodup type

theorem held_setItem (hu : ∀ cqi, (f cqi).user = cqi.user) (type' : ConnectionType) (user' : Option U) :
    held (setItem s type user f).cqis type' user' =
      if type' = type ∧ user' = user then ((find s type user).map f).any (ConnectionQueueItem.taken type)
      else held s.cqis type' user' := by
  rw [setItem, held_update]
  by_cases ht : type' = type
  · subst ht
    rw [if_pos rfl]
    by_cases hu' : user' = user
    · subst hu'
      rw [if_pos ⟨rfl, rfl⟩, Keyed.find?_modifyFirst_self hu]
      rfl
    · rw [if_neg fun h => hu' h.2, Keyed.find?_modifyFirst_of_ne hu hu']
      rfl
  · rw [if_neg ht, if_neg fun h => ht h.1]

/-- A user without an item gets one. -/
theorem items_getCQI (h : Items s.cqis) (hfind : find s type user = none) (token : Bytes) :
    Items (getCQI s token user type).cqis := by
  apply h.update
  · intro cqi hc
    obtain hc | hc := List.mem_append.mp hc
    · exact h.typed type cqi hc
    · rw [List.mem_singleton.mp hc]
  · rw [List.map_append]
    refine List.nodup_append.mpr ⟨h.nodup type, List.nodup_singleton _, ?_⟩
    intro user' hu' user'' hu''
    obtain ⟨cqi, hc, rfl⟩ := List.mem_map.mp hu'
    rw [List.mem_singleton.mp hu'']
    exact fun heq => List.find?_eq_none.mp hfind cqi hc (decide_eq_true heq)

theorem find_getCQI (hfind : find s type user = none) (token : Bytes) :
    find (getCQI s token user type) type user = some ⟨token, 0, 0, .WAITING, type, user⟩ := by
  rw [find] at hfind
  simp [find, getCQI, hfind]

theorem held_getCQI (hfind : find s type user = none) (token : Bytes) {type' : ConnectionType}
    {user' : Option U} (hne : ¬(type' = type ∧ user' = user)) :
    held (getCQI s token user type).cqis type' user' = held s.cqis type' user' := by
  rw [getCQI, held_update]
  split
  next ht =>
    subst ht
    have hu : user ≠ user' := fun hu => hne ⟨rfl, hu.symm⟩
    rw [List.find?_append]
    simp [hu, held]
  next => rfl

theorem items_putCQI (h : Items s.cqis) (cqi : ConnectionQueueItem U) : Items (putCQI s cqi).cqis := by
  apply h.update
  · exact fun cqi' hc => h.typed cqi.type cqi' (Keyed.mem_erase.mp hc).1
  · exact (h.nodup cqi.type).sublist (List.filter_sublist.map _)

theorem held_putCQI (h : Items s.cqis) (cqi : ConnectionQueueItem U) (type' : ConnectionType)
    (user' : Option U) : held (putCQI s cqi).cqis type' user' =
      if type' = cqi.type ∧ user' = cqi.user then false else held s.cqis type' user' := by
  have herase : Keyed.erase (fun i => (i.type, i.user)) (cqi.type, cqi.user) (s.cqis cqi.type) =
      Keyed.erase ConnectionQueueItem.user cqi.user (s.cqis cqi.type) := by
    apply List.filter_congr
    intro i hi
    simp [h.typed cqi.type i hi]
  rw [putCQI, held_update, herase]
  by_cases ht : type' = cqi.type
  · subst ht
    rw [if_pos rfl]
    by_cases hu' : user' = cqi.user
    · subst hu'
      rw [if_pos ⟨rfl, rfl⟩, Keyed.find?_erase_self]
      rfl
    · rw [if_neg fun h => hu' h.2, Keyed.find?_erase_of_ne _ hu']
      rfl
  · rw [if_neg ht, if_neg fun h => ht h.1]

/-- The item changes only in what does not matter to other connections. -/
structure ConnectionQueueItem.Kept (a b : ConnectionQueueItem U) : Prop where
  type : b.type = a.type
  user : b.user = a.user
  active : b.state = .ACTIVE ↔ a.state = .ACTIVE

omit [DecidableEq U] in
theorem items_forall₂ (h : Items s.cqis) {l : List (ConnectionQueueItem U)}
    (hl : List.Forall₂ ConnectionQueueItem.Kept (s.cqis type) l) :
    Items (Function.update s.cqis type l) := by
  apply h.update
  · exact Keyed.mem_forall₂ (fun _ _ hab hty => hab.type.trans hty) hl (h.typed type)
  · rw [← Keyed.map_forall₂ (fun _ _ hab => hab.user.symm) hl]
    exact h.nodup type

theorem any_forall₂ {l l' : List (ConnectionQueueItem U)}
    (hl : List.Forall₂ ConnectionQueueItem.Kept l l') (user : Option U) :
    (l'.find? fun cqi => cqi.user = user).any (ConnectionQueueItem.taken type) =
      (l.find? fun cqi => cqi.user = user).any (ConnectionQueueItem.taken type) := by
  have hfind := Keyed.find?_forall₂ (p := fun cqi : ConnectionQueueItem U => decide (cqi.user = user))
    (fun a b (hab : ConnectionQueueItem.Kept a b) => by rw [hab.user]) hl
  revert hfind
  generalize (l.find? fun cqi => cqi.user = user) = x, (l'.find? fun cqi => cqi.user = user) = y
  intro hfind
  cases hfind with
  | none => rfl
  | @some a b hab =>
    change b.taken type = a.taken type
    rw [ConnectionQueueItem.taken, ConnectionQueueItem.taken, decide_eq_decide.mpr hab.active]

theorem held_forall₂ {l : List (ConnectionQueueItem U)}
    (hl : List.Forall₂ ConnectionQueueItem.Kept (s.cqis type) l) :
    held (Function.update s.cqis type l) = held s.cqis := by
  funext type' user'
  rw [held_update]
  split
  next ht =>
    subst ht
    exact any_forall₂ hl user'
  next => rfl

end Items

end Dcpp.ConnectionManager
