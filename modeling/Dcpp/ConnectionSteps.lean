import Dcpp.ConnectionInvariant

namespace Dcpp.ConnectionManager

variable {U C : Type} [DecidableEq U] {s : State U C} {x c : UserConnection U}
  {cqis : ConnectionType → List (ConnectionQueueItem U)}

omit [DecidableEq U] in
theorem mem_of_findConnection {id : Nat} (hx : findConnection s id = some x) :
    x ∈ s.userConnections ∧ x.id = id := Keyed.mem_of_find?_key hx

/-- A connection changes, and the items with it. -/
theorem Inv.set (h : Inv s) (hi : Items cqis) (hx : findConnection s c.id = some x) (hl : c.Legal)
    (hc : ∀ type user, (if held cqis type user then 1 else 0) + (if x.isAssociated type user then 1 else 0) =
      (if held s.cqis type user then 1 else 0) + if c.isAssociated type user then 1 else 0) :
    Inv (setConnection { s with cqis := cqis } c) where
  ids := by
    rw [setConnection, Keyed.map_modifyFirst fun y hy => (of_decide_eq_true hy).symm]
    exact h.ids
  fresh y hy := by
    obtain ⟨hmem, hid⟩ := mem_of_findConnection hx
    obtain hy | ⟨_, _, rfl⟩ := Keyed.mem_modifyFirst hy
    · exact h.fresh y hy
    · exact hid ▸ h.fresh x hmem
  legal y hy := by
    obtain hy | ⟨_, _, rfl⟩ := Keyed.mem_modifyFirst hy
    · exact h.legal y hy
    · exact hl
  items := hi
  count type user := by
    have hcount := Keyed.countP_modifyFirst (f := fun _ => c) hx (UserConnection.isAssociated type user)
    rw [h.count type user] at hcount
    have := hc type user
    change (Keyed.modifyFirst _ _ s.userConnections).countP _ = if held cqis type user then 1 else 0
    omega

/-- A connection goes away, and its item with it. -/
theorem Inv.put (h : Inv s) (hi : Items cqis) (hx : findConnection s c.id = some x)
    (hc : ∀ type user, (if held cqis type user then 1 else 0) + (if x.isAssociated type user then 1 else 0) =
      if held s.cqis type user then 1 else 0) : Inv (putConnection c { s with cqis := cqis }) where
  ids := Keyed.nodup_erase h.ids c.id
  fresh y hy := h.fresh y (Keyed.mem_erase.mp hy).1
  legal y hy := h.legal y (Keyed.mem_erase.mp hy).1
  items := hi
  count type user := by
    obtain ⟨hmem, hid⟩ := mem_of_findConnection hx
    have hcount := Keyed.countP_erase h.ids hmem (UserConnection.isAssociated type user)
    rw [h.count type user, hid] at hcount
    have := hc type user
    change (Keyed.erase _ _ s.userConnections).countP _ = if held cqis type user then 1 else 0
    omega

theorem Inv.setItems (h : Inv s) (hi : Items cqis) (hc : held cqis = held s.cqis) :
    Inv { s with cqis := cqis } :=
  ⟨h.ids, h.fresh, h.legal, hi, fun type user => by rw [hc]; exact h.count type user⟩

/-- Nothing changes in what the connection stands for. -/
theorem Inv.setConnection (h : Inv s) (hx : findConnection s c.id = some x) (hl : c.Legal)
    (ha : ∀ type user, c.isAssociated type user = x.isAssociated type user) :
    Inv (setConnection s c) :=
  h.set h.items hx hl fun type user => by rw [ha]

theorem isAssociated_of_not (ha : x.associated = false) (type : ConnectionType) (user : Option U) :
    x.isAssociated type user = false := by
  rw [UserConnection.isAssociated, ha, Bool.false_and]

theorem Inv.setNew (h : Inv s) (hx : findConnection s c.id = some x) (ha : x.associated = false)
    (ha' : c.associated = false) (hl : c.Staged) : Inv (ConnectionManager.setConnection s c) :=
  h.setConnection hx ⟨hl, fun hne => absurd (ha'.symm.trans hne) Bool.false_ne_true⟩ fun type user => by
    rw [isAssociated_of_not ha, isAssociated_of_not ha']

theorem Inv.putConnection (h : Inv s) (hx : findConnection s c.id = some x) (ha : x.associated = false) :
    Inv (putConnection c s) :=
  h.put h.items hx fun type user => by
    rw [isAssociated_of_not ha]
    rfl

theorem Inv.setItem (h : Inv s) {type : ConnectionType} {user : Option U}
    {f : ConnectionQueueItem U → ConnectionQueueItem U} (hf : ∀ cqi, ConnectionQueueItem.Kept cqi (f cqi)) :
    Inv (setItem s type user f) := by
  have hl := Keyed.forall₂_modifyFirst (p := fun cqi => decide (cqi.user = user))
    (fun cqi => (⟨rfl, rfl, Iff.rfl⟩ : ConnectionQueueItem.Kept cqi cqi)) (fun cqi _ => hf cqi) (s.cqis type)
  exact h.setItems (items_forall₂ h.items hl) (held_forall₂ hl)

/-- An item that was not taken is taken by a connection. -/
theorem Inv.associate (h : Inv s) (hi : Items cqis) (hx : findConnection s c.id = some x)
    (ha : x.associated = false) (hl : c.Legal) {type : ConnectionType} (ha' : c.associated = true)
    (ht : c.type = some type) (hnot : held s.cqis type c.user = false)
    (hheld : ∀ type' user', held cqis type' user' =
      if type' = type ∧ user' = c.user then true else held s.cqis type' user') :
    Inv (ConnectionManager.setConnection { s with cqis := cqis } c) := by
  refine h.set hi hx hl fun type' user' => ?_
  rw [isAssociated_of_not ha, hheld]
  have hassoc : c.isAssociated type' user' = decide (type' = type ∧ user' = c.user) := by
    rw [UserConnection.isAssociated, ha', ht]
    simp [eq_comm]
  rw [hassoc]
  by_cases hk : type' = type ∧ user' = c.user
  · obtain ⟨rfl, rfl⟩ := hk
    simp [hnot]
  · simp [hk]

/-- A connection goes away, and its item is not taken any more. -/
theorem Inv.release (h : Inv s) (hi : Items cqis) (hx : findConnection s c.id = some x)
    {type : ConnectionType} (ha : x.associated = true) (ht : x.type = some type)
    (hheld : ∀ type' user', held cqis type' user' =
      if type' = type ∧ user' = x.user then false else held s.cqis type' user') :
    Inv (ConnectionManager.putConnection c { s with cqis := cqis }) := by
  refine h.put hi hx fun type' user' => ?_
  have hassoc : x.isAssociated type' user' = decide (type' = type ∧ user' = x.user) := by
    rw [UserConnection.isAssociated, ha, ht]
    simp [eq_comm]
  rw [hheld, hassoc]
  by_cases hk : type' = type ∧ user' = x.user
  · obtain ⟨rfl, rfl⟩ := hk
    have hheld' := (h.held_of_type (mem_of_findConnection hx).1 ha ht).2
    simp [hheld']
  · simp [hk]

/-- A connection that may stand for an item next. -/
structure Ready (s : State U C) (c x : UserConnection U) : Prop where
  found : findConnection s c.id = some x
  idle : x.associated = false
  staged : ({ c with associated := true } : UserConnection U).Staged

omit [DecidableEq U] in
/-- What the download manager does leaves the connection associated. -/
theorem downloadManagerAdd_spec (env : Env U C) (hs : c.Staged) :
    ∃ state disconnecting, downloadManagerAdd env c = { c with state := state, disconnecting := disconnecting } ∧
      (downloadManagerAdd env c).Staged := by
  rw [downloadManagerAdd]
  split
  next => exact ⟨c.state, true, rfl, hs⟩
  next =>
    split
    next => exact ⟨c.state, true, rfl, hs⟩
    next =>
      split
      next => exact ⟨.SND, c.disconnecting, rfl, trivial⟩
      next => exact ⟨.IDLE, c.disconnecting, rfl, trivial⟩

theorem addDownloadConnection_inv (h : Inv s) (env : Env U C) (hr : Ready s c x) (hd : c.download = true) :
    Inv (addDownloadConnection env c s) := by
  rw [addDownloadConnection]
  split
  next => exact h.putConnection hr.found hr.idle
  next cqi hfind =>
    split
    next hstate =>
      obtain ⟨state, disconnecting, heq, hstaged⟩ := downloadManagerAdd_spec env hr.staged
      rw [heq] at hstaged ⊢
      have htype : c.type = some .DOWNLOAD := by rw [UserConnection.type, hd, if_pos rfl]
      have hitems : Items (ConnectionManager.setItem s .DOWNLOAD c.user
          fun cqi => { cqi with state := .ACTIVE }).cqis := items_setItem h.items (fun _ => rfl) fun _ => rfl
      refine h.associate (c := { c with associated := true, state := state, disconnecting := disconnecting })
        hitems hr.found hr.idle ⟨hstaged, fun _ hne => ?_⟩ rfl htype ?_ fun type user => ?_
      · exact Option.some_ne_none _ (htype.symm.trans hne)
      · rw [find] at hfind
        rw [held, hfind]
        obtain hstate | hstate := hstate <;> simp [ConnectionQueueItem.taken, hstate]
      · apply (held_setItem (f := fun cqi => { cqi with state := .ACTIVE }) (fun _ => rfl) type user).trans
        rw [hfind]
        rfl
    next => exact h.putConnection hr.found hr.idle

theorem addNewConnection_inv (h : Inv s) (env : Env U C) {type : ConnectionType} (hr : Ready s c x)
    (ht : c.type = some type) : Inv (addNewConnection env type c s) := by
  rw [addNewConnection]
  split
  next =>
    split
    next hfind =>
      have hitems : Items (ConnectionManager.setItem (getCQI s env.token c.user type) type c.user
          fun cqi => { cqi with state := .ACTIVE }).cqis :=
        items_setItem (items_getCQI h.items hfind env.token) (fun _ => rfl) fun _ => rfl
      have hnot : held s.cqis type c.user = false := by
        rw [find] at hfind
        rw [held, hfind]
        rfl
      have hheld : ∀ type' user', held (ConnectionManager.setItem (getCQI s env.token c.user type) type c.user
          fun cqi => { cqi with state := .ACTIVE }).cqis type' user' =
            if type' = type ∧ user' = c.user then true else held s.cqis type' user' := by
        intro type' user'
        apply (held_setItem (f := fun cqi => { cqi with state := .ACTIVE }) (fun _ => rfl) type' user').trans
        rw [find_getCQI hfind]
        split
        next => simp [ConnectionQueueItem.taken]
        next hne => exact held_getCQI hfind env.token hne
      dsimp only
      split
      next =>
        exact h.associate (c := { c with associated := true, state := .GET }) hitems hr.found hr.idle
          ⟨trivial, fun _ hne => Option.some_ne_none _ (ht.symm.trans hne)⟩ rfl ht hnot hheld
      next =>
        exact h.associate (c := { c with associated := true }) hitems hr.found hr.idle
          ⟨hr.staged, fun _ hne => Option.some_ne_none _ (ht.symm.trans hne)⟩ rfl ht hnot hheld
    next => exact h.putConnection hr.found hr.idle
  next => exact h.putConnection hr.found hr.idle

end Dcpp.ConnectionManager
