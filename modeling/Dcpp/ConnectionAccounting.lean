import Dcpp.ConnectionSteps

namespace Dcpp.ConnectionManager

variable {U C : Type} [DecidableEq U] [DecidableEq C] {s : State U C} {x c : UserConnection U}

omit [DecidableEq C] in
/-- Only the requests to disconnect change. -/
theorem Inv.disconnects (h : Inv s) {t : State U C} (hc : t.cqis = s.cqis) (hn : t.nextId = s.nextId)
    (hl : List.Forall₂ (fun a b : UserConnection U => b = a ∨ b = a.disconnect) s.userConnections
      t.userConnections) : Inv t where
  ids := by
    rw [← Keyed.map_forall₂ (f := UserConnection.id) (fun a b hab => by obtain rfl | rfl := hab <;> rfl) hl]
    exact h.ids
  fresh := by
    rw [hn]
    exact Keyed.mem_forall₂ (P := fun c : UserConnection U => c.id < s.nextId)
      (fun a b hab ha => by obtain rfl | rfl := hab <;> exact ha) hl h.fresh
  legal := Keyed.mem_forall₂ (P := UserConnection.Legal) (fun a b hab ha => by
    obtain rfl | rfl := hab
    · exact ha
    · exact ⟨ha.staged, ha.typed⟩) hl h.legal
  items := hc ▸ h.items
  count type user := by
    rw [hc, ← h.count type user]
    exact (Keyed.countP_forall₂ (fun a b hab => by obtain rfl | rfl := hab <;> rfl) hl).symm

omit [DecidableEq U] [DecidableEq C] in
theorem getConnection_eq (h : ∀ c ∈ s.userConnections, c.id < s.nextId) (aNmdc secure : Bool)
    (hid : c.id = s.nextId) : setConnection (getConnection aNmdc secure s).2 c =
      { s with userConnections := s.userConnections ++ [c], nextId := s.nextId + 1 } := by
  have hold : ∀ y ∈ s.userConnections, decide (y.id = c.id) = false := by
    intro y hy
    exact decide_eq_false (hid ▸ Nat.ne_of_lt (h y hy))
  rw [setConnection, getConnection]
  dsimp only
  rw [Keyed.modifyFirst_append hold, Keyed.modifyFirst, if_pos (decide_eq_true hid.symm)]

omit [DecidableEq C] in
/-- A new connection is added to the others; it may fail at once. -/
theorem getConnection_inv (h : Inv s) (aNmdc secure connected : Bool) (hid : c.id = s.nextId)
    (hs : c.Staged) (ha : c.associated = false) :
    let t := setConnection (getConnection aNmdc secure s).2 c
    Inv (if connected then t else putConnection c t) := by
  intro t
  have ht : t = { s with userConnections := s.userConnections ++ [c], nextId := s.nextId + 1 } :=
    getConnection_eq h.fresh aNmdc secure hid
  have hmem : ∀ y ∈ t.userConnections, y ∈ s.userConnections ∨ y = c := by
    intro y hy
    rw [ht] at hy
    exact (List.mem_append.mp hy).imp id List.mem_singleton.mp
  have hinv : Inv t := by
    refine ⟨?_, fun y hy => ?_, fun y hy => ?_, ?_, fun type user => ?_⟩
    · rw [ht, List.map_append]
      refine List.nodup_append.mpr ⟨h.ids, List.nodup_singleton _, ?_⟩
      intro i hi j hj
      obtain ⟨y, hy, rfl⟩ := List.mem_map.mp hi
      rw [List.mem_singleton.mp hj]
      exact hid ▸ Nat.ne_of_lt (h.fresh y hy)
    · have hnext : t.nextId = s.nextId + 1 := by rw [ht]
      rw [hnext]
      obtain hy | rfl := hmem y hy
      · exact Nat.lt_succ_of_lt (h.fresh y hy)
      · exact hid ▸ Nat.lt_succ_self _
    · obtain hy | rfl := hmem y hy
      · exact h.legal y hy
      · exact ⟨hs, fun hne => absurd (ha.symm.trans hne) Bool.false_ne_true⟩
    · rw [ht]
      exact h.items
    · rw [ht]
      dsimp only
      rw [List.countP_append, h.count, List.countP_singleton, isAssociated_of_not ha]
      rfl
  split
  next => exact hinv
  next =>
    have hfind : findConnection t c.id = some c := by
      refine Keyed.find?_key hinv.ids ?_
      rw [ht]
      exact List.mem_append_right _ (List.mem_singleton_self c)
    exact hinv.putConnection hfind ha

omit [DecidableEq C] in
theorem onSUP_inv (h : Inv s) (hx : findConnection s x.id = some x) (cmd : AdcCommand) :
    Inv (onSUP cmd x s) := by
  have hl := h.legal x (mem_of_findConnection hx).1
  rw [onSUP]
  split
  next => exact h
  next hstate =>
    have hst := hl.staged
    rw [UserConnection.Staged, not_not.mp hstate] at hst
    obtain ⟨_, hup, hdown, ha⟩ := hst
    split
    next =>
      exact h.setNew (c := { x with supportsAdcGet := true, supportsTthf := true, state := .INF })
        hx ha ha fun _ => ⟨hup, hdown⟩
    next => exact h.setConnection (c := x.disconnect) hx ⟨hl.staged, hl.typed⟩ fun _ _ => rfl

omit [DecidableEq U] in
theorem resetErrors_kept (env : Env U C) (cid : C) (l : List (ConnectionQueueItem U)) :
    List.Forall₂ ConnectionQueueItem.Kept l (resetErrors env cid l) := by
  induction l with
  | nil => exact List.Forall₂.nil
  | cons cqi l ih =>
    rw [resetErrors]
    split
    next => exact List.Forall₂.cons ⟨rfl, rfl, Iff.rfl⟩ (List.forall₂_same.mpr fun _ _ => ⟨rfl, rfl, Iff.rfl⟩)
    next => exact List.Forall₂.cons ⟨rfl, rfl, Iff.rfl⟩ ih

theorem onNick_inv (h : Inv s) (env : Env U C) (aNick : Bytes) (hx : findConnection s c.id = some x)
    (hidle : x.associated = false) (ha : c.associated = false) (hu : c.user = none) :
    Inv (onNick env aNick c s) := by
  have hkept := resetErrors_kept env (env.makeCid aNick c.hubUrl) (s.cqis .DOWNLOAD)
  have h' := h.setItems (items_forall₂ h.items hkept) (held_forall₂ hkept)
  rw [onNick]
  cases (s.cqis .DOWNLOAD).find? (pending env (env.makeCid aNick c.hubUrl)) with
  | some cqi =>
    -- a pending download was found
    dsimp only
    split
    next =>
      exact h'.setNew (c := { c with user := cqi.user, download := true, state := .LOCK }) hx hidle ha
        ⟨Or.inr rfl, ha⟩
    next =>
      split
      next => exact h'.putConnection hx hidle
      next user _ =>
        split
        next =>
          exact h'.setNew
            (c := { c with user := some user, download := true, upload := true, state := .LOCK })
            hx hidle ha ⟨Or.inl rfl, ha⟩
        next => exact h'.putConnection hx hidle
  | none =>
    dsimp only
    rw [hu]
    dsimp only
    split
    next => exact h'.putConnection hx hidle
    next user _ =>
      split
      next =>
        exact h'.setNew (c := { c with user := some user, upload := true, state := .LOCK })
          hx hidle ha ⟨Or.inl rfl, ha⟩
      next => exact h'.putConnection hx hidle

theorem onMyNick_inv (h : Inv s) (hx : findConnection s x.id = some x) (env : Env U C) (aNick : Bytes) :
    Inv (onMyNick env aNick x s) := by
  rw [onMyNick]
  split
  next => exact h
  next hstate =>
    have hst := (h.legal x (mem_of_findConnection hx).1).staged
    rw [UserConnection.Staged, not_not.mp hstate] at hst
    obtain ⟨hu, _, _, ha⟩ := hst
    split
    next =>
      split
      next => exact h.putConnection hx ha
      next _ myNick hubUrl _ =>
        have h' : Inv { s with
            expectedConnections := s.expectedConnections.filter fun e => e.1 ≠ aNick } :=
          ⟨h.ids, h.fresh, h.legal, h.items, h.count⟩
        split
        next => exact h'.putConnection hx ha
        next => exact onNick_inv (c := { x with token := myNick, hubUrl := hubUrl }) h' env aNick hx ha ha hu
    next => exact onNick_inv h env aNick hx ha ha hu

omit [DecidableEq C] in
theorem onCLock_inv (h : Inv s) (hx : findConnection s x.id = some x) (online : Bool) :
    Inv (onCLock online x s) := by
  rw [onCLock]
  split
  next => exact h
  next hstate =>
    have hst := (h.legal x (mem_of_findConnection hx).1).staged
    rw [UserConnection.Staged, not_not.mp hstate] at hst
    obtain ⟨hflag, ha⟩ := hst
    split
    next => exact h
    next => exact h.setNew (c := { x with state := .DIRECTION }) hx ha ha ⟨hflag, ha⟩

omit [DecidableEq C] in
theorem onDirection_inv (h : Inv s) (hx : findConnection s x.id = some x) (upload : Bool)
    (number drawn drawn' : Int) : Inv (onDirection upload number drawn drawn' x s) := by
  rw [onDirection]
  split
  next => exact h
  next hstate =>
    have hst := (h.legal x (mem_of_findConnection hx).1).staged
    rw [UserConnection.Staged, not_not.mp hstate] at hst
    obtain ⟨hflag, ha⟩ := hst
    have hkey : Inv (setConnection s { x with state := .KEY }) :=
      h.setNew (c := { x with state := .KEY }) hx ha ha hflag
    split
    next =>
      split
      next => exact h.putConnection hx ha
      next => exact hkey
    next =>
      split
      next =>
        split
        next =>
          exact h.setNew (c := { x with download := false, upload := true, state := .KEY }) hx ha ha
            (Or.inl rfl)
        next =>
          split
          next => exact h.putConnection hx ha
          next => exact hkey
      next => exact hkey

omit [DecidableEq C] in
theorem onKey_inv (h : Inv s) (hx : findConnection s x.id = some x) (env : Env U C)
    (hm : x.associated = true → x.state ≠ .KEY) : Inv (onKey env x s) := by
  rw [onKey]
  split
  next => exact h
  next hstate =>
    have hstate := not_not.mp hstate
    have ha : x.associated = false := eq_false_of_ne_true fun ha => hm ha hstate
    have hst := (h.legal x (mem_of_findConnection hx).1).staged
    rw [UserConnection.Staged, hstate] at hst
    have hready : Ready s x x := ⟨hx, ha, by rw [UserConnection.Staged]; dsimp only; rw [hstate]; exact hst⟩
    split
    next hdown => exact addDownloadConnection_inv h env hready hdown
    next hdown =>
      refine addNewConnection_inv h env hready ?_
      rw [UserConnection.type, if_neg hdown, if_pos (hst.resolve_right hdown)]

omit [DecidableEq C] in
theorem addInfConnection_inv (h : Inv s) (env : Env U C) (cmd : AdcCommand) (type : Option ConnectionType)
    (hx : findConnection s c.id = some x) (ha : x.associated = false) (hstate : c.state = .INF)
    (hup : c.upload = false) (hdown : c.download = false) : Inv (addInfConnection env cmd type c s) := by
  have hstaged : ∀ uc' : UserConnection U, uc'.state = .INF →
      ({ uc' with associated := true } : UserConnection U).Staged := by
    intro uc' hs
    rw [UserConnection.Staged]
    dsimp only
    rw [hs]
    exact fun hne => absurd hne.symm Bool.false_ne_true
  have hcheck : ∃ b t, (if type = some .DOWNLOAD then (true, s) else checkDownload c s) = (b, t) ∧
      Inv t ∧ findConnection t c.id = some x := by
    split
    next => exact ⟨true, s, rfl, h, hx⟩
    next =>
      rw [checkDownload]
      split
      next =>
        split
        next => exact ⟨true, _, rfl, h.setItem fun _ => ⟨rfl, rfl, Iff.rfl⟩, hx⟩
        next => exact ⟨false, s, rfl, h, hx⟩
      next => exact ⟨false, s, rfl, h, hx⟩
  obtain ⟨b, t, heq, ht, hxt⟩ := hcheck
  rw [addInfConnection, heq]
  dsimp only
  split
  next =>
    exact addDownloadConnection_inv (c := { c with download := true }) ht env
      ⟨hxt, ha, hstaged _ hstate⟩ rfl
  next =>
    split
    next =>
      refine addNewConnection_inv (c := { c with pm := true }) ht env ⟨hxt, ha, hstaged _ hstate⟩ ?_
      simp [UserConnection.type, hup, hdown]
    next =>
      refine addNewConnection_inv (c := { c with upload := true }) ht env ⟨hxt, ha, hstaged _ hstate⟩ ?_
      simp [UserConnection.type, hdown]

theorem onIncomingINF_inv (h : Inv s) (env : Env U C) (cmd : AdcCommand) (user : U)
    (hx : findConnection s c.id = some x) (ha : x.associated = false) (hstate : c.state = .INF)
    (hup : c.upload = false) (hdown : c.download = false) : Inv (onIncomingINF env cmd user c s) := by
  rw [onIncomingINF]
  split
  next => exact h.putConnection hx ha
  next token _ =>
    dsimp only
    split
    next => exact h.putConnection (c := { c with token := token }) hx ha
    next type _ =>
      split
      next =>
        split
        next => exact addInfConnection_inv (c := { c with token := token, pm := true }) h env cmd _ hx ha hstate hup hdown
        next => exact h.putConnection (c := { c with token := token }) hx ha
      next => exact addInfConnection_inv (c := { c with token := token }) h env cmd _ hx ha hstate hup hdown

theorem onINF_inv (h : Inv s) (hx : findConnection s x.id = some x) (env : Env U C) (cmd : AdcCommand)
    (hm : x.associated = true → x.state = .INF →
      (env.requireTls && !x.nmdc && !x.secure) = false ∧ cmd.getParam (str "ID") 0 = none) :
    Inv (onINF env cmd x s) := by
  have hl := h.legal x (mem_of_findConnection hx).1
  have hdisc : Inv (setConnection s x.disconnect) :=
    h.setConnection (c := x.disconnect) hx ⟨hl.staged, hl.typed⟩ fun _ _ => rfl
  rw [onINF]
  split
  next => exact hdisc
  next hstate =>
    have hstate := not_not.mp hstate
    cases ha : x.associated with
    | true =>
      -- the condition leaves only the request to disconnect
      obtain ⟨htls, hid⟩ := hm ha hstate
      rw [htls, hid]
      exact hdisc
    | false =>
      have hst := hl.staged
      rw [UserConnection.Staged, hstate] at hst
      obtain ⟨hup, hdown⟩ := hst ha
      split
      next => exact h.putConnection hx ha
      next =>
        split
        next => exact hdisc
        next =>
          split
          next => exact h.putConnection hx ha
          next user _ =>
            dsimp only
            split
            next => exact h.putConnection (c := { x with user := some user }) hx ha
            next =>
              split
              next =>
                exact onIncomingINF_inv (c := { x with user := some user }) h env cmd user hx ha hstate hup hdown
              next =>
                exact addInfConnection_inv (c := { x with user := some user }) h env cmd none hx ha hstate hup hdown

omit [DecidableEq C] in
/-- The item that `failed` reads is there. -/
theorem failed_inv (h : Inv s) (hx : findConnection s x.id = some x) (protocolError : Bool) (now : Nat) :
    ∃ t, failed protocolError now x s = some t ∧ Inv t := by
  obtain ⟨hmem, _⟩ := mem_of_findConnection hx
  rw [failed]
  cases ha : x.associated with
  | false => exact ⟨_, rfl, h.putConnection hx ha⟩
  | true =>
    obtain ⟨type, ht⟩ := Option.ne_none_iff_exists'.mp ((h.legal x hmem).typed ha)
    obtain ⟨cqi, hfind, _⟩ := (Option.any_eq_true _ _).mp (h.held_of_type hmem ha ht).2
    have hfind : find s type x.user = some cqi := hfind
    obtain ⟨hc, huser⟩ := Keyed.mem_of_find?_key hfind
    have hput : Inv (putConnection x (putCQI s cqi)) := by
      refine h.release (items_putCQI h.items cqi) hx ha ht fun type' user' => ?_
      rw [← huser, ← h.items.typed type cqi hc]
      exact held_putCQI h.items cqi type' user'
    rw [if_pos rfl, ht]
    cases type with
    | DOWNLOAD =>
      dsimp only
      rw [hfind]
      refine ⟨_, rfl, h.release (items_setItem h.items (fun _ => rfl) fun _ => rfl) hx ha ht
        fun type' user' => ?_⟩
      apply (held_setItem (f := fun cqi => { cqi with
        state := .WAITING
        lastAttempt := now
        errors := if protocolError then -1 else cqi.errors + 1 }) (fun _ => rfl) type' user').trans
      rw [hfind]
      rfl
    | UPLOAD =>
      dsimp only
      rw [hfind]
      exact ⟨_, rfl, hput⟩
    | PM =>
      dsimp only
      rw [hfind]
      exact ⟨_, rfl, hput⟩

omit [DecidableEq U] [DecidableEq C] in
/-- The timer leaves active items alone, and makes none active. -/
theorem attempt_spec (tick : Tick U C) (attemptDone : Bool) (cqi : ConnectionQueueItem U) :
    ConnectionQueueItem.Kept cqi (attempt tick attemptDone cqi).1 ∧
      ((attempt tick attemptDone cqi).2.1 = true → cqi.state ≠ .ACTIVE) := by
  rw [attempt]
  split
  next => exact ⟨⟨rfl, rfl, Iff.rfl⟩, fun h => absurd h Bool.false_ne_true⟩
  next hstate =>
    refine ⟨?_, fun _ => hstate⟩
    dsimp only
    repeat' split
    all_goals first
      | exact ⟨rfl, rfl, Iff.rfl⟩
      | exact ⟨rfl, rfl, ⟨fun h => (by cases h), fun h => absurd h hstate⟩⟩

omit [DecidableEq U] [DecidableEq C] in
theorem attempts_spec (tick : Tick U C) (attemptDone : Bool) (l : List (ConnectionQueueItem U)) :
    List.Forall₂ ConnectionQueueItem.Kept l (attempts tick attemptDone l).1 ∧
      ∀ user ∈ (attempts tick attemptDone l).2, ∃ cqi ∈ l, cqi.user = user ∧ cqi.state ≠ .ACTIVE := by
  induction l generalizing attemptDone with
  | nil => exact ⟨List.Forall₂.nil, fun _ h => absurd h List.not_mem_nil⟩
  | cons cqi l ih =>
    obtain ⟨hkept, hremoved⟩ := attempt_spec tick attemptDone cqi
    obtain ⟨hall, husers⟩ := ih (attempt tick attemptDone cqi).2.2
    have hold : ∀ user ∈ (attempts tick (attempt tick attemptDone cqi).2.2 l).2,
        ∃ cqi' ∈ cqi :: l, cqi'.user = user ∧ cqi'.state ≠ .ACTIVE := by
      intro user hu
      obtain ⟨cqi', hc, h⟩ := husers user hu
      exact ⟨cqi', List.mem_cons_of_mem _ hc, h⟩
    rw [attempts]
    refine ⟨List.Forall₂.cons hkept hall, fun user hu => ?_⟩
    dsimp only at hu
    split at hu
    next hr =>
      obtain rfl | hu := List.mem_cons.mp hu
      · exact ⟨cqi, List.mem_cons_self, rfl, hremoved hr⟩
      · exact hold user hu
    next => exact hold user hu

omit [DecidableEq C] in
theorem onSecond_inv (h : Inv s) (tick : Tick U C) : Inv (onSecond tick s) := by
  obtain ⟨hkept, hremoved⟩ := attempts_spec tick false (s.cqis .DOWNLOAD)
  rw [onSecond]
  revert hkept hremoved
  generalize attempts tick false (s.cqis .DOWNLOAD) = r
  obtain ⟨items, removed⟩ := r
  intro hkept hremoved
  dsimp only
  have hitems := items_forall₂ h.items hkept
  refine h.setItems ?_ ?_
  · have htyped := hitems.typed .DOWNLOAD
    have hnodup := hitems.nodup .DOWNLOAD
    rw [Function.update_self] at htyped hnodup
    exact h.items.update (fun cqi hc => htyped cqi (List.mem_of_mem_filter hc))
      (hnodup.sublist (List.filter_sublist.map _))
  · funext type user
    rw [held_update]
    split
    next ht =>
      subst ht
      rw [List.find?_filter]
      simp only [Bool.decide_and, Bool.decide_eq_true]
      by_cases hu : user ∈ removed
      · -- what is removed was not taken
        obtain ⟨cqi, hc, rfl, hstate⟩ := hremoved user hu
        have hnone : (items.find? fun a => decide (a.user ∉ removed) && decide (a.user = cqi.user)) = none := by
          apply List.find?_eq_none.mpr
          intro a _
          by_cases ha : a.user = cqi.user <;> simp [ha, hu]
        rw [hnone, held_of_mem h.items hc]
        simp [ConnectionQueueItem.taken, hstate]
      · have hsame : (fun a : ConnectionQueueItem U => decide (a.user ∉ removed) && decide (a.user = user)) =
            fun a => decide (a.user = user) := by
          funext a
          by_cases ha : a.user = user <;> simp [ha, hu]
        rw [hsame]
        exact any_forall₂ hkept user
    next => rfl

theorem handle_inv (h : Inv s) {id : Nat} (hx : findConnection s id = some x) (e : ConnectionEvent U C)
    (hm : Meets s (.connection id e)) : ∃ t, handle x s e = some t ∧ Inv t := by
  obtain ⟨hmem, rfl⟩ := mem_of_findConnection hx
  have hl := h.legal x hmem
  cases e with
  | connected =>
    refine ⟨_, rfl, ?_⟩
    rw [onConnected]
    split
    next => exact h
    next hstate =>
      have hst := hl.staged
      rw [UserConnection.Staged, not_not.mp hstate] at hst
      exact h.setNew (c := { x with state := .SUPNICK }) hx hst.2.2.2 hst.2.2.2 hst
  | line =>
    exact ⟨_, rfl, h.setConnection (c := { x with nmdc := true }) hx ⟨hl.staged, hl.typed⟩ fun _ _ => rfl⟩
  | sup cmd => exact ⟨_, rfl, onSUP_inv h hx cmd⟩
  | inf env cmd => exact ⟨_, rfl, onINF_inv h hx env cmd (hm x hx)⟩
  | supports feat =>
    exact ⟨_, rfl, h.setConnection (c := { x with
      supportsAdcGet := x.supportsAdcGet || decide (str "ADCGet" ∈ feat)
      supportsTthf := x.supportsTthf || decide (str "TTHF" ∈ feat) }) hx ⟨hl.staged, hl.typed⟩ fun _ _ => rfl⟩
  | myNick env aNick => exact ⟨_, rfl, onMyNick_inv h hx env aNick⟩
  | lock online => exact ⟨_, rfl, onCLock_inv h hx online⟩
  | direction upload number drawn drawn' => exact ⟨_, rfl, onDirection_inv h hx upload number drawn drawn'⟩
  | key env => exact ⟨_, rfl, onKey_inv h hx env (hm x hx)⟩
  | transfer state =>
    refine ⟨_, rfl, ?_⟩
    split
    next hstate =>
      have hstaged : ({ x with state := state } : UserConnection U).Staged := by
        obtain ⟨_, hstate⟩ := Bool.and_eq_true_iff.mp hstate
        cases state <;> first | exact trivial | exact absurd hstate Bool.false_ne_true
      exact h.setConnection (c := { x with state := state }) hx ⟨hstaged, hl.typed⟩ fun _ _ => rfl
    next => exact h
  | disconnect =>
    exact ⟨_, rfl, h.setConnection (c := x.disconnect) hx ⟨hl.staged, hl.typed⟩ fun _ _ => rfl⟩
  | failed protocolError now => exact failed_inv h hx protocolError now

omit [DecidableEq C] in
/-- Requests to disconnect some of the connections. -/
theorem Inv.mapDisconnect (h : Inv s) {t : State U C} (hc : t.cqis = s.cqis) (hn : t.nextId = s.nextId)
    {f : UserConnection U → UserConnection U} (hf : ∀ c, f c = c ∨ f c = c.disconnect)
    (ht : t.userConnections = s.userConnections.map f) : Inv t := by
  apply h.disconnects hc hn
  rw [ht]
  exact List.forall₂_map_right_iff.mpr (List.forall₂_same.mpr fun c _ => hf c)

theorem step_inv (h : Inv s) (e : Event U C) (hm : Meets s e) : ∃ t, step s e = some t ∧ Inv t := by
  cases e with
  | getDownloadConnection token aUser =>
    refine ⟨_, rfl, ?_⟩
    rw [getDownloadConnection]
    split
    next hfind =>
      refine h.setItems (items_getCQI h.items hfind token) ?_
      funext type user
      by_cases hk : type = .DOWNLOAD ∧ user = some aUser
      · obtain ⟨rfl, rfl⟩ := hk
        have hnew := find_getCQI hfind token
        change (find (getCQI s token (some aUser) .DOWNLOAD) .DOWNLOAD (some aUser)).any _ =
          (find s .DOWNLOAD (some aUser)).any _
        rw [hfind, hnew]
        rfl
      · exact held_getCQI hfind token hk
    next => exact h
  | addToken token cid type => exact ⟨_, rfl, h.ids, h.fresh, h.legal, h.items, h.count⟩
  | nmdcExpect aNick aMyNick aHubUrl =>
    refine ⟨_, rfl, ?_⟩
    rw [nmdcExpect]
    split
    next => exact h
    next => exact ⟨h.ids, h.fresh, h.legal, h.items, h.count⟩
  | accept secure connected => exact ⟨_, rfl, getConnection_inv h false secure connected rfl ⟨rfl, rfl, rfl, rfl⟩ rfl⟩
  | nmdcConnect aNick hubUrl blocked secure connected =>
    refine ⟨_, rfl, ?_⟩
    rw [nmdcConnect]
    split
    next => exact h
    next => exact getConnection_inv h true secure connected rfl ⟨rfl, rfl, rfl, rfl⟩ rfl
  | adcConnect hubUrl aToken secure connected =>
    refine ⟨_, rfl, ?_⟩
    rw [adcConnect]
    split
    next => exact h
    next => exact getConnection_inv h false secure connected rfl ⟨rfl, rfl, rfl, rfl⟩ rfl
  | connection id e =>
    rw [step]
    split
    next => exact ⟨s, rfl, h⟩
    next c hx => exact handle_inv h hx e hm
  | force aUser => exact ⟨_, rfl, h.setItem fun _ => ⟨rfl, rfl, Iff.rfl⟩⟩
  | disconnectUser user =>
    refine ⟨_, rfl, h.mapDisconnect rfl rfl (fun c => ?_) rfl⟩
    split
    · exact Or.inr rfl
    · exact Or.inl rfl
  | disconnectType user type =>
    refine ⟨_, rfl, h.disconnects rfl rfl ?_⟩
    exact Keyed.forall₂_modifyFirst (R := fun a b : UserConnection U => b = a ∨ b = a.disconnect)
      (fun _ => Or.inl rfl) (fun _ _ => Or.inr rfl) s.userConnections
  | disconnectAll => exact ⟨_, rfl, h.mapDisconnect rfl rfl (fun _ => Or.inr rfl) rfl⟩
  | shutdown => exact ⟨_, rfl, h.mapDisconnect rfl rfl (fun _ => Or.inr rfl) rfl⟩
  | second tick => exact ⟨_, rfl, onSecond_inv h tick⟩
  | minute tick =>
    refine ⟨_, rfl, h.mapDisconnect rfl rfl (fun c => ?_) rfl⟩
    split
    · exact Or.inr rfl
    · exact Or.inl rfl

/-- The items and the connections account for each other in every run in which no associated
connection identifies itself again, and nothing in the run is undefined. -/
theorem run_accounted (events : List (Event U C)) (hm : Runs.Each step Meets start events) :
    ∃ t, run start events = some t ∧ Accounted t := by
  obtain ⟨t, ht, hinv⟩ := Runs.run_invariant (fun _ e h hm => step_inv h e hm) start_inv events hm
  exact ⟨t, ht, hinv.accounted⟩

def plainEnv : Env Unit Unit where
  requireTls := false
  enableCcpm := true
  isTrusted := false
  verifyKeyprint := true
  getCID := fun _ => ()
  ofBase32 := fun _ => ()
  makeCid := fun _ _ => ()
  findUser := fun _ => some ()
  isOnline := fun _ => true
  isTls := fun _ => true
  startDownload := true
  gotDownload := true
  token := str "1"

def supCommand : AdcCommand :=
  ⟨(byte 'S', byte 'U', byte 'P'), .CLIENT, 0, 0, [], [str "ADBASE", str "ADTIGR"]⟩

def infCommand : AdcCommand :=
  ⟨(byte 'I', byte 'N', byte 'F'), .CLIENT, 0, 0, [], [str "IDAAAA", str "TO7"]⟩

/-- A user connects to chat, with a token that is expected. -/
def chatRun : List (Event Unit Unit) :=
  [.addToken (str "7") () .PM, .accept true true, .connection 0 (.sup supCommand),
    .connection 0 (.inf plainEnv infCommand)]

theorem run_accounted_chat :
    ∃ t, run start (chatRun ++ [.connection 0 (.failed false 5)]) = some t ∧ Accounted t := by
  apply run_accounted
  refine Runs.each_cons trivial fun _ h₁ => ?_
  obtain rfl := Option.some.inj h₁
  refine Runs.each_cons trivial fun _ h₂ => ?_
  obtain rfl := Option.some.inj h₂
  refine Runs.each_cons trivial fun _ h₃ => ?_
  obtain rfl := Option.some.inj h₃
  refine Runs.each_cons (fun c hx ha => ?_) fun _ _ => Runs.each_cons trivial fun _ _ => Runs.each_nil _ _ _
  obtain rfl := Option.some.inj hx
  cases ha

/-- The user sends its INF again. -/
def repeatedRun : List (Event Unit Unit) := chatRun ++ [.connection 0 (.inf plainEnv infCommand)]

/-- The connection is put away, and its item stays. -/
theorem not_run_accounted :
    ¬∀ (events : List (Event Unit Unit)) t, run start events = some t → Accounted t := by
  intro h
  have hrun : (run start repeatedRun).any
      (fun t => t.userConnections.isEmpty && !(t.cqis .PM).isEmpty) = true := by decide
  obtain ⟨t, ht, hp⟩ := (Option.any_eq_true _ _).mp hrun
  rw [Bool.and_eq_true, List.isEmpty_iff, Bool.not_eq_true', List.isEmpty_eq_false_iff] at hp
  obtain ⟨cqi, hc⟩ := List.exists_mem_of_ne_nil _ hp.2
  have hone := (h repeatedRun t ht).one .PM cqi hc rfl
  rw [hp.1] at hone
  cases hone

end Dcpp.ConnectionManager
