import Dcpp.DownloadLife

-- Every download is on one connection, in the list and among those that are not put back.
namespace Dcpp.DownloadTracking

open QueueState QueueConsistent QueueInvariant QueueChanges QueueTransfers DownloadLife

variable {U V : Type}

/-- The downloads in the list are those of the connections, no two connections have the same one, and
they are those that were obtained and not returned. -/
structure Tracked (s : State U V) : Prop where
  held : ∀ id, id ∈ s.downloads ↔ ∃ i x, s.connection i = some x ∧ x.download = some id
  single : ∀ i j x y id, s.connection i = some x → s.connection j = some y → x.download = some id →
    y.download = some id → i = j
  ledger : (s.downloads ++ s.returned).Perm s.obtained
  once : s.obtained.Nodup
  live : s.queue.live.map Download.id = s.downloads
  user : ∀ i x, s.connection i = some x → ∀ d ∈ s.queue.live, x.download = some d.id → d.user = x.user
  fresh : ∀ id ∈ s.obtained, id < s.queue.nextId
  listening : ∀ i x, s.connection i = some x → x.download ≠ none → x.listening = true
  idle : ∀ i ∈ s.idlers, ∃ x, s.connection i = some x ∧ x.download = none ∧ x.listening = true ∧
    x.state = .STATE_IDLE
  idlers : s.idlers.Nodup
  bound : ∀ i, s.nextConnection ≤ i → s.connection i = none

/-- Where a connection may fire an event about its download, it has one. -/
structure Ready (x : UserConnection U) : Prop where
  snd : x.listening = true → x.state = .STATE_SND → x.download ≠ none
  data : x.listening = true → x.dataMode = true → x.state = .STATE_RUNNING ∧ x.download ≠ none

variable {s t : State U V} {i : Nat} {x : UserConnection U}

theorem modify_connection (hx : s.connection i = some x) (f : UserConnection U → UserConnection U) :
    (s.modify i f).connection = Function.update s.connection i (some (f x)) := by
  rw [State.modify, hx]
  rfl

theorem update_some {y z : UserConnection U} {j : Nat}
    (h : Function.update s.connection i (some y) j = some z) : j = i ∧ z = y ∨ j ≠ i ∧ s.connection j = some z := by
  by_cases hji : j = i
  · subst hji
    rw [Function.update_self] at h
    exact Or.inl ⟨rfl, (Option.some.inj h).symm⟩
  · rw [Function.update_of_ne hji] at h
    exact Or.inr ⟨hji, h⟩

theorem Tracked.downloads_nodup (h : Tracked s) : s.downloads.Nodup :=
  (List.nodup_append.mp (h.ledger.nodup_iff.mpr h.once)).1

theorem tracked_empty : Tracked (State.empty : State U V) where
  held _ := ⟨nofun, nofun⟩
  single _ _ _ _ _ h := nomatch h
  ledger := .nil
  once := .nil
  live := rfl
  user _ _ h := nomatch h
  fresh _ h := nomatch h
  listening _ _ h := nomatch h
  idle _ h := nomatch h
  idlers := .nil
  bound _ _ := rfl

/-- A connection changes, but not its download. -/
theorem Tracked.modify (h : Tracked s) (hx : s.connection i = some x)
    {f : UserConnection U → UserConnection U} (hd : (f x).download = x.download) (hu : (f x).user = x.user)
    (hl : (f x).download ≠ none → (f x).listening = true)
    (hi : i ∈ s.idlers → (f x).listening = x.listening ∧ (f x).state = x.state) : Tracked (s.modify i f) := by
  have hconn := modify_connection hx f
  have hback {j : Nat} {z : UserConnection U} (hz : (s.modify i f).connection j = some z) :
      ∃ y, s.connection j = some y ∧ z.download = y.download ∧ z.user = y.user := by
    rw [hconn] at hz
    obtain ⟨rfl, rfl⟩ | ⟨-, hz⟩ := update_some hz
    · exact ⟨x, hx, hd, hu⟩
    · exact ⟨z, hz, rfl, rfl⟩
  have hforth {j : Nat} {y : UserConnection U} (hy : s.connection j = some y) :
      ∃ z, (s.modify i f).connection j = some z ∧ z.download = y.download := by
    rw [hconn]
    by_cases hji : j = i
    · subst hji
      obtain rfl := Option.some.inj (hx.symm.trans hy)
      exact ⟨f x, Function.update_self .., hd⟩
    · exact ⟨y, (Function.update_of_ne hji ..).trans hy, rfl⟩
  refine ⟨fun id => (h.held id).trans ⟨?_, ?_⟩, ?_, h.ledger, h.once, h.live, ?_, h.fresh, ?_, ?_, h.idlers, ?_⟩
  · rintro ⟨j, y, hy, hid⟩
    obtain ⟨z, hz, hzd⟩ := hforth hy
    exact ⟨j, z, hz, hzd.trans hid⟩
  · rintro ⟨j, z, hz, hid⟩
    obtain ⟨y, hy, hzd, -⟩ := hback hz
    exact ⟨j, y, hy, hzd.symm.trans hid⟩
  · intro j k y z id hy hz hyd hzd
    obtain ⟨y', hy', hyd', -⟩ := hback hy
    obtain ⟨z', hz', hzd', -⟩ := hback hz
    exact h.single j k y' z' id hy' hz' (hyd'.symm.trans hyd) (hzd'.symm.trans hzd)
  · intro j z hz d hd hid
    obtain ⟨y, hy, hzd, hzu⟩ := hback hz
    exact (h.user j y hy d hd (hzd.symm.trans hid)).trans hzu.symm
  · intro j z hz hsome
    rw [hconn] at hz
    obtain ⟨rfl, rfl⟩ | ⟨-, hz⟩ := update_some hz
    · exact hl hsome
    · exact h.listening j z hz hsome
  · intro j hj
    obtain ⟨y, hy, hyd, hyl, hys⟩ := h.idle j hj
    rw [hconn]
    by_cases hji : j = i
    · subst hji
      obtain rfl := Option.some.inj (hx.symm.trans hy)
      obtain ⟨hl', hs'⟩ := hi hj
      exact ⟨f x, Function.update_self .., hd.trans hyd, hl'.trans hyl, hs'.trans hys⟩
    · exact ⟨y, (Function.update_of_ne hji ..).trans hy, hyd, hyl, hys⟩
  · intro j hj
    have hji : j ≠ i := fun hji => by
      rw [← hji, h.bound j hj] at hx
      cases hx
    rw [hconn, Function.update_of_ne hji]
    exact h.bound j hj

theorem map_id_eraseP (live : List (Download U)) (k : Nat) (hn : (live.map Download.id).Nodup) :
    (live.eraseP fun d => d.id == k).map Download.id = (live.map Download.id).filter fun id => id ≠ k := by
  induction live with
  | nil => rfl
  | cons d live ih =>
    rw [List.map_cons, List.nodup_cons] at hn
    rw [List.map_cons]
    by_cases hk : d.id = k
    · rw [List.eraseP_cons_of_pos (p := fun d : Download U => d.id == k) (beq_iff_eq.mpr hk),
        List.filter_cons_of_neg (by simpa using hk), List.filter_eq_self.mpr]
      intro id hid
      have hne : id ≠ k := fun heq => hn.1 (hk.trans heq.symm ▸ hid)
      simpa using hne
    · rw [List.eraseP_cons_of_neg (p := fun d : Download U => d.id == k) (by simpa using hk),
        List.filter_cons_of_pos (by simpa using hk), List.map_cons, ih hn.2]

/-- The download of a connection is put back. -/
theorem Tracked.put (h : Tracked s) (hx : s.connection i = some x) {d : Download U}
    (hd : x.download = some d.id) {queue : QueueState U V}
    (hlive : queue.live = s.queue.live.eraseP fun e => e.id == d.id) (hid : s.queue.nextId ≤ queue.nextId) :
    Tracked { s.modify i fun x => { x with download := none } with
      queue := queue
      downloads := s.downloads.filter fun id => id ≠ d.id
      returned := s.returned ++ [d.id] } := by
  have hconn := modify_connection hx fun x => { x with download := none }
  have hmem : d.id ∈ s.downloads := (h.held d.id).mpr ⟨i, x, hx, hd⟩
  -- the other connections, and their downloads, are as before
  have hback {j : Nat} {z : UserConnection U}
      (hz : (s.modify i fun x => { x with download := none }).connection j = some z) (hsome : z.download ≠ none) : j ≠ i ∧ s.connection j = some z := by
    rw [hconn] at hz
    obtain ⟨rfl, rfl⟩ | hz := update_some hz
    · exact absurd rfl hsome
    · exact hz
  have hforth {j : Nat} {y : UserConnection U} (hy : s.connection j = some y) (hji : j ≠ i) :
      (s.modify i fun x => { x with download := none }).connection j = some y := by
    rw [hconn, Function.update_of_ne hji]
    exact hy
  have hsome {z : UserConnection U} {id : Nat} (hz : z.download = some id) : z.download ≠ none := by
    rw [hz]
    exact Option.some_ne_none id
  refine ⟨fun id => ?_, ?_, ?_, h.once, ?_, ?_, fun id hmem => (h.fresh id hmem).trans_le hid, ?_, ?_, h.idlers, ?_⟩
  · dsimp only
    rw [List.mem_filter, h.held id]
    constructor
    · rintro ⟨⟨j, y, hy, hyd⟩, hne⟩
      have hji : j ≠ i := fun hji => by
        subst hji
        obtain rfl := Option.some.inj (hx.symm.trans hy)
        exact of_decide_eq_true hne (Option.some.inj (hyd.symm.trans hd))
      exact ⟨j, y, hforth hy hji, hyd⟩
    · rintro ⟨j, z, hz, hzd⟩
      obtain ⟨hji, hz⟩ := hback hz (hsome hzd)
      exact ⟨⟨j, z, hz, hzd⟩, decide_eq_true fun heq => hji (h.single j i z x id hz hx hzd (heq ▸ hd))⟩
  · intro j k y z id hy hz hyd hzd
    exact h.single j k y z id (hback hy (hsome hyd)).2 (hback hz (hsome hzd)).2 hyd hzd
  · have herase : s.downloads.filter (fun id => id ≠ d.id) = s.downloads.erase d.id := by
      rw [h.downloads_nodup.erase_eq_filter]
      congr 1
      funext id
      exact decide_not.trans rfl
    dsimp only
    rw [herase, ← List.append_assoc]
    have hcons : (d.id :: s.downloads.erase d.id).Perm s.downloads := (List.perm_cons_erase hmem).symm
    exact (List.perm_append_singleton _ _).trans ((hcons.append_right s.returned).trans h.ledger)
  · dsimp only
    rw [hlive, map_id_eraseP _ _ (h.live.symm ▸ h.downloads_nodup), h.live]
  · intro j z hz e he hzd
    dsimp only at he
    rw [hlive] at he
    exact h.user j z (hback hz (hsome hzd)).2 e (List.mem_of_mem_eraseP he) hzd
  · intro j z hz hne
    exact h.listening j z (hback hz hne).2 hne
  · intro j hj
    obtain ⟨y, hy, hyd, hyl, hys⟩ := h.idle j hj
    have hji : j ≠ i := fun hji => by
      subst hji
      obtain rfl := Option.some.inj (hx.symm.trans hy)
      rw [hd] at hyd
      cases hyd
    exact ⟨y, hforth hy hji, hyd, hyl, hys⟩
  · intro j hj
    have hji : j ≠ i := fun hji => by
      rw [← hji, h.bound j hj] at hx
      cases hx
    dsimp only
    rw [hconn, Function.update_of_ne hji]
    exact h.bound j hj

/-- A connection without a download obtains one. -/
theorem Tracked.request (h : Tracked s) (hx : s.connection i = some x) (hnone : x.download = none)
    (hl : x.listening = true) (hi : i ∉ s.idlers) {d : Download U} (hid : d.id = s.queue.nextId)
    (hu : d.user = x.user) {queue : QueueState U V} (hlive : queue.live = s.queue.live ++ [d])
    (hnext : queue.nextId = s.queue.nextId + 1) :
    Tracked { s.modify i fun x => { x with state := .STATE_SND, download := some s.queue.nextId } with
      queue := queue
      downloads := s.downloads ++ [s.queue.nextId]
      obtained := s.obtained ++ [s.queue.nextId] } := by
  have hconn := modify_connection hx fun x => { x with state := .STATE_SND, download := some s.queue.nextId }
  have hfresh : ∀ id ∈ s.downloads, id < s.queue.nextId := fun id hid =>
    h.fresh id (h.ledger.subset (List.mem_append_left _ hid))
  have hback {j : Nat} {z : UserConnection U} (hz : (s.modify i fun x =>
      { x with state := .STATE_SND, download := some s.queue.nextId }).connection j = some z) :
      j = i ∧ z = { x with state := .STATE_SND, download := some s.queue.nextId } ∨
        j ≠ i ∧ s.connection j = some z := by
    rw [hconn] at hz
    exact update_some hz
  have hforth {j : Nat} {y : UserConnection U} (hy : s.connection j = some y) (hji : j ≠ i) :
      (s.modify i fun x => { x with state := .STATE_SND, download := some s.queue.nextId }).connection j = some y := by
    rw [hconn, Function.update_of_ne hji]
    exact hy
  have hlt {j : Nat} {y : UserConnection U} {id : Nat} (hy : s.connection j = some y) (hyd : y.download = some id) :
      id < s.queue.nextId := hfresh id ((h.held id).mpr ⟨j, y, hy, hyd⟩)
  refine ⟨fun id => ?_, ?_, ?_, ?_, ?_, ?_, fun id hmem => ?_, ?_, ?_, h.idlers, ?_⟩
  · dsimp only
    rw [List.mem_append, List.mem_singleton, h.held id]
    constructor
    · rintro (⟨j, y, hy, hyd⟩ | rfl)
      · have hji : j ≠ i := fun hji => by
          subst hji
          obtain rfl := Option.some.inj (hx.symm.trans hy)
          rw [hnone] at hyd
          cases hyd
        exact ⟨j, y, hforth hy hji, hyd⟩
      · exact ⟨i, _, (congrFun hconn i).trans (Function.update_self ..), rfl⟩
    · rintro ⟨j, z, hz, hzd⟩
      obtain ⟨-, rfl⟩ | ⟨-, hz⟩ := hback hz
      · exact Or.inr (Option.some.inj hzd).symm
      · exact Or.inl ⟨j, z, hz, hzd⟩
  · intro j k y z id hy hz hyd hzd
    obtain ⟨hji, rfl⟩ | ⟨-, hy'⟩ := hback hy
    · obtain ⟨hki, -⟩ | ⟨-, hz'⟩ := hback hz
      · exact hji.trans hki.symm
      · exact absurd (Option.some.inj hyd) (hlt hz' hzd).ne'
    · obtain ⟨-, rfl⟩ | ⟨-, hz'⟩ := hback hz
      · exact absurd (Option.some.inj hzd) (hlt hy' hyd).ne'
      · exact h.single j k y z id hy' hz' hyd hzd
  · dsimp only
    rw [List.append_assoc]
    refine (List.perm_append_comm.append_left s.downloads).trans ?_
    rw [← List.append_assoc]
    exact h.ledger.append_right _
  · refine List.nodup_append.mpr ⟨h.once, List.nodup_singleton _, fun id hid k hk heq => ?_⟩
    rw [List.mem_singleton] at hk
    exact (h.fresh id hid).ne (heq.trans hk)
  · dsimp only
    rw [hlive, List.map_append, h.live, List.map_singleton, hid]
  · intro j z hz e he hzd
    dsimp only at he
    rw [hlive, List.mem_append, List.mem_singleton] at he
    obtain ⟨rfl, rfl⟩ | ⟨-, hz⟩ := hback hz
    · obtain he | rfl := he
      · have hmem : e.id ∈ s.downloads := h.live ▸ List.mem_map_of_mem he
        exact absurd (Option.some.inj hzd) (hfresh _ hmem).ne'
      · exact hu
    · obtain he | rfl := he
      · exact h.user j z hz e he hzd
      · exact absurd hid (hlt hz hzd).ne
  · dsimp only at hmem
    rw [List.mem_append, List.mem_singleton] at hmem
    dsimp only
    rw [hnext]
    obtain hmem | rfl := hmem
    · exact Nat.lt_succ_of_lt (h.fresh id hmem)
    · exact Nat.lt_succ_self _
  · intro j z hz hne
    obtain ⟨rfl, rfl⟩ | ⟨-, hz⟩ := hback hz
    · exact hl
    · exact h.listening j z hz hne
  · intro j hj
    obtain ⟨y, hy, hrest⟩ := h.idle j hj
    exact ⟨y, hforth hy (fun hji => hi (hji ▸ hj)), hrest⟩
  · intro j hj
    have hji : j ≠ i := fun hji => by
      rw [← hji, h.bound j hj] at hx
      cases hx
    dsimp only
    rw [hconn, Function.update_of_ne hji]
    exact h.bound j hj

/-- A connection is left idle, as there is nothing to download. -/
theorem Tracked.idled (h : Tracked s) (hx : s.connection i = some x) (hnone : x.download = none)
    (hl : x.listening = true) (hi : i ∉ s.idlers) :
    Tracked { s.modify i fun x => { x with state := .STATE_IDLE } with idlers := s.idlers ++ [i] } := by
  have hmod := h.modify hx (f := fun x => { x with state := .STATE_IDLE }) rfl rfl (fun hne => absurd hnone hne)
    (fun hi' => absurd hi' hi)
  refine ⟨hmod.held, hmod.single, hmod.ledger, hmod.once, hmod.live, hmod.user, hmod.fresh, hmod.listening, ?_, ?_,
    hmod.bound⟩
  · intro j hj
    rw [List.mem_append, List.mem_singleton] at hj
    obtain hj | rfl := hj
    · exact hmod.idle j hj
    · refine ⟨{ x with state := .STATE_IDLE }, ?_, hnone, hl, rfl⟩
      exact (congrFun (modify_connection hx _) j).trans (Function.update_self ..)
  · refine List.nodup_append.mpr ⟨h.idlers, List.nodup_singleton _, fun j hj k hk heq => hi ?_⟩
    rw [List.mem_singleton] at hk
    exact hk ▸ heq ▸ hj

/-- The queue goes on, with the same downloads. -/
theorem Tracked.queue (h : Tracked s) {queue : QueueState U V} (hq : SameLive s.queue queue) :
    Tracked { s with queue := queue } := by
  refine ⟨h.held, h.single, h.ledger, h.once, ?_, ?_, fun id hid => (h.fresh id hid).trans_le hq.nextId, h.listening,
    h.idle, h.idlers, h.bound⟩
  · exact (congrArg _ hq.live).trans h.live
  · intro j y hy d hd hyd
    exact h.user j y hy d (hq.live ▸ hd) hyd

/-- Connections that are not there, or no longer, are forgotten by the list of idlers. -/
theorem Tracked.sublist (h : Tracked s) {idlers : List Nat} (hs : idlers.Sublist s.idlers) :
    Tracked { s with idlers := idlers } :=
  ⟨h.held, h.single, h.ledger, h.once, h.live, h.user, h.fresh, h.listening, fun j hj => h.idle j (hs.subset hj),
    h.idlers.sublist hs, h.bound⟩

/-- A connection comes. -/
theorem Tracked.add (h : Tracked s) {x : UserConnection U} (hnone : x.download = none) : Tracked { s with
    connection := Function.update s.connection s.nextConnection (some x)
    nextConnection := s.nextConnection + 1 } := by
  have hne {j : Nat} {y : UserConnection U} (hy : s.connection j = some y) : j ≠ s.nextConnection := fun hj => by
    rw [h.bound j hj.ge] at hy
    cases hy
  have hback {j : Nat} {z : UserConnection U} (hz : Function.update s.connection s.nextConnection (some x) j = some z)
      (hsome : z.download ≠ none) : s.connection j = some z := by
    obtain ⟨-, rfl⟩ | ⟨-, hz⟩ := update_some hz
    · exact absurd hnone hsome
    · exact hz
  have hforth {j : Nat} {y : UserConnection U} (hy : s.connection j = some y) :
      Function.update s.connection s.nextConnection (some x) j = some y :=
    (Function.update_of_ne (hne hy) ..).trans hy
  have hsome {z : UserConnection U} {id : Nat} (hz : z.download = some id) : z.download ≠ none := by
    rw [hz]
    exact Option.some_ne_none id
  refine ⟨fun id => (h.held id).trans ⟨?_, ?_⟩, ?_, h.ledger, h.once, h.live, ?_, h.fresh, ?_, ?_, h.idlers, ?_⟩
  · rintro ⟨j, y, hy, hyd⟩
    exact ⟨j, y, hforth hy, hyd⟩
  · rintro ⟨j, z, hz, hzd⟩
    exact ⟨j, z, hback hz (hsome hzd), hzd⟩
  · intro j k y z id hy hz hyd hzd
    exact h.single j k y z id (hback hy (hsome hyd)) (hback hz (hsome hzd)) hyd hzd
  · intro j z hz d hd hzd
    exact h.user j z (hback hz (hsome hzd)) d hd hzd
  · intro j z hz hne
    exact h.listening j z (hback hz hne) hne
  · intro j hj
    obtain ⟨y, hy, hrest⟩ := h.idle j hj
    exact ⟨y, hforth hy, hrest⟩
  · intro j hj
    have hj' : s.nextConnection < j := hj
    exact (Function.update_of_ne hj'.ne' ..).trans (h.bound j hj'.le)

end Dcpp.DownloadTracking
