import Dcpp.DownloadTracking

-- What the handlers of the `DownloadManager` do, and what holds in all its runs.
namespace Dcpp.DownloadLifeCycle

open QueueState QueueConsistent QueueSteps QueueInvariant QueueChanges QueueTransfers DownloadLife DownloadTracking

section Safely

variable {α β : Type} {A : Prop} {P : α → Prop} {Q : β → Prop}

/-- Nothing but the queue is ever undefined, and the queue only if `A` does not hold. -/
def Safely (A : Prop) (P : α → Prop) : Except Fault α → Prop
  | .ok a => P a
  | .error f => f = .undefined ∧ ¬A

theorem Safely.bind {e : Except Fault α} {f : α → Except Fault β} (h : Safely A P e)
    (hf : ∀ a, P a → Safely A Q (f a)) : Safely A Q (e >>= f) := by
  cases e with
  | ok a => exact hf a h
  | error => exact h

theorem Safely.mono {P' : α → Prop} {e : Except Fault α} (h : Safely A P e) (hP : ∀ a, P a → P' a) :
    Safely A P' e := by
  cases e with
  | ok a => exact hP a h
  | error => exact h

theorem safely_map {e : Except Fault α} {f : α → β} (h : Safely A (fun a => Q (f a)) e) : Safely A Q (f <$> e) := by
  cases e with
  | ok a => exact h
  | error => exact h

theorem safely_defined {o : Option α} (hA : A → ∃ a, o = some a) (hP : ∀ a, o = some a → P a) :
    Safely A P (defined o) := by
  cases o with
  | none => exact ⟨rfl, fun h => nomatch hA h⟩
  | some a => exact hP a rfl

end Safely

variable {U V : Type} [DecidableEq U]

/-- What holds besides while the queue meets its conditions: its indexes agree, items run for the users of
their downloads, and the connections that are listened to are of different users. -/
structure Good (c : Settings) (s : State U V) : Prop where
  consistent : Consistent c s.queue
  attachments : Attachments s.queue.live s.queue
  users : ∀ i j x y, s.connection i = some x → s.connection j = some y → x.listening = true →
    y.listening = true → x.user = y.user → i = j

/-- The downloads in progress stay attached, but where `P` lets them go or the item is gone. -/
structure Stays (P : Nat → U → Prop) (s t : State U V) : Prop where
  keeps : ∀ a d, Attached s.queue a d → d.id ∈ t.downloads →
    Attached t.queue a d ∨ t.queue.item a = none ∨ P a d.user
  gone : ∀ a < s.queue.nextId, s.queue.item a = none → t.queue.item a = none

/-- What the handlers do for a connection. -/
structure Handled (A : Prop) (c : Settings) (P : Nat → U → Prop) (i : Nat) (s t : State U V) : Prop where
  tracked : Tracked t
  others : ∀ j, j ≠ i → t.connection j = s.connection j
  requested : ∀ id ∈ t.downloads, id ∈ s.downloads ∨
    s.queue.nextId ≤ id ∧ ∃ a d, d.id = id ∧ Attached t.queue a d
  nextId : s.queue.nextId ≤ t.queue.nextId
  good : A → Good c t ∧ Stays P s t

variable {A : Prop} {c : DownloadSettings} {P : Nat → U → Prop} {s t r : State U V} {i : Nat} {x : UserConnection U}

omit [DecidableEq U] in
theorem Tracked.id_lt (h : Tracked s) {d : Download U} (hd : d ∈ s.queue.live) : d.id < s.queue.nextId :=
  h.fresh d.id (h.ledger.subset (List.mem_append_left _ (h.live ▸ List.mem_map_of_mem hd)))

omit [DecidableEq U] in
theorem Stays.trans (hr : ∀ id ∈ t.downloads, id ∈ r.downloads ∨ r.queue.nextId ≤ id) (hs : Tracked s)
    (ha : Attachments s.queue.live s.queue) (hn : s.queue.nextId ≤ r.queue.nextId) (h : Stays P s r)
    (h' : Stays P r t) : Stays P s t := by
  refine ⟨fun a d hd hid => ?_, fun a hlt hnone => h'.gone a (hlt.trans_le hn) (h.gone a hlt hnone)⟩
  obtain ⟨q, hq, hmem⟩ := id hd
  have hlt := (Tracked.id_lt hs (ha.listed a q hq d hmem)).trans_le hn
  have hid' : d.id ∈ r.downloads := (hr d.id hid).resolve_right (Nat.not_le.mpr hlt)
  obtain hd' | hnone | hP := h.keeps a d hd hid'
  · exact h'.keeps a d hd' hid
  · refine Or.inr (Or.inl (h'.gone a ?_ hnone))
    refine (Nat.not_le.mp fun hle => ?_).trans_le hn
    rw [ha.fresh a hle] at hq
    cases hq
  · exact Or.inr (Or.inr hP)

omit [DecidableEq U] in
/-- After a part that requests nothing. -/
theorem Handled.trans (hs : Tracked s) (hA : A → Good c.queue s) (hsub : ∀ id ∈ r.downloads, id ∈ s.downloads)
    (h : Handled A c.queue P i s r) (h' : Handled A c.queue P i r t) : Handled A c.queue P i s t := by
  refine ⟨h'.tracked, fun j hj => (h'.others j hj).trans (h.others j hj), fun id hid => ?_,
    h.nextId.trans h'.nextId, fun ha => ⟨(h'.good ha).1, ?_⟩⟩
  · obtain hid' | ⟨hle, hnew⟩ := h'.requested id hid
    · exact Or.inl (hsub id hid')
    · exact Or.inr ⟨h.nextId.trans hle, hnew⟩
  · exact Stays.trans (fun id hid => (h'.requested id hid).imp_right And.left) hs (hA ha).attachments h.nextId
      (h.good ha).2 (h'.good ha).2

omit [DecidableEq U] in
theorem stays_of_queue (h : t.queue = s.queue) : Stays P s t :=
  ⟨fun _ _ hd _ => Or.inl (h ▸ hd), fun _ _ hnone => h ▸ hnone⟩

omit [DecidableEq U] in
theorem find_live (h : Tracked s) {d : Download U} (hd : d ∈ s.queue.live) :
    (s.queue.live.find? fun e => e.id == d.id) = some d := by
  have hn : (s.queue.live.map Download.id).Nodup := h.live ▸ h.downloads_nodup
  obtain ⟨e, he⟩ := Option.isSome_iff_exists.mp
    (List.find?_isSome (p := fun e : Download U => e.id == d.id).mpr ⟨d, hd, beq_self_eq_true _⟩)
  have hid : e.id = d.id := beq_iff_eq.mp (List.find?_some (p := fun e : Download U => e.id == d.id) he)
  rw [he, List.inj_on_of_nodup_map hn (List.mem_of_find?_eq_some he) hd hid]

omit [DecidableEq U] in
/-- A download that a connection has can be used. -/
theorem getDownload_ok (h : Tracked s) (hx : s.connection i = some x) (hsome : x.download ≠ none) :
    ∃ d ∈ s.queue.live, x.download = some d.id ∧ s.getDownload i = .ok (x, d) := by
  obtain ⟨id, hid⟩ := Option.ne_none_iff_exists'.mp hsome
  have hmem : id ∈ s.queue.live.map Download.id := h.live ▸ (h.held id).mpr ⟨i, x, hx, hid⟩
  obtain ⟨d, hd, rfl⟩ := List.mem_map.mp hmem
  refine ⟨d, hd, hid, ?_⟩
  rw [State.getDownload, hx]
  dsimp only
  rw [hid]
  dsimp only
  rw [find_live h hd]

omit [DecidableEq U] in
/-- A user has at most one download. -/
theorem only (h : Tracked s) (hg : Good c.queue s) {d e : Download U} (hd : d ∈ s.queue.live)
    (he : e ∈ s.queue.live) (hu : e.user = d.user) : e = d := by
  have hheld {d : Download U} (hd : d ∈ s.queue.live) : ∃ i x, s.connection i = some x ∧ x.download = some d.id :=
    (h.held d.id).mp (h.live ▸ List.mem_map_of_mem hd)
  have hlisten {i : Nat} {x : UserConnection U} {id : Nat} (hx : s.connection i = some x) (hid : x.download = some id) :
      x.listening = true := by
    refine h.listening i x hx ?_
    rw [hid]
    exact Option.some_ne_none id
  obtain ⟨i, x, hx, hxd⟩ := hheld hd
  obtain ⟨j, y, hy, hyd⟩ := hheld he
  have huser : y.user = x.user := by
    rw [← h.user j y hy e he hyd, hu, h.user i x hx d hd hxd]
  obtain rfl := hg.users j i y x hy hx (hlisten hy hyd) (hlisten hx hxd) huser
  obtain rfl := Option.some.inj (hx.symm.trans hy)
  have hid : e.id = d.id := Option.some.inj (hyd.symm.trans hxd)
  exact List.inj_on_of_nodup_map (h.live ▸ h.downloads_nodup) he hd hid

omit [DecidableEq U] in
theorem Good.modify (hg : Good c.queue s) (hx : s.connection i = some x) {f : UserConnection U → UserConnection U}
    (hu : (f x).user = x.user) (hl : (f x).listening = true → x.listening = true) {t : State U V}
    (ht : t.connection = (s.modify i f).connection) (hc : Consistent c.queue t.queue)
    (ha : Attachments t.queue.live t.queue) : Good c.queue t := by
  have hback {j : Nat} {z : UserConnection U} (hz : t.connection j = some z) (hlz : z.listening = true) :
      ∃ y, s.connection j = some y ∧ y.listening = true ∧ y.user = z.user := by
    rw [ht, modify_connection hx] at hz
    obtain ⟨rfl, rfl⟩ | ⟨-, hz⟩ := update_some hz
    · exact ⟨x, hx, hl hlz, hu.symm⟩
    · exact ⟨z, hz, hlz, rfl⟩
  refine ⟨hc, ha, fun j k y z hy hz hly hlz hyz => ?_⟩
  obtain ⟨y', hy', hly', hyu⟩ := hback hy hly
  obtain ⟨z', hz', hlz', hzu⟩ := hback hz hlz
  exact hg.users j k y' z' hy' hz' hly' hlz' (hyu.trans (hyz.trans hzu.symm))

/-- What is left when the download of a connection is put back. -/
structure Released (A : Prop) (c : Settings) (P : Nat → U → Prop) (i : Nat) (x : UserConnection U)
    (s t : State U V) : Prop extends Handled A c P i s t where
  connection : t.connection i = some { x with download := none }
  downloads : ∀ id ∈ t.downloads, id ∈ s.downloads
  idlers : t.idlers = s.idlers

/-- The download is put back, perhaps after the queue has gone on. -/
theorem putDownload_safely (h : Tracked s) (hx : s.connection i = some x) {d : Download U}
    (hmem : d ∈ s.queue.live) (hd : x.download = some d.id) {queue : QueueState U V}
    (hlive : SameLive s.queue queue) {pos : Int} {finished crcOk : Bool}
    (hA : A → Good c.queue s ∧ Consistent c.queue queue ∧ Attachments queue.live queue ∧
      Evolves (fun _ u => u = d.user) s.queue queue ∧
      ∀ a q, queue.find c.queue d.path = some a → queue.item a = some q → PutMeets q d pos finished crcOk)
    (hP : ∀ a u, finished = true → queue.find c.queue d.path = some a → Completes queue d a → P a u) :
    Safely A (Released A c.queue P i x s)
      (putDownload c { removeDownload s d with queue := queue } i d pos finished crcOk) := by
  have hfind : (queue.live.find? fun e => e.id == d.id) = some d := by
    rw [hlive.live]
    exact find_live h hmem
  rw [putDownload]
  refine (safely_defined (P := fun q => QueueManager.putDownload c.queue queue d.id pos finished crcOk = some q)
    (fun ha => ?_) fun q hq => hq).bind fun q hq => ?_
  · obtain ⟨-, hc, -, -, hm⟩ := hA ha
    obtain ⟨q, hq, -⟩ := putDownload_consistent hc d.id pos finished crcOk fun e a q he hfinde hitem => by
      obtain rfl := Option.some.inj (hfind.symm.trans he)
      exact hm a q hfinde hitem
    exact ⟨q, hq⟩
  · have hsame := putDownload_sameLive hq
    have hqlive : q.live = s.queue.live.eraseP fun e => e.id == d.id := hsame.live.trans (congrArg _ hlive.live)
    have htracked := h.put hx hd hqlive (hlive.nextId.trans hsame.nextId)
    refine ⟨⟨htracked, fun j hj => ?_, fun id hid => Or.inl (List.mem_of_mem_filter hid),
      hlive.nextId.trans hsame.nextId, fun ha => ?_⟩, ?_, fun id hid => List.mem_of_mem_filter hid, rfl⟩
    · exact (congrFun (modify_connection hx _) j).trans (Function.update_of_ne hj ..)
    · obtain ⟨hg, hc, hat, hev, hm⟩ := hA ha
      have hone : ∀ b e, Attached queue b e → e.user = d.user → e = d := by
        rintro b e ⟨y, hy, he⟩ hu
        exact only h hg hmem (hlive.live ▸ hat.listed b y hy e he) hu
      obtain ⟨hwithin, hfree⟩ := putDownload_within hc hat hfind hone hm hq
      obtain ⟨q', hq', hcq⟩ := putDownload_consistent hc d.id pos finished crcOk fun e a y he hfinde hitem => by
        obtain rfl := Option.some.inj (hfind.symm.trans he)
        exact hm a y hfinde hitem
      obtain rfl := Option.some.inj (hq.symm.trans hq')
      have hstart : Attachments queue.live { queue with live := queue.live.eraseP fun e => e.id == d.id } :=
        ⟨hat.fresh, hat.path, hat.users, hat.running, hat.listed⟩
      have hend := changes_attachments hwithin hstart
      -- only the download itself is no longer live, and it is attached to nothing
      have hatq : Attachments q.live q := by
        refine ⟨hend.fresh, hend.path, hend.users, hend.running, fun b y hy e he => ?_⟩
        rw [hsame.live]
        refine (List.mem_eraseP_of_neg fun hid => ?_).mpr (hend.listed b y hy e he)
        have hed : e = d := List.inj_on_of_nodup_map (h.live ▸ h.downloads_nodup)
          (hlive.live ▸ hend.listed b y hy e he) hmem (beq_iff_eq.mp hid)
        exact hfree b e ⟨y, hy, he⟩ (congrArg Download.user hed)
      refine ⟨hg.modify hx rfl (fun hl => hl) rfl hcq hatq, fun a e he hid => ?_, fun a hlt hnone => ?_⟩
      · obtain ⟨y, hy, hemem⟩ := id he
        have hne : e.user ≠ d.user := fun hu => by
          obtain rfl := only h hg hmem (hg.attachments.listed a y hy e hemem) hu
          exact of_decide_eq_true (List.mem_filter.mp hid).2 rfl
        have hev' := evolves_of_within hstart hwithin
        obtain he' | hnone | hu := hev.keeps a e he
        · obtain he' | hnone | hu | ⟨hfin, hfinda, hcomplete⟩ := hev'.keeps a e he'
          · exact Or.inl he'
          · exact Or.inr (Or.inl hnone)
          · exact absurd hu hne
          · exact Or.inr (Or.inr (hP a e.user hfin hfinda hcomplete))
        · refine Or.inr (Or.inl (hev'.gone a ?_ hnone))
          refine (Nat.not_le.mp fun hle => ?_).trans_le hev.nextId
          rw [hg.attachments.fresh a hle] at hy
          cases hy
        · exact absurd hu hne
      · exact (evolves_of_within hstart hwithin).gone a (hlt.trans_le hev.nextId) (hev.gone a hlt hnone)
    · exact (congrFun (modify_connection hx _) i).trans (Function.update_self ..)

omit [DecidableEq U] in
/-- A connection without a download is let go. -/
theorem removeConnection_handled (h : Tracked s) (hA : A → Good c.queue s) (hx : s.connection i = some x)
    (hnone : x.download = none) (hi : i ∉ s.idlers) : Handled A c.queue P i s (removeConnection s i) ∧
      (removeConnection s i).connection i = some { x with listening := false } := by
  have htracked := h.modify hx (f := fun x => { x with listening := false }) rfl rfl
    (fun hne => absurd hnone hne) (fun hi' => absurd hi' hi)
  refine ⟨⟨htracked, fun j hj => ?_, fun id hid => Or.inl hid, le_rfl, fun ha => ⟨?_, stays_of_queue rfl⟩⟩, ?_⟩
  · exact (congrFun (modify_connection hx _) j).trans (Function.update_of_ne hj ..)
  · exact (hA ha).modify hx (f := fun x => { x with listening := false }) rfl nofun rfl (hA ha).consistent
      (hA ha).attachments
  · exact (congrFun (modify_connection hx _) i).trans (Function.update_self ..)

/-- A connection after `checkDownloads`. -/
structure Checked (x y : UserConnection U) : Prop where
  dataMode : y.listening = true → y.dataMode = x.dataMode
  snd : y.listening = true → y.state = .STATE_SND → y.download ≠ none

omit [DecidableEq U] in
theorem hasDownload_some {c : Settings} {s : QueueState U V} (h : Consistent c s) (blockSizeOf : V → Int) (u : U) :
    ∃ prio, hasDownload c blockSizeOf s u = some prio := by
  have hlive : ∀ a ∈ UserQueue.entries s u .LOWEST, s.item a ≠ none := by
    intro a ha hnone
    obtain ⟨q, hq, -⟩ := (RemoveSource.mem_entries h).mp ha
    rw [hnone] at hq
    cases hq
  obtain ⟨r, hr, -, hsome⟩ := RemoveSource.firstEligible_spec (c := c.segments) blockSizeOf 0 hlive
  have hnext : UserQueue.getNext c.segments blockSizeOf s u .LOWEST 0 = some r := hr
  rw [hasDownload, hnext, Option.bind_some]
  cases r with
  | none => exact ⟨_, rfl⟩
  | some a =>
    obtain ⟨-, q, hq, -⟩ := hsome a rfl
    exact ⟨q.priority, by dsimp only; rw [hq]; rfl⟩

theorem checkDownloads_safely (r : Request V) (h : Tracked s) (hA : A → Good c.queue s)
    (hx : s.connection i = some x) (hnone : x.download = none) (hl : x.listening = true) (hi : i ∉ s.idlers) :
    Safely A (fun t => Handled A c.queue P i s t ∧ ∃ y, t.connection i = some y ∧ Checked x y)
      (checkDownloads c r s i) := by
  rw [checkDownloads, hx]
  dsimp only
  refine (safely_defined (P := fun _ => True) (fun ha => hasDownload_some (hA ha).consistent _ _)
    fun _ _ => trivial).bind fun prio _ => ?_
  split
  next =>
    obtain ⟨hhandled, hconn⟩ := removeConnection_handled (c := c) (P := P) h hA hx hnone hi
    exact ⟨hhandled, _, hconn, nofun, nofun⟩
  next =>
    refine (safely_defined (P := fun q => QueueManager.getDownload c.queue r.circumstances s.queue x.user = some q)
      (fun ha => ?_) fun _ hq => hq).bind fun q hq => ?_
    · obtain ⟨q, hq, -⟩ := getDownload_consistent r.circumstances x.user (hA ha).consistent
      exact ⟨q, hq⟩
    · have hgets := getDownload_gets hq
      have hstays : A → ∀ t : State U V, t.queue = q → Stays P s t := by
        intro ha t ht
        have hev : Evolves P s.queue q := hgets.evolves
        exact ⟨fun a d hd _ => ht ▸ hev.keeps a d hd, fun a hlt hgone => ht ▸ hev.gone a hlt hgone⟩
      have hgood : A → Consistent c.queue q ∧ Attachments q.live q := by
        intro ha
        obtain ⟨q', hq', hc, -⟩ := getDownload_consistent r.circumstances x.user (hA ha).consistent
        obtain rfl := Option.some.inj (hq.symm.trans hq')
        refine ⟨hc, hgets.attachments (hA ha).attachments fun b e ⟨y, hy, he⟩ hu => ?_⟩
        -- the connection would have the download already
        have hlive := (hA ha).attachments.listed b y hy e he
        obtain ⟨j, z, hz, hzd⟩ := (h.held e.id).mp (h.live ▸ List.mem_map_of_mem hlive)
        have hsome : z.download ≠ none := by
          rw [hzd]
          exact Option.some_ne_none _
        have huser : z.user = x.user := (h.user j z hz e hlive hzd).symm.trans hu
        obtain rfl := (hA ha).users j i z x hz hx (h.listening j z hz hsome) hl huser
        obtain rfl := Option.some.inj (hx.symm.trans hz)
        exact hsome hnone
      split
      next hsame =>
        have hqs : q = s.queue := by
          cases hgets with
          | nothing => rfl
          | attached => exact absurd hsame (Nat.succ_ne_self _)
        subst hqs
        have htracked := h.idled hx hnone hl hi
        refine ⟨⟨htracked, fun j hj => ?_, fun id hid => Or.inl hid, le_rfl, fun ha => ⟨?_, hstays ha _ rfl⟩⟩,
          { x with state := .STATE_IDLE }, ?_, fun _ => rfl, nofun⟩
        · exact (congrFun (modify_connection hx _) j).trans (Function.update_of_ne hj ..)
        · exact (hA ha).modify hx (f := fun x => { x with state := .STATE_IDLE }) rfl (fun hl => hl) rfl
            (hgood ha).1 (hgood ha).2
        · exact (congrFun (modify_connection hx _) i).trans (Function.update_self ..)
      next hnew =>
        obtain ⟨a, d, hid, hu, hlive, hnext, hat⟩ : ∃ a d, d.id = s.queue.nextId ∧ d.user = x.user ∧
            q.live = s.queue.live ++ [d] ∧ q.nextId = s.queue.nextId + 1 ∧ Attached q a d := by
          cases hgets with
          | nothing => exact absurd rfl hnew
          | @attached a y z d hq hd ht hid hu hp =>
            refine ⟨a, d, hid, hu, rfl, rfl, z, setItem_item_self .., ?_⟩
            rw [hd]
            exact List.mem_append_right _ (List.mem_singleton_self d)
        have htracked := h.request hx hnone hl hi hid hu hlive hnext
        refine ⟨⟨htracked, fun j hj => ?_, fun id hmem => ?_, ?_, fun ha => ⟨?_, hstays ha _ rfl⟩⟩,
          { x with state := .STATE_SND, download := some s.queue.nextId }, ?_, fun _ => rfl, nofun⟩
        · exact (congrFun (modify_connection hx _) j).trans (Function.update_of_ne hj ..)
        · dsimp only at hmem
          rw [List.mem_append, List.mem_singleton] at hmem
          exact hmem.imp_right fun heq => ⟨heq.ge, a, d, hid.trans heq.symm, hat⟩
        · exact (Nat.le_succ _).trans hnext.ge
        · exact (hA ha).modify hx (f := fun x => { x with state := .STATE_SND, download := some s.queue.nextId }) rfl
            (fun hl => hl) rfl (hgood ha).1 (hgood ha).2
        · exact (congrFun (modify_connection hx _) i).trans (Function.update_self ..)

/-- What putting the download of a connection back needs. -/
def Puts (c : Settings) (s : State U V) (i : Nat) (pos : Int) (finished crcOk : Bool) : Prop :=
  ∀ x d a q, s.connection i = some x → d ∈ s.queue.live → x.download = some d.id →
    s.queue.find c d.path = some a → s.queue.item a = some q → PutMeets q d pos finished crcOk

omit [DecidableEq U] in
theorem putMeets_unmoved (q : QueueItem U V) (d : Download U) (crcOk : Bool) : PutMeets q d 0 false crcOk := by
  rw [PutMeets, if_neg Bool.false_ne_true]
  intro _
  rw [QueueItem.putUnfinished, if_neg]
  · exact Or.inl rfl
  · rw [QueueItem.downloaded, Int.zero_tmod]
    exact (Int.sub_self 0).not_gt

omit [DecidableEq U] in
theorem putMeets_tree (q : QueueItem U V) {d : Download U} (hd : d.type = .TYPE_TREE) (pos : Int)
    (finished crcOk : Bool) : PutMeets q d pos finished crcOk := by
  rw [PutMeets]
  split
  next =>
    refine ⟨fun hne => absurd hd hne, fun hfile => ?_⟩
    rw [hd] at hfile
    cases hfile
  next =>
    intro hfile
    rw [hd] at hfile
    cases hfile

/-- The download of the connection, when it is done, completes the file of an item. -/
def Finishes (c : Settings) (s : State U V) (i : Nat) (a : Nat) : Prop :=
  ∃ x d, s.connection i = some x ∧ d ∈ s.queue.live ∧ x.download = some d.id ∧
    s.queue.find c d.path = some a ∧ Completes s.queue d a

/-- After a failure the connection is let go. -/
theorem failDownload_safely (pos : Int) (h : Tracked s)
    (hA : A → Good c.queue s ∧ Puts c.queue s i pos false true) (hx : s.connection i = some x) (hi : i ∉ s.idlers) :
    Safely A (fun t => Handled A c.queue P i s t ∧ ∃ y, t.connection i = some y ∧ y.listening = false)
      (failDownload c pos s i) := by
  rw [failDownload, hx, Option.bind_some]
  split
  next hnone =>
    obtain ⟨hhandled, hconn⟩ := removeConnection_handled (c := c) (P := P) h (fun ha => (hA ha).1) hx hnone hi
    exact ⟨hhandled, _, hconn, rfl⟩
  next hsome =>
    obtain ⟨d, hmem, hd, hget⟩ := getDownload_ok h hx (by rw [hsome]; exact Option.some_ne_none _)
    rw [hget]
    have hput : Safely A (Released A c.queue P i x s) (putDownload c (removeDownload s d) i d pos false true) := by
      refine putDownload_safely h hx hmem hd ⟨rfl, le_rfl⟩ (fun ha => ?_)
        fun _ _ hfin => absurd hfin Bool.false_ne_true
      obtain ⟨hg, hputs⟩ := hA ha
      exact ⟨hg, hg.consistent, hg.attachments, ⟨fun _ _ hd => Or.inl hd, fun _ _ hn => hn, le_rfl⟩,
        fun a q hfind hq => hputs x d a q hx hmem hd hfind hq⟩
    refine hput.bind fun r hr => ?_
    obtain ⟨hhandled, hconn⟩ := removeConnection_handled (c := c) (P := P) hr.tracked
      (fun ha => (hr.good ha).1) hr.connection rfl (hr.idlers ▸ hi)
    exact ⟨hr.toHandled.trans h (fun ha => (hA ha).1) hr.downloads hhandled, _, hconn, rfl⟩

/-- The next download is requested after the last one was put back. -/
theorem putAndCheck_safely (r : Request V) (h : Tracked s) (hx : s.connection i = some x) {d : Download U}
    (hmem : d ∈ s.queue.live) (hd : x.download = some d.id) (hi : i ∉ s.idlers) {queue : QueueState U V}
    (hlive : SameLive s.queue queue) {pos : Int} {finished crcOk : Bool}
    (hA : A → Good c.queue s ∧ Consistent c.queue queue ∧ Attachments queue.live queue ∧
      Evolves (fun _ u => u = d.user) s.queue queue ∧
      ∀ a q, queue.find c.queue d.path = some a → queue.item a = some q → PutMeets q d pos finished crcOk)
    (hP : ∀ a u, finished = true → queue.find c.queue d.path = some a → Completes queue d a → P a u) :
    Safely A (fun t => Handled A c.queue P i s t ∧ ∃ y, t.connection i = some y ∧ Checked x y)
      (putDownload c { removeDownload s d with queue := queue } i d pos finished crcOk >>=
        fun s => checkDownloads c r s i) := by
  have hsome : x.download ≠ none := by
    rw [hd]
    exact Option.some_ne_none _
  refine (putDownload_safely h hx hmem hd hlive hA hP).bind fun t ht => ?_
  refine (checkDownloads_safely (P := P) r ht.tracked (fun ha => (ht.good ha).1) ht.connection rfl
    (h.listening i x hx hsome) (ht.idlers ▸ hi)).mono fun w hw => ?_
  obtain ⟨hhandled, y, hy, hchecked⟩ := hw
  exact ⟨ht.toHandled.trans h (fun ha => (hA ha).1) ht.downloads hhandled, y, hy, hchecked.dataMode,
    hchecked.snd⟩

theorem dropSource_safely (r : Request V) {pos : Int} {reason : Flags} (h : Tracked s) (hA : A → Good c.queue s)
    (hx : s.connection i = some x) {d : Download U} (hmem : d ∈ s.queue.live) (hd : x.download = some d.id)
    (hi : i ∉ s.idlers) (hpos : d.type = .TYPE_TREE ∨ pos = 0) :
    Safely A (fun t => Handled A c.queue P i s t ∧ ∃ y, t.connection i = some y ∧ Checked x y)
      (dropSource c r pos reason s i x d) := by
  rw [dropSource]
  refine (safely_defined
    (P := fun q => QueueManager.removeSource c.queue s.queue d.path x.user reason false = some q)
    (fun ha => ?_) fun q hq => hq).bind fun q hq => ?_
  · obtain ⟨q, hq, -⟩ := managerRemoveSource_consistent (hA ha).consistent d.path x.user reason false
    exact ⟨q, hq⟩
  · have hlive : SameLive s.queue q :=
      sameLive_of_within (removeSource_within (P := fun _ _ => True) (fun _ _ => trivial) hq)
    refine putAndCheck_safely r h hx hmem hd hi hlive (fun ha => ?_) fun _ _ hfin => absurd hfin Bool.false_ne_true
    have hg := hA ha
    obtain ⟨q', hq', hc, -⟩ := managerRemoveSource_consistent hg.consistent d.path x.user reason false
    obtain rfl := Option.some.inj (hq.symm.trans hq')
    have hwithin : Within (fun _ u => u = d.user) s.queue q :=
      removeSource_within (fun _ _ => (h.user i x hx d hmem hd).symm) hq
    refine ⟨hg, hc, ?_, evolves_of_within hg.attachments hwithin, fun a y _ _ => ?_⟩
    · rw [hlive.live]
      exact changes_attachments hwithin hg.attachments
    · obtain htree | rfl := hpos
      · exact putMeets_tree y htree pos false true
      · exact putMeets_unmoved y d true

omit [DecidableEq U] in
theorem checked_of_not_listening {y : UserConnection U} (hy : y.listening = false) : Checked x y :=
  ⟨fun hl => absurd (hy.symm.trans hl) Bool.false_ne_true, fun hl => absurd (hy.symm.trans hl) Bool.false_ne_true⟩

omit [DecidableEq U] in
theorem puts_of_own (hx : s.connection i = some x) (h : Tracked s) {d : Download U} (hmem : d ∈ s.queue.live)
    (hd : x.download = some d.id) {pos : Int} {finished crcOk : Bool}
    (hm : ∀ q : QueueItem U V, PutMeets q d pos finished crcOk) : Puts c.queue s i pos finished crcOk := by
  intro y e a q hy he hye _ _
  obtain rfl := Option.some.inj (hx.symm.trans hy)
  have hid : e.id = d.id := Option.some.inj (hye.symm.trans hd)
  rw [List.inj_on_of_nodup_map (h.live ▸ h.downloads_nodup) he hmem hid]
  exact hm q

/-- The end of the data; when it throws, nothing has happened yet. -/
theorem endData_safely (o : Ending) (r : Request V) (h : Tracked s)
    (hA : A → Good c.queue s ∧ (o.flushed = true → Puts c.queue s i o.pos true o.crcOk))
    (hx : s.connection i = some x) (hsome : x.download ≠ none) (hi : i ∉ s.idlers)
    (hP : ∀ a u, o.flushed = true → Finishes c.queue s i a → P a u) :
    Safely A (fun
      | none => ∀ pos, Puts c.queue s i pos false true
      | some t => Handled A c.queue P i s t ∧ ∃ y, t.connection i = some y ∧ Checked x y) (endData c o r s i) := by
  obtain ⟨d, hmem, hd, hget⟩ := getDownload_ok h hx hsome
  rw [endData, hget]
  change Safely A _ (if d.type = .TYPE_TREE ∧ !o.flushed then _ else _)
  split
  next htree => exact fun pos => puts_of_own hx h hmem hd fun q => putMeets_tree q htree.1 pos false true
  next =>
    split
    next htree => exact safely_map (dropSource_safely r h (fun ha => (hA ha).1) hx hmem hd hi (Or.inl htree.1))
    next =>
      split
      next =>
        refine safely_map ((failDownload_safely (P := P) 0 h (fun ha => ⟨(hA ha).1, ?_⟩) hx hi).mono fun t ht => ?_)
        · exact puts_of_own hx h hmem hd fun q => putMeets_unmoved q d true
        · obtain ⟨hhandled, y, hy, hyl⟩ := ht
          exact ⟨hhandled, y, hy, checked_of_not_listening hyl⟩
      next hflushed =>
        rw [Bool.not_eq_true', Bool.not_eq_false] at hflushed
        have hput : Safely A (fun t => Handled A c.queue P i s t ∧ ∃ y, t.connection i = some y ∧ Checked x y)
            (putDownload c (removeDownload s d) i d o.pos true o.crcOk >>= fun s => checkDownloads c r s i) := by
          refine putAndCheck_safely r h hx hmem hd hi ⟨rfl, le_rfl⟩ (fun ha => ?_)
            fun a u _ hfind hcomplete => hP a u hflushed ⟨x, d, hx, hmem, hd, hfind, hcomplete⟩
          obtain ⟨hg, hputs⟩ := hA ha
          exact ⟨hg, hg.consistent, hg.attachments, ⟨fun _ _ hd => Or.inl hd, fun _ _ hn => hn, le_rfl⟩,
            fun a q hfind hq => hputs hflushed x d a q hx hmem hd hfind hq⟩
        change Safely A _ (putDownload c (removeDownload s d) i d o.pos true o.crcOk >>=
          fun s => some <$> checkDownloads c r s i)
        rw [← map_bind]
        exact safely_map hput

omit [DecidableEq U] in
/-- A connection that keeps its download. -/
theorem modify_handled (h : Tracked s) (hA : A → Good c.queue s) (hx : s.connection i = some x) (hi : i ∉ s.idlers)
    {f : UserConnection U → UserConnection U} (hd : (f x).download = x.download) (hu : (f x).user = x.user)
    (hl : (f x).listening = x.listening) : Handled A c.queue P i s (s.modify i f) ∧
      (s.modify i f).connection i = some (f x) := by
  have htracked := h.modify hx hd hu (fun hne => hl.trans (h.listening i x hx (hd ▸ hne))) fun hi' => absurd hi' hi
  refine ⟨⟨htracked, fun j hj => ?_, fun id hid => Or.inl hid, le_rfl, fun ha => ⟨?_, stays_of_queue rfl⟩⟩, ?_⟩
  · exact (congrFun (modify_connection hx f) j).trans (Function.update_of_ne hj ..)
  · exact (hA ha).modify hx hu (fun hl' => hl.symm.trans hl') rfl (hA ha).consistent (hA ha).attachments
  · exact (congrFun (modify_connection hx f) i).trans (Function.update_self ..)

omit [DecidableEq U] in
theorem ready_of_checked {y : UserConnection U} (h : Checked x y) (hx : x.dataMode = false) : Ready y := by
  refine ⟨h.snd, fun hl hd => ?_⟩
  rw [h.dataMode hl, hx] at hd
  cases hd

theorem startData_safely (opened : Bool) (o : Ending) (r : Request V) (start bytes : Int) (h : Tracked s)
    (hA : A → Good c.queue s ∧ (bytes = 0 → o.flushed = true → Puts c.queue s i o.pos true o.crcOk))
    (hx : s.connection i = some x) (hdata : x.dataMode = false) (hsome : x.download ≠ none) (hi : i ∉ s.idlers)
    (hP : ∀ a u, bytes = 0 → o.flushed = true → Finishes c.queue s i a → P a u) :
    Safely A (fun t => Handled A c.queue P i s t ∧ ∃ y, t.connection i = some y ∧ Ready y)
      (startData c opened o r s i start bytes) := by
  obtain ⟨d, hmem, hd, hget⟩ := getDownload_ok h hx hsome
  have hfail : Safely A (fun t => Handled A c.queue P i s t ∧ ∃ y, t.connection i = some y ∧ Ready y)
      (failDownload c 0 s i) := by
    refine (failDownload_safely (P := P) 0 h (fun ha => ⟨(hA ha).1, ?_⟩) hx hi).mono fun t ht => ?_
    · exact puts_of_own hx h hmem hd fun q => putMeets_unmoved q d true
    · obtain ⟨hhandled, y, hy, hyl⟩ := ht
      have hchecked : Checked x y := checked_of_not_listening hyl
      exact ⟨hhandled, y, hy, hchecked.snd, fun hl => absurd (hyl.symm.trans hl) Bool.false_ne_true⟩
  rw [startData, hget]
  change Safely A _ (if !responseMatches d start bytes then _ else _)
  split
  next => exact hfail
  next =>
    split
    next => exact hfail
    next =>
      obtain ⟨hrunning, hconn⟩ := modify_handled (c := c) (P := P) h (fun ha => (hA ha).1) hx hi
        (f := fun x => { x with state := .STATE_RUNNING }) rfl rfl rfl
      have hown {y : UserConnection U}
          (hy : (s.modify i fun x => { x with state := .STATE_RUNNING }).connection i = some y) : y.download = x.download := Option.some.inj (hconn.symm.trans hy) ▸ rfl
      have hfirst {t : State U V}
          (ht : Handled A c.queue P i (s.modify i fun x => { x with state := .STATE_RUNNING }) t) :
          Handled A c.queue P i s t := by
        refine hrunning.trans h (fun ha => (hA ha).1) ?_ ht
        exact fun id hid => hid
      dsimp only
      split
      next hbytes =>
        refine (endData_safely (P := P) o r hrunning.tracked
          (fun ha => ⟨(hrunning.good ha).1, fun hflushed => ?_⟩) hconn hsome hi fun a u hflushed ⟨y, e, hy, he, hye, hfind⟩ => ?_).bind fun w hw => ?_
        · intro y e a q hy he hye hfind hq
          exact (hA ha).2 hbytes hflushed x e a q hx he ((hown hy).symm.trans hye) hfind hq
        · exact hP a u hbytes hflushed ⟨x, e, hx, he, (hown hy).symm.trans hye, hfind⟩
        · cases w with
          | none =>
            refine (failDownload_safely (P := P) 0 hrunning.tracked (fun ha => ⟨(hrunning.good ha).1, hw 0⟩) hconn
              hi).mono fun t ht => ?_
            obtain ⟨hhandled, y, hy, hyl⟩ := ht
            exact ⟨hfirst hhandled, y, hy, ready_of_checked (x := x) (checked_of_not_listening hyl) hdata⟩
          | some t =>
            obtain ⟨hhandled, y, hy, hchecked⟩ := hw
            exact ⟨hfirst hhandled, y, hy, ready_of_checked hchecked hdata⟩
      next =>
        obtain ⟨hhandled, hconn'⟩ := modify_handled (c := c) (P := P) hrunning.tracked
          (fun ha => (hrunning.good ha).1) hconn hi (f := fun x => { x with dataMode := true }) rfl rfl rfl
        exact ⟨hfirst hhandled, _, hconn', fun _ _ => hsome, fun _ _ => ⟨rfl, hsome⟩⟩

omit [DecidableEq U] in
/-- The line mode that follows the end of the data. -/
theorem lineMode_handled (h : Handled A c.queue P i s t) {y : UserConnection U} (hy : t.connection i = some y)
    (hsnd : y.listening = true → y.state = .STATE_SND → y.download ≠ none) :
    Handled A c.queue P i s (t.modify i fun x => { x with dataMode := false }) ∧
      ∃ z, (t.modify i fun x => { x with dataMode := false }).connection i = some z ∧ Ready z := by
  have hconn := modify_connection hy fun x => { x with dataMode := false }
  have htracked := h.tracked.modify hy (f := fun x => { x with dataMode := false }) rfl rfl
    (h.tracked.listening i y hy) fun _ => ⟨rfl, rfl⟩
  refine ⟨⟨htracked, fun j hj => ?_, h.requested, h.nextId, fun ha => ⟨?_, ?_⟩⟩, _,
    (congrFun hconn i).trans (Function.update_self ..), hsnd, nofun⟩
  · rw [hconn, Function.update_of_ne hj]
    exact h.others j hj
  · exact (h.good ha).1.modify hy (f := fun x => { x with dataMode := false }) rfl (fun hl => hl) rfl
      (h.good ha).1.consistent (h.good ha).1.attachments
  · exact ⟨(h.good ha).2.keeps, (h.good ha).2.gone⟩

theorem data_safely (written eof : Bool) (o : Ending) (r : Request V) (h : Tracked s)
    (hA : A → Good c.queue s ∧ (written = false → Puts c.queue s i o.pos false true) ∧
      (written = true → eof = true → o.flushed = true → Puts c.queue s i o.pos true o.crcOk))
    (hx : s.connection i = some x) (hready : Ready x) (hsome : x.download ≠ none) (hi : i ∉ s.idlers)
    (hP : ∀ a u, written = true → eof = true → o.flushed = true → Finishes c.queue s i a → P a u) :
    Safely A (fun t => Handled A c.queue P i s t ∧ ∃ y, t.connection i = some y ∧ Ready y)
      (data c written eof o r s i) := by
  obtain ⟨d, hmem, hd, hget⟩ := getDownload_ok h hx hsome
  have hfail (hputs : A → Puts c.queue s i o.pos false true) :
      Safely A (fun t => Handled A c.queue P i s t ∧ ∃ y, t.connection i = some y ∧ Ready y)
        (failDownload c o.pos s i) := by
    refine (failDownload_safely (P := P) o.pos h (fun ha => ⟨(hA ha).1, hputs ha⟩) hx hi).mono fun t ht => ?_
    obtain ⟨hhandled, y, hy, hyl⟩ := ht
    have hnot {p : Prop} (hl : y.listening = true) : p := absurd (hyl.symm.trans hl) Bool.false_ne_true
    exact ⟨hhandled, y, hy, fun hl => hnot hl, fun hl => hnot hl⟩
  rw [data, hget]
  change Safely A _ (if !written then _ else _)
  split
  next hwritten =>
    rw [Bool.not_eq_true'] at hwritten
    exact hfail fun ha => (hA ha).2.1 hwritten
  next hwritten =>
    rw [Bool.not_eq_true', Bool.not_eq_false] at hwritten
    split
    next heof =>
      refine (endData_safely (P := P) o r h (fun ha => ⟨(hA ha).1, (hA ha).2.2 hwritten heof⟩) hx hsome hi
        fun a u hflushed => hP a u hwritten heof hflushed).bind fun w hw => ?_
      cases w with
      | none => exact hfail fun _ => hw o.pos
      | some t =>
        obtain ⟨hhandled, y, hy, hchecked⟩ := hw
        exact lineMode_handled hhandled hy hchecked.snd
    next => exact ⟨⟨h, fun _ _ => rfl, fun id hid => Or.inl hid, le_rfl, fun ha => ⟨(hA ha).1, stays_of_queue rfl⟩⟩,
        x, hx, hready⟩

/-- The connection that an event is about. -/
def connectionOf : Event U V → Option Nat
  | .addConnection .. | .queue .. => none
  | .revive i _ | .snd i .. | .data i .. | .noSlots i | .fileNotAvailable i _ | .failed i _ => some i

/-- What an event needs besides: a user has one connection at a time that downloads, and the conditions of
the queue are met. -/
def Meets [DecidableEq V] (c : Settings) (s : State U V) : Event U V → Prop
  | .addConnection user _ => ∀ i x, s.connection i = some x → x.listening = true → x.user ≠ user
  | .snd i _ _ bytes _ o _ => bytes = 0 → o.flushed = true → Puts c s i o.pos true o.crcOk
  | .data i written eof o _ => (written = false → Puts c s i o.pos false true) ∧
      (written = true → eof = true → o.flushed = true → Puts c s i o.pos true o.crcOk)
  | .failed i pos => Puts c s i pos false true
  | .queue e _ => QueueInvariant.Meets c s.queue e
  | _ => True

/-- Where the downloads of an item may be let go before they are put back, though the item remains: a
source is removed, or another download completes the file. -/
def Takes (c : Settings) (s : State U V) : Event U V → Nat → U → Prop
  | .snd i _ _ bytes _ o _, a, _ => bytes = 0 ∧ o.flushed = true ∧ Finishes c s i a
  | .data i written eof o _, a, _ => written = true ∧ eof = true ∧ o.flushed = true ∧ Finishes c s i a
  | .queue e _, a, u => TakesSource c s.queue a u e
  | _, _, _ => False

/-- One step of a run. -/
structure Proceeds (A : Prop) (c : Settings) (e : Event U V) (s t : State U V) : Prop where
  others : ∀ j x, s.connection j = some x → connectionOf e ≠ some j → t.connection j = some x
  requested : ∀ id ∈ t.downloads, id ∈ s.downloads ∨ ∃ a d, d.id = id ∧ Attached t.queue a d
  good : A → Good c t ∧ Stays (Takes c s e) s t

/-- The invariant of all runs. -/
structure Inv (s : State U V) : Prop where
  tracked : Tracked s
  ready : ∀ i x, s.connection i = some x → Ready x

variable {e : Event U V}

omit [DecidableEq U] in
theorem proceeds_of_handled (h : Inv s) (he : connectionOf e = some i)
    (ht : Handled A c.queue (Takes c.queue s e) i s t ∧ ∃ y, t.connection i = some y ∧ Ready y) :
    Inv t ∧ Proceeds A c.queue e s t := by
  obtain ⟨hhandled, y, hy, hready⟩ := ht
  refine ⟨⟨hhandled.tracked, fun j z hz => ?_⟩, fun j x hx hj => ?_, fun id hid => ?_, hhandled.good⟩
  · by_cases hji : j = i
    · subst hji
      exact Option.some.inj (hy.symm.trans hz) ▸ hready
    · exact h.ready j z ((hhandled.others j hji).symm.trans hz)
  · refine (hhandled.others j fun hji => hj ?_).trans hx
    rw [he, hji]
  · exact (hhandled.requested id hid).imp_right And.right

omit [DecidableEq U] in
theorem proceeds_refl (h : Inv s) (hA : A → Good c.queue s) : Inv s ∧ Proceeds A c.queue e s s :=
  ⟨h, fun _ _ hx _ => hx, fun _ hid => Or.inl hid, fun ha => ⟨hA ha, stays_of_queue rfl⟩⟩

omit [DecidableEq U] in
theorem heard_safely (h : Inv s) (hA : A → Good c.queue s) {f : UserConnection U → Except Fault (State U V)}
    (hf : ∀ x, s.connection i = some x → x.listening = true →
      Safely A (fun t => Inv t ∧ Proceeds A c.queue e s t) (f x)) :
    Safely A (fun t => Inv t ∧ Proceeds A c.queue e s t) (heard s i f) := by
  rw [heard]
  split
  next => exact proceeds_refl h hA
  next x hx =>
    split
    next hl => exact hf x hx hl
    next => exact proceeds_refl h hA

omit [DecidableEq U] in
/-- A connection that has a download is not idle. -/
theorem not_idle (h : Tracked s) (hx : s.connection i = some x) (hs : x.state ≠ .STATE_IDLE) : i ∉ s.idlers := by
  intro hi
  obtain ⟨y, hy, -, -, hys⟩ := h.idle i hi
  exact hs (Option.some.inj (hx.symm.trans hy) ▸ hys)

omit [DecidableEq U] in
theorem ready_of_not_listening {y : UserConnection U} (hy : y.listening = false) : Ready y := by
  refine ⟨fun hl => ?_, fun hl => ?_⟩
  · rw [hy] at hl
    cases hl
  · rw [hy] at hl
    cases hl

variable [DecidableEq V]

theorem addConnection_safely (passive : U → Bool) (h : Inv s) (user : U) (r : Request V)
    (hA : A → Good c.queue s ∧ Meets c.queue s (.addConnection user r)) :
    Safely A (fun t => Inv t ∧ Proceeds A c.queue (.addConnection user r) s t)
      (step c passive s (.addConnection user r)) := by
  let x : UserConnection U := ⟨user, .STATE_KEY, true, false, none⟩
  let s₀ : State U V := { s with
    connection := Function.update s.connection s.nextConnection (some x)
    nextConnection := s.nextConnection + 1 }
  have htracked : Tracked s₀ := h.tracked.add rfl
  have hx : s₀.connection s.nextConnection = some x := Function.update_self ..
  have hi : s.nextConnection ∉ s₀.idlers := fun hi => by
    obtain ⟨y, hy, -⟩ := h.tracked.idle _ hi
    rw [h.tracked.bound _ le_rfl] at hy
    cases hy
  have hgood : A → Good c.queue s₀ := by
    intro ha
    obtain ⟨hg, hm⟩ := hA ha
    refine ⟨hg.consistent, hg.attachments, fun j k y z hy hz hly hlz hyz => ?_⟩
    obtain ⟨hji, rfl⟩ | ⟨-, hy⟩ := update_some hy
    · obtain ⟨hki, -⟩ | ⟨-, hz⟩ := update_some hz
      · exact hji.trans hki.symm
      · exact absurd hyz.symm (hm k z hz hlz)
    · obtain ⟨-, rfl⟩ | ⟨-, hz⟩ := update_some hz
      · exact absurd hyz (hm j y hy hly)
      · exact hg.users j k y z hy hz hly hlz hyz
  refine (checkDownloads_safely (P := Takes c.queue s (.addConnection user r)) r htracked hgood hx rfl rfl hi).mono
    fun t ht => ?_
  obtain ⟨hhandled, y, hy, hchecked⟩ := ht
  refine ⟨⟨hhandled.tracked, fun j z hz => ?_⟩, fun j z hz _ => ?_, fun id hid => ?_, fun ha => ?_⟩
  · by_cases hji : j = s.nextConnection
    · subst hji
      exact Option.some.inj (hy.symm.trans hz) ▸ ready_of_checked hchecked rfl
    · refine h.ready j z ?_
      exact (Function.update_of_ne hji ..).symm.trans ((hhandled.others j hji).symm.trans hz)
  · have hji : j ≠ s.nextConnection := fun hji => by
      rw [h.tracked.bound j hji.ge] at hz
      cases hz
    exact (hhandled.others j hji).trans ((Function.update_of_ne hji ..).trans hz)
  · exact (hhandled.requested id hid).imp_right And.right
  · exact ⟨(hhandled.good ha).1, (hhandled.good ha).2.keeps, (hhandled.good ha).2.gone⟩

theorem revive_safely (passive : U → Bool) (h : Inv s) (i : Nat) (r : Request V) (hA : A → Good c.queue s) :
    Safely A (fun t => Inv t ∧ Proceeds A c.queue (.revive i r) s t) (step c passive s (.revive i r)) := by
  rw [step]
  split
  next hmem =>
    obtain ⟨x, hx, hnone, hl, hidle⟩ := h.tracked.idle i hmem
    have htracked : Tracked { s with idlers := s.idlers.erase i } := h.tracked.sublist List.erase_sublist
    have hdata : x.dataMode = false := by
      rw [← Bool.not_eq_true]
      intro hdata
      rw [((h.ready i x hx).data hl hdata).1] at hidle
      cases hidle
    refine (checkDownloads_safely (P := Takes c.queue s (.revive i r)) r htracked
      (fun ha => ⟨(hA ha).consistent, (hA ha).attachments, (hA ha).users⟩) hx hnone hl
      h.tracked.idlers.not_mem_erase).mono fun t ht => ?_
    obtain ⟨hhandled, y, hy, hchecked⟩ := ht
    refine proceeds_of_handled h rfl ⟨⟨hhandled.tracked, hhandled.others, hhandled.requested, hhandled.nextId,
      fun ha => ?_⟩, y, hy, ready_of_checked hchecked hdata⟩
    exact ⟨(hhandled.good ha).1, (hhandled.good ha).2.keeps, (hhandled.good ha).2.gone⟩
  next => exact proceeds_refl h hA

theorem queue_safely (passive : U → Bool) (h : Inv s) (e : QueueManager.Event U V) (ht : ¬Transfers e)
    (hA : A → Good c.queue s ∧ QueueInvariant.Meets c.queue s.queue e) :
    Safely A (fun t => Inv t ∧ Proceeds A c.queue (.queue e ht) s t) (step c passive s (.queue e ht)) := by
  rw [step]
  refine (safely_defined (P := fun q => QueueManager.step c.queue passive s.queue e = some q) (fun ha => ?_)
    fun q hq => hq).bind fun q hq => ?_
  · obtain ⟨q, hq, -⟩ := step_consistent passive (hA ha).1.consistent e (hA ha).2
    exact ⟨q, hq⟩
  · have hlive : SameLive s.queue q := sameLive_of_within
      (step_within (P := fun _ _ => True) ht (Or.inr fun _ _ => trivial) (fun _ _ _ => trivial) hq)
    refine ⟨⟨h.tracked.queue hlive, h.ready⟩, fun j x hx _ => hx, fun id hid => Or.inl hid, fun ha => ?_⟩
    obtain ⟨hg, hm⟩ := hA ha
    obtain ⟨q', hq', hc⟩ := step_consistent passive hg.consistent e hm
    obtain rfl := Option.some.inj (hq.symm.trans hq')
    have hwithin : Within (fun a u => TakesSource c.queue s.queue a u e) s.queue q :=
      step_within ht (Or.inl hm) (fun _ _ hP => hP) hq
    have hev := evolves_of_within hg.attachments hwithin
    refine ⟨⟨hc, ?_, hg.users⟩, fun a d hd _ => hev.keeps a d hd, hev.gone⟩
    dsimp only
    rw [hlive.live]
    exact changes_attachments hwithin hg.attachments

theorem step_safely (passive : U → Bool) (h : Inv s) (e : Event U V)
    (hA : A → Good c.queue s ∧ Meets c.queue s e) :
    Safely A (fun t => Inv t ∧ Proceeds A c.queue e s t) (step c passive s e) := by
  have hgood : A → Good c.queue s := fun ha => (hA ha).1
  cases e with
  | addConnection user r => exact addConnection_safely passive h user r hA
  | revive i r => exact revive_safely passive h i r hgood
  | snd i type start bytes opened o r =>
    refine heard_safely h hgood fun x hx hl => ?_
    split
    next => exact proceeds_refl h hgood
    next hsnd =>
      rw [not_not] at hsnd
      have hsome := (h.ready i x hx).snd hl hsnd
      have hdata : x.dataMode = false := by
        rw [← Bool.not_eq_true]
        intro hdata
        rw [((h.ready i x hx).data hl hdata).1] at hsnd
        cases hsnd
      have hi : i ∉ s.idlers := not_idle h.tracked hx (by rw [hsnd]; decide)
      obtain ⟨d, -, -, hget⟩ := getDownload_ok h.tracked hx hsome
      rw [hget]
      change Safely A _ (if type ≠ names d.type then _ else _)
      split
      next => exact proceeds_refl h hgood
      next =>
        exact (startData_safely opened o r start bytes h.tracked hA hx hdata hsome hi
          fun a u hb hf hfin => ⟨hb, hf, hfin⟩).mono fun t ht => proceeds_of_handled h rfl ht
  | data i written eof o r =>
    refine heard_safely h hgood fun x hx hl => ?_
    split
    next hdata =>
      obtain ⟨hstate, hsome⟩ := (h.ready i x hx).data hl hdata
      have hi : i ∉ s.idlers := not_idle h.tracked hx (by rw [hstate]; decide)
      exact (data_safely written eof o r h.tracked hA hx (h.ready i x hx) hsome hi
        fun a u hw he hf hfin => ⟨hw, he, hf, hfin⟩).mono fun t ht => proceeds_of_handled h rfl ht
    next => exact proceeds_refl h hgood
  | noSlots i =>
    refine heard_safely h hgood fun x hx hl => ?_
    split
    next => exact proceeds_refl h hgood
    next hsnd =>
      rw [not_not] at hsnd
      obtain ⟨d, hmem, hd, -⟩ := getDownload_ok h.tracked hx ((h.ready i x hx).snd hl hsnd)
      have hi : i ∉ s.idlers := not_idle h.tracked hx (by rw [hsnd]; decide)
      refine (failDownload_safely (P := Takes c.queue s (.noSlots i)) 0 h.tracked (fun ha => ⟨hgood ha, ?_⟩) hx
        hi).mono fun t ht => ?_
      · exact puts_of_own hx h.tracked hmem hd fun q => putMeets_unmoved q d true
      · obtain ⟨hhandled, y, hy, hyl⟩ := ht
        exact proceeds_of_handled h rfl ⟨hhandled, y, hy, ready_of_not_listening hyl⟩
  | fileNotAvailable i r =>
    refine heard_safely h hgood fun x hx hl => ?_
    split
    next => exact proceeds_refl h hgood
    next hsnd =>
      rw [not_not] at hsnd
      obtain ⟨d, hmem, hd, hget⟩ := getDownload_ok h.tracked hx ((h.ready i x hx).snd hl hsnd)
      have hi : i ∉ s.idlers := not_idle h.tracked hx (by rw [hsnd]; decide)
      have hdata : x.dataMode = false := by
        rw [← Bool.not_eq_true]
        intro hdata
        rw [((h.ready i x hx).data hl hdata).1] at hsnd
        cases hsnd
      rw [hget]
      refine (dropSource_safely (P := Takes c.queue s (.fileNotAvailable i r)) r h.tracked hgood hx hmem hd hi
        (Or.inr rfl)).mono fun t ht => ?_
      obtain ⟨hhandled, y, hy, hchecked⟩ := ht
      exact proceeds_of_handled h rfl ⟨hhandled, y, hy, ready_of_checked hchecked hdata⟩
  | failed i pos =>
    refine heard_safely h hgood fun x hx hl => ?_
    have htracked : Tracked { s with idlers := s.idlers.filter fun j => j ≠ i } :=
      h.tracked.sublist List.filter_sublist
    refine (failDownload_safely (P := Takes c.queue s (.failed i pos)) pos htracked
      (fun ha => ⟨⟨(hgood ha).consistent, (hgood ha).attachments, (hgood ha).users⟩, (hA ha).2⟩) hx
      fun hi => of_decide_eq_true (List.mem_filter.mp hi).2 rfl).mono fun t ht => ?_
    obtain ⟨hhandled, y, hy, hyl⟩ := ht
    refine proceeds_of_handled h rfl ⟨⟨hhandled.tracked, hhandled.others, hhandled.requested, hhandled.nextId,
      fun ha => ?_⟩, y, hy, ready_of_not_listening hyl⟩
    exact ⟨(hhandled.good ha).1, (hhandled.good ha).2.keeps, (hhandled.good ha).2.gone⟩
  | queue e ht => exact queue_safely passive h e ht hA

/-- Every step of the run meets its condition. -/
def EachMeets (c : DownloadSettings) (passive : U → Bool) (events : List (Event U V)) : Prop :=
  ∀ (i : Nat) (h : i < events.length) s, run c passive State.empty (events.take i) = .ok s →
    Meets c.queue s events[i]

omit [DecidableEq U] [DecidableEq V] in
theorem inv_empty : Inv (State.empty : State U V) := ⟨tracked_empty, fun _ _ h => nomatch h⟩

omit [DecidableEq U] [DecidableEq V] in
theorem good_empty (c : Settings) : Good c (State.empty : State U V) where
  consistent := consistent_empty c
  attachments := ⟨fun _ _ => rfl, nofun, nofun, nofun, nofun⟩
  users _ _ _ _ h := nomatch h

theorem run_safely (c : DownloadSettings) (passive : U → Bool) (events : List (Event U V)) :
    Safely (EachMeets c passive events) (fun s => Inv s ∧ (EachMeets c passive events → Good c.queue s))
      (run c passive State.empty events) := by
  induction events using List.reverseRecOn with
  | nil => exact ⟨inv_empty, fun _ => good_empty c.queue⟩
  | append_singleton es e ih =>
    have hes (h : EachMeets c passive (es ++ [e])) : EachMeets c passive es := by
      intro i hi s hs
      have hlt : i < (es ++ [e]).length := by
        rw [List.length_append]
        exact Nat.lt_add_right _ hi
      have hm := h i hlt s (by rwa [List.take_append_of_le_length hi.le])
      rwa [List.getElem_append_left hi] at hm
    have hrun : run c passive State.empty (es ++ [e]) =
        run c passive State.empty es >>= fun s => step c passive s e := by
      rw [run, List.foldlM_append]
      congr 1
      funext s
      exact bind_pure _
    rw [hrun]
    cases hs : run c passive State.empty es with
    | error f =>
      rw [hs] at ih
      exact ⟨ih.1, fun h => ih.2 (hes h)⟩
    | ok s =>
      rw [hs] at ih
      have hmeets (h : EachMeets c passive (es ++ [e])) : Meets c.queue s e := by
        have hlt : es.length < (es ++ [e]).length := by
          rw [List.length_append]
          exact Nat.lt_succ_self _
        have hm := h es.length hlt s (by rwa [List.take_left])
        rwa [List.getElem_concat_length rfl] at hm
      refine (step_safely (A := EachMeets c passive (es ++ [e])) passive ih.1 e
        fun h => ⟨ih.2 (hes h), hmeets h⟩).mono fun t ht => ?_
      exact ⟨ht.1, fun h => (ht.2.good h).1⟩

/-- The downloads of the items are those in progress, and each has one item. -/
structure Linked (s : State U V) : Prop where
  inProgress : ∀ a d, Attached s.queue a d → d ∈ s.queue.live ∧ d.id ∈ s.downloads
  single : ∀ a b d, Attached s.queue a d → Attached s.queue b d → a = b

omit [DecidableEq U] [DecidableEq V] in
theorem linked_of_good {c : Settings} (h : Tracked s) (hg : Good c s) : Linked s := by
  refine ⟨fun a d ⟨q, hq, hd⟩ => ?_, fun a b d ⟨q, hq, hd⟩ ⟨r, hr, hd'⟩ => ?_⟩
  · have hlive := hg.attachments.listed a q hq d hd
    exact ⟨hlive, h.live ▸ List.mem_map_of_mem hlive⟩
  · exact Option.some.inj ((hg.attachments.running a q hq d hd).symm.trans (hg.attachments.running b r hr d hd'))

theorem eachMeets_take {events : List (Event U V)} {passive : U → Bool} (h : EachMeets c passive events) (n : Nat) :
    EachMeets c passive (events.take n) := by
  intro i hi s hs
  rw [List.length_take, Nat.lt_min] at hi
  rw [List.take_take, Nat.min_eq_left hi.1.le] at hs
  rw [List.getElem_take]
  exact h i hi.2 s hs

section Example

/-- The list of a user. -/
def userList : QueueManager.NewFile Unit Nat where
  target := [1]
  tempTarget := []
  size := -1
  root := 7
  user := ⟨(), []⟩
  flags := QueueItem.FLAG_USER_LIST
  addBad := false
  added := 0

def plainRequest : Request Nat where
  circumstances := ⟨1024, true, fun _ => 0, none, false, []⟩
  runningAverage := 0

def plainSettings : DownloadSettings := ⟨RemoveSource.plainSettings, 0, 0⟩

/-- The list is queued, and its user connects. -/
def requestRun : List (Event Unit Nat) := [.queue (.add userList) id, .addConnection () plainRequest]

/-- The list is removed from the queue while it is requested. -/
def removedRun : List (Event Unit Nat) := requestRun ++ [.queue (.remove [1]) id]

end Example

end Dcpp.DownloadLifeCycle
