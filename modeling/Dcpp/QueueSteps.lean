import Dcpp.QueueConsistent

namespace Dcpp

namespace QueueItem

variable {U V : Type} [DecidableEq U]

theorem users_eraseP (sources : List (Source U)) (u : U) :
    (sources.eraseP fun i => decide (i.user.user = u)).map (fun i => i.user.user) =
      (sources.map fun i => i.user.user).erase u := by
  induction sources with
  | nil => rfl
  | cons i sources ih =>
    by_cases h : i.user.user = u
    · simp [h]
    · simp [h, ih]

/-- Only the lists of sources change when a source goes bad. -/
theorem removeSource_spec {q : QueueItem U V} {u : U} (h : u ∈ q.users) (reason : Flags) :
    ∃ sources badSources,
      q.removeSource u reason = some { q with sources := sources, badSources := badSources } ∧
      sources.map (fun i => i.user.user) = q.users.erase u := by
  obtain ⟨i, hi⟩ := Option.isSome_iff_exists.mp (isSource_iff.mpr h)
  rw [removeSource, hi]
  exact ⟨_, _, rfl, users_eraseP q.sources u⟩

/-- Only the lists of sources change when a source is added. -/
theorem addSource_spec (q : QueueItem U V) (u : HintedUser U) :
    ∃ i badSources, i.user.user = u.user ∧
      q.addSource u = { q with sources := q.sources ++ [i], badSources := badSources } := by
  rw [addSource]
  split
  · rename_i i hi
    have hu := List.find?_some hi
    rw [decide_eq_true_eq] at hu
    exact ⟨i, _, hu, rfl⟩
  · exact ⟨⟨u, 0⟩, q.badSources, rfl, rfl⟩

end QueueItem

namespace QueueSteps

open QueueState QueueItem QueueConsistent Index

variable {U V : Type} [DecidableEq U]

/-- After its entries are gone, an item can be deleted, or change into one that is not wanted. -/
theorem Removed.consistent {c : Settings} {s₀ s s' t : QueueState U V} (h : Consistent c s₀)
    {a : Nat} {q₀ q : QueueItem U V} (hq₀ : s₀.item a = some q₀) (hs : s = s₀.setItem a q)
    (hp : q.priority = q₀.priority) (hu : q.users = q₀.users) (hR : Removed s s' a q true q.users)
    {o : Option (QueueItem U V)} (hi : t.item = Function.update s₀.item a o)
    (huq : t.userQueue = s'.userQueue) (hrun : t.running = s'.running) (hn : t.nextId = s'.nextId)
    (hw : ∀ k, ¬WantedBy o k)
    (ho : ∀ r, o = some r → r.priority = q₀.priority ∧ r.users = q₀.users ∧
      c.key r.target = c.key q₀.target) : Consistent c t := by
  subst hs
  refine h.replace (lt_nextId h hq₀) hi (hn.trans hR.nextId) ?_ (fun u b hb => ?_) fun r hr => ?_
  · rw [huq]
    refine (hR.queued (fun k b => b ∈ s₀.userQueue k) ⟨h.queued.nodup, fun _ _ => Iff.rfl⟩).congr
      fun k b => ?_
    by_cases hb : b = a
    · subst hb
      rw [if_pos rfl, iff_false_right (hw k), h.ownEntry hq₀, hp, hu]
      rintro ⟨⟨-, hprio, hmem⟩, hnot⟩
      exact hnot ⟨⟨hprio.symm, hmem⟩, rfl⟩
    · rw [if_neg hb]
      simp [hb]
  · rw [hrun, hR.running] at hb
    split at hb
    · cases hb
    · rename_i hnot
      refine Or.inl ⟨?_, hb⟩
      rintro rfl
      obtain ⟨r, hr, -, hmem, -⟩ := h.running u b hb
      obtain rfl := Option.some.inj (hq₀.symm.trans hr)
      exact hnot ⟨rfl, hu ▸ hmem, hb⟩
  · obtain ⟨hrp, hru, hrt⟩ := ho r hr
    exact ⟨hrp ▸ h.priority a q₀ hq₀, hru ▸ h.sources a q₀ hq₀, h.other_key hq₀ hrt.symm⟩

/-- After `removeAll` the item does not run for anyone. -/
theorem Removed.running_eq {c : Settings} {s s' : QueueState U V} (h : Consistent c s) {a : Nat}
    {q : QueueItem U V} (hq : s.item a = some q) (hR : Removed s s' a q true q.users) (u : U) :
    s'.running u = if s.running u = some a then none else s.running u := by
  rw [hR.running]
  by_cases hr : s.running u = some a
  · obtain ⟨r, hr', -, hmem, -⟩ := h.running u a hr
    obtain rfl := Option.some.inj (hq.symm.trans hr')
    rw [if_pos ⟨rfl, hmem, hr⟩, if_pos hr]
  · rw [if_neg (fun hx => hr hx.2.2), if_neg hr]

omit [DecidableEq U] in
theorem setItem_eq_self {s : QueueState U V} {a : Nat} {q : QueueItem U V} (hq : s.item a = some q) :
    s.setItem a q = s := by
  rw [setItem, Function.update_eq_self_iff.mpr hq.symm]

/-- `remove` deletes the item and everything that points to it. -/
theorem remove_consistent {c : Settings} {s : QueueState U V} (h : Consistent c s) {target : Bytes}
    {a : Nat} {q : QueueItem U V} (hfind : s.find c target = some a) (hq : s.item a = some q)
    (hdir : q.isSet FLAG_DIRECTORY_DOWNLOAD = true → q.users ≠ []) :
    ∃ s', QueueManager.remove c s target = some s' ∧ Consistent c s' ∧
      s'.item = Function.update s.item a none ∧
      (∀ u, s'.running u = if s.running u = some a then none else s.running u) ∧
      s'.disconnected = s.disconnected ++ q.downloads.map Download.user := by
  have hguard : ¬(q.isSet FLAG_DIRECTORY_DOWNLOAD && q.sources.isEmpty) = true := by
    rw [Bool.and_eq_true]
    rintro ⟨hd, he⟩
    apply hdir hd
    rw [users, List.isEmpty_iff.mp he]
    rfl
  rw [QueueManager.remove, hfind]
  dsimp only
  rw [hq]
  dsimp only
  rw [if_neg hguard]
  by_cases hf : q.isFinished = true
  · rw [if_pos hf]
    have hrun : ∀ u, s.running u ≠ some a := by
      intro u hu
      obtain ⟨r, hr, hfr, -⟩ := h.running u a hu
      obtain rfl := Option.some.inj (hq.symm.trans hr)
      rw [hf] at hfr
      cases hfr
    refine ⟨_, rfl, ?_, rfl, fun u => ?_, rfl⟩
    · refine h.replace (lt_nextId h hq) rfl rfl ⟨h.queued.nodup, fun k b => ?_⟩
        (fun u b hb => Or.inl ⟨?_, hb⟩) (fun r hr => by cases hr)
      · by_cases hb : b = a
        · subst hb
          rw [if_pos rfl]
          refine iff_of_false (fun hm => ?_) (by rintro ⟨r, hr, _⟩; cases hr)
          have hown := ((h.ownEntry hq k).mp hm).1
          rw [hf] at hown
          cases hown
        · rw [if_neg hb]
          rfl
      · rintro rfl
        exact hrun u hb
    · rw [if_neg (hrun u)]
      rfl
  · rw [Bool.not_eq_true] at hf
    rw [hf, if_neg Bool.false_ne_true]
    obtain ⟨s', hs', hR⟩ := removeAll_spec h hq (Or.inl hf) (setItem_eq_self hq).symm rfl rfl true
    rw [hs']
    have hitem : (s'.deleteItem a).item = Function.update s.item a none := by
      obtain ⟨ds, -, -, hi⟩ := hR.item
      rw [deleteItem, hi]
      exact Function.update_idem ..
    refine ⟨_, rfl, ?_, hitem, fun u => Removed.running_eq h hq hR u,
      congrArg (· ++ q.downloads.map Download.user) hR.disconnected⟩
    exact Removed.consistent h hq (setItem_eq_self hq).symm rfl rfl hR hitem rfl rfl rfl
      (by rintro k ⟨r, hr, _⟩; cases hr) (fun r hr => by cases hr)

/-- A source of a consistent queue can be dropped, with its entry if the item is queued. -/
theorem dropSource_consistent {c : Settings} {s : QueueState U V} (h : Consistent c s) {a : Nat}
    {q : QueueItem U V} (hq : s.item a = some q) {u : U} (hu : u ∈ q.users) (reason : Flags) :
    ∃ s' q' q'', (if q.isFinished then some s else UserQueue.remove s a u true) = some s' ∧
      s'.item a = some q' ∧ q'.removeSource u reason = some q'' ∧ Consistent c (s'.setItem a q'') ∧
      (∃ sources badSources downloads, q'' = { q with
        sources := sources, badSources := badSources, downloads := downloads } ∧
        sources.map (fun i => i.user.user) = q.users.erase u) ∧
      s'.item = Function.update s.item a (some q') ∧
      (∀ v, s'.running v = if v = u ∧ s.running v = some a then none else s.running v) ∧
      s'.disconnected = s.disconnected := by
  have hnodup := h.sources a q hq
  have hsub : ∀ v, v ∈ q.users.erase u ↔ v ≠ u ∧ v ∈ q.users := fun v => hnodup.mem_erase_iff
  by_cases hf : q.isFinished = true
  · obtain ⟨sources, bad, hrem, hmap⟩ := removeSource_spec hu reason
    refine ⟨s, q, _, if_pos hf, hq, hrem, ?_, ⟨sources, bad, q.downloads, rfl, hmap⟩,
      (Function.update_eq_self_iff.mpr hq.symm).symm, fun v => ?_, rfl⟩
    · have hnot : ∀ k, ¬WantedBy (some { q with sources := sources, badSources := bad }) k := by
        intro k hk
        have hk' : q.isFinished = false := ((wantedBy_some k).mp hk).1
        rw [hf] at hk'
        cases hk'
      have hown : ∀ k, a ∉ s.userQueue k := by
        intro k hk
        have hk' := ((h.ownEntry hq k).mp hk).1
        rw [hf] at hk'
        cases hk'
      refine h.replace (lt_nextId h hq) rfl rfl ⟨h.queued.nodup, fun k b => ?_⟩
        (fun v b hb => Or.inl ⟨?_, hb⟩) fun r hr => ?_
      · by_cases hb : b = a
        · subst hb
          rw [if_pos rfl]
          exact iff_of_false (hown k) (hnot k)
        · rw [if_neg hb]
          rfl
      · rintro rfl
        obtain ⟨r, hr, hfr, -⟩ := h.running v b hb
        obtain rfl := Option.some.inj (hq.symm.trans hr)
        rw [hf] at hfr
        cases hfr
      · obtain rfl := Option.some.inj hr
        refine ⟨h.priority a q hq, ?_, h.other_key hq rfl⟩
        rw [users, hmap]
        exact hnodup.erase u
    · split
      · rename_i hv
        obtain ⟨r, hr, hfr, -⟩ := h.running v a hv.2
        obtain rfl := Option.some.inj (hq.symm.trans hr)
        rw [hf] at hfr
        cases hfr
      · rfl
  · rw [Bool.not_eq_true] at hf
    obtain ⟨s', hs', hR⟩ := remove_spec hq (h.priority a q hq) (h.entry hq hf hu) true
    obtain ⟨ds, -, hkeep, hi⟩ := hR.item
    have hq' : s'.item a = some { q with downloads := ds } := by
      rw [hi]
      exact Function.update_self ..
    obtain ⟨sources, bad, hrem, hmap⟩ := removeSource_spec (q := { q with downloads := ds }) hu reason
    have hmap : sources.map (fun i => i.user.user) = q.users.erase u := hmap
    have hrunning : ∀ v, s'.running v = if v = u ∧ s.running v = some a then none else s.running v := by
      intro v
      rw [hR.running]
      simp
    refine ⟨s', _, _, by rw [hf]; exact hs', hq', hrem, ?_, ⟨sources, bad, ds, rfl, hmap⟩, hi,
      hrunning, hR.disconnected⟩
    have hitem : (s'.setItem a { q with sources := sources, badSources := bad, downloads := ds }).item =
        Function.update s.item a
          (some { q with sources := sources, badSources := bad, downloads := ds }) := by
      rw [setItem, hi]
      exact Function.update_idem ..
    refine h.replace (lt_nextId h hq) hitem hR.nextId ?_ (fun v b hb => ?_) fun r hr => ?_
    · refine (hR.queued (fun k b => b ∈ s.userQueue k) ⟨h.queued.nodup, fun _ _ => Iff.rfl⟩).congr
        fun k b => ?_
      by_cases hb : b = a
      · subst hb
        have husers : users { q with sources := sources, badSources := bad, downloads := ds } =
            q.users.erase u := hmap
        rw [if_pos rfl, h.ownEntry hq, wantedBy_some, husers, hsub, List.mem_singleton]
        tauto
      · rw [if_neg hb]
        simp [hb]
    · rw [setItem_running, hrunning] at hb
      split at hb
      · cases hb
      · rename_i hnot
        by_cases hba : b = a
        · subst hba
          obtain ⟨r, hr, hfr, hmem, hdr⟩ := h.running v b hb
          obtain rfl := Option.some.inj (hq.symm.trans hr)
          obtain ⟨d, hd, hdv⟩ := List.mem_map.mp hdr
          refine Or.inr ⟨rfl, _, rfl, hfr, ?_, List.mem_map.mpr ⟨d, hkeep d hd fun _ hdu => ?_, hdv⟩⟩
          · rw [users, hmap, hsub]
            exact ⟨fun hv => hnot ⟨hv, hb⟩, hmem⟩
          · exact hnot ⟨hdv.symm.trans (List.mem_singleton.mp hdu), hb⟩
        · exact Or.inl ⟨hba, hb⟩
    · obtain rfl := Option.some.inj hr
      refine ⟨h.priority a q hq, ?_, h.other_key hq rfl⟩
      rw [users, hmap]
      exact hnodup.erase u

theorem addUser_spec {s : QueueState U V} {a : Nat} {q : QueueItem U V} (hq : s.item a = some q)
    (hp : q.priority.isIndex = true) (u : U) {W : Priority × U → Nat → Prop}
    (hW : Agrees s.userQueue W) (hnot : ¬W (q.priority, u) a) :
    ∃ s', UserQueue.add s a u = some s' ∧ s'.item = s.item ∧ s'.running = s.running ∧
      s'.nextId = s.nextId ∧
      Agrees s'.userQueue fun k b => W k b ∨ (k.1 = q.priority ∧ k.2 = u) ∧ b = a := by
  rw [UserQueue.add, hq]
  dsimp only
  rw [if_pos hp]
  refine ⟨_, rfl, rfl, rfl, rfl, ?_⟩
  dsimp only
  refine (hW.add hnot ?_).congr fun k b => by rw [Prod.ext_iff]
  split
  · exact Or.inl rfl
  · exact Or.inr rfl

theorem addUsers_spec {users : List U} (hn : users.Nodup) {s : QueueState U V} {a : Nat}
    {q : QueueItem U V} (hq : s.item a = some q) (hp : q.priority.isIndex = true)
    {W : Priority × U → Nat → Prop} (hW : Agrees s.userQueue W)
    (hnot : ∀ u ∈ users, ¬W (q.priority, u) a) :
    ∃ s', UserQueue.addUsers s a users = some s' ∧ s'.item = s.item ∧ s'.running = s.running ∧
      s'.nextId = s.nextId ∧
      Agrees s'.userQueue fun k b => W k b ∨ (k.1 = q.priority ∧ k.2 ∈ users) ∧ b = a := by
  induction users generalizing s W with
  | nil => exact ⟨s, rfl, rfl, rfl, rfl, hW.congr fun k b => by simp⟩
  | cons u users ih =>
    obtain ⟨hu, hn⟩ := List.nodup_cons.mp hn
    obtain ⟨t, ht, hi, hr, hid, hW'⟩ := addUser_spec hq hp u hW (hnot u (List.mem_cons_self ..))
    have hnot' : ∀ v ∈ users, ¬(W (q.priority, v) a ∨ ((q.priority, v).1 = q.priority ∧
        (q.priority, v).2 = u) ∧ a = a) := by
      rintro v hv (hWv | ⟨⟨-, hvu⟩, -⟩)
      · exact hnot v (List.mem_cons_of_mem u hv) hWv
      · exact hu ((show v = u from hvu) ▸ hv)
    obtain ⟨s', hs', hi', hr', hid', hW''⟩ := ih hn (hi ▸ hq) hW' hnot'
    refine ⟨s', by rw [UserQueue.addUsers, ht]; exact hs', hi'.trans hi, hr'.trans hr,
      hid'.trans hid, hW''.congr fun k b => ?_⟩
    rw [List.mem_cons]
    tauto

/-- A source is added, together with its entry, or the state stays as it was. -/
theorem addSource_consistent {c : Settings} {s : QueueState U V} (h : Consistent c s) {a : Nat}
    {q : QueueItem U V} (hq : s.item a = some q) (u : HintedUser U) (addBad : Flags) (passive : Bool) :
    ∃ r, QueueManager.addSource s a u addBad passive = some r ∧ Consistent c r.1 ∧
      (∃ q', r.1.item = Function.update s.item a (some q')) ∧ r.1.nextId = s.nextId := by
  have hsame : ∃ q', s.item = Function.update s.item a (some q') :=
    ⟨q, (Function.update_eq_self_iff.mpr hq.symm).symm⟩
  have hnodup := h.sources a q hq
  rw [QueueManager.addSource, hq]
  dsimp only
  by_cases hsrc : q.isSource u.user = true
  · rw [if_pos hsrc]
    exact ⟨_, rfl, h, hsame, rfl⟩
  rw [if_neg hsrc]
  rw [isSource_iff] at hsrc
  by_cases hbad : q.isBadSourceExcept u.user addBad = true
  · rw [if_pos hbad]
    exact ⟨_, rfl, h, hsame, rfl⟩
  rw [if_neg hbad]
  obtain ⟨i, bad, hiu, hadd⟩ := addSource_spec q u
  have husers : (q.addSource u).users = q.users ++ [u.user] := by
    rw [hadd, users, List.map_append, List.map_singleton, hiu]
    rfl
  have hmem : u.user ∈ (q.addSource u).users := by
    rw [husers]
    exact List.mem_append_right _ (List.mem_singleton_self _)
  have hnodup' : (q.addSource u).users.Nodup := by
    rw [husers]
    exact List.nodup_append.mpr ⟨hnodup, by simp, fun v hv w hw hvw =>
      hsrc ((List.mem_singleton.mp hw) ▸ hvw ▸ hv)⟩
  have htarget : (q.addSource u).target = q.target := by rw [hadd]
  have hprio : (q.addSource u).priority = q.priority := by rw [hadd]
  have hfin : (q.addSource u).isFinished = q.isFinished := by rw [hadd]; rfl
  have hdown : (q.addSource u).downloads = q.downloads := by rw [hadd]
  by_cases hpas : passive = true
  · rw [if_pos hpas]
    obtain ⟨sources, bad', hrem, hmap⟩ := removeSource_spec hmem Source.FLAG_PASSIVE
    rw [hrem]
    refine ⟨_, rfl, ?_, ⟨_, rfl⟩, rfl⟩
    refine h.modify hq (Or.inl hfin) hprio (hmap.trans ?_) (congrArg c.key htarget) hdown
    rw [husers, List.erase_append_right _ hsrc]
    simp
  rw [if_neg hpas]
  by_cases hf : (q.addSource u).isFinished = true
  · rw [if_pos hf]
    refine ⟨_, rfl, ?_, ⟨_, rfl⟩, rfl⟩
    have hown : ∀ k, a ∉ s.userQueue k := by
      intro k hk
      have hk' := ((h.ownEntry hq k).mp hk).1
      rw [← hfin, hf] at hk'
      cases hk'
    refine h.replace (lt_nextId h hq) rfl rfl ⟨h.queued.nodup, fun k b => ?_⟩
      (fun v b hb => Or.inl ⟨?_, hb⟩) fun r hr => ?_
    · by_cases hb : b = a
      · subst hb
        rw [if_pos rfl]
        refine iff_of_false (hown k) fun hk => ?_
        have hk' := ((wantedBy_some k).mp hk).1
        rw [hf] at hk'
        cases hk'
      · rw [if_neg hb]
        rfl
    · rintro rfl
      obtain ⟨r, hr, hfr, -⟩ := h.running v b hb
      obtain rfl := Option.some.inj (hq.symm.trans hr)
      rw [← hfin, hf] at hfr
      cases hfr
    · obtain rfl := Option.some.inj hr
      exact ⟨hprio ▸ h.priority a q hq, hnodup', h.other_key hq (congrArg c.key htarget.symm)⟩
  · rw [if_neg hf]
    rw [Bool.not_eq_true] at hf
    have hnot : ¬(a ∈ s.userQueue ((q.addSource u).priority, u.user)) := by
      rw [h.ownEntry hq]
      exact fun hx => hsrc hx.2.2
    have hset : (s.setItem a (q.addSource u)).item a = some (q.addSource u) := setItem_item_self ..
    obtain ⟨s', hs', hi, hr, hid, hW⟩ := addUser_spec hset (hprio ▸ h.priority a q hq) u.user
      (W := fun k b => b ∈ s.userQueue k) ⟨h.queued.nodup, fun _ _ => Iff.rfl⟩ hnot
    rw [hs']
    refine ⟨_, rfl, ?_, ⟨_, hi⟩, hid⟩
    refine h.replace (lt_nextId h hq) hi hid (hW.congr fun k b => ?_) (fun v b hb => ?_) fun r hr => ?_
    · by_cases hb : b = a
      · subst hb
        rw [if_pos rfl, h.ownEntry hq, wantedBy_some, hprio, husers, List.mem_append,
          List.mem_singleton, ← hfin, hf]
        tauto
      · rw [if_neg hb]
        simp [hb]
    · rw [hr, setItem_running] at hb
      by_cases hba : b = a
      · subst hba
        obtain ⟨r, hr', hfr, hvr, hdr⟩ := h.running v b hb
        obtain rfl := Option.some.inj (hq.symm.trans hr')
        exact Or.inr ⟨rfl, _, rfl, hf, by rw [husers]; exact List.mem_append_left _ hvr,
          by rw [hdown]; exact hdr⟩
      · exact Or.inl ⟨hba, hb⟩
    · obtain rfl := Option.some.inj hr
      exact ⟨hprio ▸ h.priority a q hq, hnodup', h.other_key hq (congrArg c.key htarget.symm)⟩

/-- The entries of an item move to another priority. -/
theorem setPriority_consistent {c : Settings} {s : QueueState U V} (h : Consistent c s) {a : Nat}
    {q : QueueItem U V} (hq : s.item a = some q) (hf : q.isFinished = false) {p : Priority}
    (hp : p.isIndex = true) :
    ∃ s', UserQueue.setPriority s a p = some s' ∧ Consistent c s' ∧
      (∃ downloads, s'.item = Function.update s.item a
        (some { q with priority := p, downloads := downloads })) ∧
      s'.running = s.running ∧ s'.nextId = s.nextId := by
  obtain ⟨t, ht, hR⟩ := removeAll_spec h hq (Or.inl hf) (setItem_eq_self hq).symm rfl rfl false
  obtain ⟨ds, -, hkeep, hi⟩ := hR.item
  have hqt : t.item a = some { q with downloads := ds } := by
    rw [hi]
    exact Function.update_self ..
  have hrun : t.running = s.running := by
    funext u
    rw [hR.running]
    exact if_neg fun hx => Bool.false_ne_true hx.1
  have hW := hR.queued (fun k b => b ∈ s.userQueue k) ⟨h.queued.nodup, fun _ _ => Iff.rfl⟩
  have hset : (t.setItem a { q with priority := p, downloads := ds }).item a =
      some { q with priority := p, downloads := ds } := setItem_item_self ..
  have hnot : ∀ u ∈ q.users, ¬(a ∈ s.userQueue (p, u) ∧
      ¬(((p, u).1 = q.priority ∧ (p, u).2 ∈ q.users) ∧ a = a)) := by
    rintro u hu ⟨hmem, hx⟩
    exact hx ⟨⟨((h.ownEntry hq _).mp hmem).2.1.symm, hu⟩, rfl⟩
  obtain ⟨s', hs', hi', hr', hid', hW'⟩ := addUsers_spec (h.sources a q hq) hset hp hW hnot
  have hitem : s'.item = Function.update s.item a
      (some { q with priority := p, downloads := ds }) := by
    rw [hi', setItem, hi]
    exact Function.update_idem ..
  refine ⟨s', ?_, ?_, ⟨ds, hitem⟩, hr'.trans hrun, hid'.trans hR.nextId⟩
  · rw [UserQueue.setPriority, ht, Option.bind_some, hqt]
    dsimp only
    rw [UserQueue.addAll, setItem_item_self]
    exact hs'
  · refine h.replace (lt_nextId h hq) hitem (hid'.trans hR.nextId) (hW'.congr fun k b => ?_)
      (fun v b hb => ?_) fun r hr => ?_
    · by_cases hb : b = a
      · subst hb
        rw [if_pos rfl, h.ownEntry hq, wantedBy_some]
        have hu : users { q with priority := p, downloads := ds } = q.users := rfl
        have hf' : isFinished { q with priority := p, downloads := ds } = false := hf
        rw [hu, hf', eq_comm (a := p)]
        tauto
      · rw [if_neg hb]
        simp [hb]
    · rw [hr', setItem_running, hrun] at hb
      by_cases hba : b = a
      · subst hba
        obtain ⟨r, hr, hfr, hvr, hdr⟩ := h.running v b hb
        obtain rfl := Option.some.inj (hq.symm.trans hr)
        obtain ⟨d, hd, hdv⟩ := List.mem_map.mp hdr
        exact Or.inr ⟨rfl, _, rfl, hfr, hvr,
          List.mem_map.mpr ⟨d, hkeep d hd fun h => absurd h Bool.false_ne_true, hdv⟩⟩
      · exact Or.inl ⟨hba, hb⟩
    · obtain rfl := Option.some.inj hr
      exact ⟨hp, h.sources a q hq, h.other_key hq rfl⟩

omit [DecidableEq U] in
theorem disconnect_consistent {c : Settings} {s : QueueState U V} (h : Consistent c s)
    (users : List U) : Consistent c (s.disconnect users) :=
  h.of_eq rfl rfl rfl rfl

omit [DecidableEq U] in
theorem chooseTempTarget_eq (q : QueueItem U V) (temp : Bytes) :
    ∃ tempTarget, q.chooseTempTarget temp = { q with tempTarget := tempTarget } := by
  rw [chooseTempTarget]
  split
  · exact ⟨temp, rfl⟩
  · exact ⟨q.tempTarget, rfl⟩

/-- What is kept of an item while it is not deleted. -/
structure Kept (q q' : QueueItem U V) : Prop where
  flags : q'.flags = q.flags
  target : q'.target = q.target
  done : q'.done = q.done
  size : q'.size = q.size

omit [DecidableEq U] in
theorem Kept.isFinished {q q' : QueueItem U V} (h : Kept q q') : q'.isFinished = q.isFinished := by
  rw [QueueItem.isFinished, QueueItem.isFinished, h.done, h.size]

omit [DecidableEq U] in
theorem Kept.trans {q q' q'' : QueueItem U V} (h : Kept q q') (h' : Kept q' q'') : Kept q q'' :=
  ⟨h'.flags.trans h.flags, h'.target.trans h.target, h'.done.trans h.done, h'.size.trans h.size⟩

/-- `setPriority` of a target. -/
theorem managerSetPriority_consistent {c : Settings} {s : QueueState U V} (h : Consistent c s)
    (target : Bytes) {p : Priority} (hp : p.isIndex = true) :
    ∃ s', QueueManager.setPriority c s target p = some s' ∧ Consistent c s' ∧
      ∀ a q, s.item a = some q → ∃ q', s'.item a = some q' ∧ Kept q q' := by
  rw [QueueManager.setPriority]
  cases hfind : s.find c target with
  | none => exact ⟨s, rfl, h, fun a q hq => ⟨q, hq, rfl, rfl, rfl, rfl⟩⟩
  | some a =>
    obtain ⟨q, hq, -⟩ := find_some hfind
    dsimp only
    rw [hq]
    dsimp only
    by_cases hcond : q.priority ≠ p ∧ q.isFinished = false
    · rw [if_pos hcond]
      obtain ⟨s', hs', hc, ⟨ds, hi⟩, -, -⟩ := setPriority_consistent h hq hcond.2 hp
      rw [hs']
      refine ⟨_, rfl, disconnect_consistent hc _, fun b r hr => ?_⟩
      by_cases hb : b = a
      · subst hb
        obtain rfl := Option.some.inj (hq.symm.trans hr)
        exact ⟨{ q with priority := p, downloads := ds },
          (congrFun hi b).trans (Function.update_self ..), rfl, rfl, rfl, rfl⟩
      · exact ⟨r, (congrFun hi b).trans ((Function.update_of_ne hb ..).trans hr), rfl, rfl, rfl, rfl⟩
    · rw [if_neg hcond]
      exact ⟨s, rfl, h, fun a q hq => ⟨q, hq, rfl, rfl, rfl, rfl⟩⟩

/-- The items that are not file lists are kept, but for what the queue does to their sources,
downloads and priority. -/
def KeepsFiles (s s' : QueueState U V) : Prop :=
  ∀ a q, s.item a = some q → q.isSet FLAG_USER_LIST = false → ∃ q', s'.item a = some q' ∧ Kept q q'

omit [DecidableEq U] in
theorem keepsFiles_refl (s : QueueState U V) : KeepsFiles s s :=
  fun _ q hq _ => ⟨q, hq, rfl, rfl, rfl, rfl⟩

omit [DecidableEq U] in
theorem KeepsFiles.trans {s s' s'' : QueueState U V} (h : KeepsFiles s s') (h' : KeepsFiles s' s'') :
    KeepsFiles s s'' := by
  intro a q hq hl
  obtain ⟨q', hq', hk⟩ := h a q hq hl
  obtain ⟨q'', hq'', hk'⟩ := h' a q' hq' (by rw [isSet, hk.flags]; exact hl)
  exact ⟨q'', hq'', hk.trans hk'⟩

omit [DecidableEq U] in
theorem keepsFiles_update {s s' : QueueState U V} {a : Nat} {q : QueueItem U V}
    {o : Option (QueueItem U V)} (hq : s.item a = some q) (hi : s'.item = Function.update s.item a o)
    (ho : q.isSet FLAG_USER_LIST = false → ∃ q', o = some q' ∧ Kept q q') : KeepsFiles s s' := by
  intro b r hr hl
  by_cases hb : b = a
  · subst hb
    obtain rfl := Option.some.inj (hq.symm.trans hr)
    obtain ⟨q', rfl, hk⟩ := ho hl
    exact ⟨q', (congrFun hi b).trans (Function.update_self ..), hk⟩
  · exact ⟨r, (congrFun hi b).trans ((Function.update_of_ne hb ..).trans hr), rfl, rfl, rfl, rfl⟩

theorem flagSource_users (q : QueueItem U V) (u : U) (reason : Flags) :
    (q.flagSource u reason).users = q.users := by
  rw [users, flagSource, List.map_map, users]
  refine List.map_congr_left fun i _ => ?_
  rw [Function.comp_apply]
  split <;> rfl

/-- `removeSource` of a target. -/
theorem managerRemoveSource_consistent {c : Settings} {s : QueueState U V} (h : Consistent c s)
    (target : Bytes) (u : U) (reason : Flags) (removeConn : Bool) :
    ∃ s', QueueManager.removeSource c s target u reason removeConn = some s' ∧ Consistent c s' ∧
      KeepsFiles s s' := by
  rw [QueueManager.removeSource]
  cases hfind : s.find c target with
  | none => exact ⟨s, rfl, h, keepsFiles_refl s⟩
  | some a =>
    obtain ⟨q, hq, -⟩ := find_some hfind
    dsimp only
    rw [hq]
    dsimp only
    by_cases hsrc : q.isSource u = true
    swap
    · rw [if_pos (by simpa using hsrc)]
      exact ⟨s, rfl, h, keepsFiles_refl s⟩
    rw [if_neg (by simpa using hsrc)]
    have hu : u ∈ q.users := isSource_iff.mp hsrc
    by_cases hlist : q.isSet FLAG_USER_LIST = true
    · rw [if_pos hlist]
      obtain ⟨s', hs', hc, hi, -⟩ :=
        remove_consistent h hfind hq fun _ hnil => List.ne_nil_of_mem hu hnil
      exact ⟨s', hs', hc, keepsFiles_update hq hi fun hl => absurd hlist (by rw [hl]; simp)⟩
    rw [if_neg hlist]
    -- the state after the source may have been flagged
    obtain ⟨t, q₁, ht, hct, hq₁, hk₁, hu₁, hi₁⟩ : ∃ t q₁,
        (if (reason == Source.FLAG_NO_TREE) = true then s.setItem a (q.flagSource u reason) else s) = t ∧
        Consistent c t ∧ t.item a = some q₁ ∧ Kept q q₁ ∧ u ∈ q₁.users ∧
        t.item = Function.update s.item a (some q₁) := by
      by_cases hr : (reason == Source.FLAG_NO_TREE) = true
      · rw [if_pos hr]
        refine ⟨_, q.flagSource u reason, rfl, h.modify hq (Or.inl rfl) rfl
          (flagSource_users q u reason) rfl rfl, setItem_item_self .., ⟨rfl, rfl, rfl, rfl⟩, ?_, rfl⟩
        rw [flagSource_users]
        exact hu
      · rw [if_neg hr]
        exact ⟨s, q, rfl, h, hq, ⟨rfl, rfl, rfl, rfl⟩, hu, (Function.update_eq_self_iff.mpr hq.symm).symm⟩
    rw [ht]
    by_cases hsmall : ((reason == Source.FLAG_NO_TREE) && decide (q.size < QueueManager.MAX_SIZE_WO_TREE)) =
        true
    · rw [if_pos hsmall]
      exact ⟨t, rfl, hct, keepsFiles_update hq hi₁ fun _ => ⟨q₁, rfl, hk₁⟩⟩
    rw [if_neg hsmall]
    -- and after the running download may have been detached
    obtain ⟨t', q₂, ht', hct', hq₂, hk₂, hu₂, hi₂⟩ : ∃ t' q₂,
        (if (q.isRunning && t.running u == some a) = true then UserQueue.removeDownload t a u
          else some t) = some t' ∧ Consistent c t' ∧ t'.item a = some q₂ ∧ Kept q q₂ ∧ u ∈ q₂.users ∧
        t'.item = Function.update s.item a (some q₂) := by
      by_cases hr : (q.isRunning && t.running u == some a) = true
      · rw [if_pos hr]
        obtain ⟨t', ht', hct', ⟨ds, hi⟩, -⟩ := Consistent.removeDownload hct hq₁ u
        refine ⟨t', _, ht', hct', (congrFun hi a).trans (Function.update_self ..),
          ⟨hk₁.flags, hk₁.target, hk₁.done, hk₁.size⟩, hu₁, ?_⟩
        rw [hi, hi₁, Function.update_idem]
      · rw [if_neg hr]
        exact ⟨t, q₁, rfl, hct, hq₁, hk₁, hu₁, hi₁⟩
    rw [ht', Option.bind_some, ← hk₂.isFinished]
    obtain ⟨s', q', q'', hs', hq', hrem, hc, ⟨src, bad, ds, hq'', -⟩, hi, -⟩ :=
      dropSource_consistent hct' hq₂ hu₂ reason
    rw [hs', Option.bind_some, hq']
    dsimp only
    rw [hrem]
    have hfinal : (s'.setItem a q'').item = Function.update s.item a (some q'') := by
      rw [setItem, hi, hi₂, Function.update_idem, Function.update_idem]
    have hkept : Kept q q'' := by
      subst hq''
      exact ⟨hk₂.flags, hk₂.target, hk₂.done, hk₂.size⟩
    exact ⟨_, rfl, disconnect_consistent hc _, keepsFiles_update hq hfinal fun _ => ⟨q'', rfl, hkept⟩⟩

theorem removeSources_consistent {c : Settings} {s : QueueState U V} (h : Consistent c s)
    (target : Bytes) (reason : Flags) (users : List U) :
    ∃ s', QueueManager.removeSources c target reason users s = some s' ∧ Consistent c s' ∧
      KeepsFiles s s' := by
  induction users generalizing s with
  | nil => exact ⟨s, rfl, h, keepsFiles_refl s⟩
  | cons u users ih =>
    obtain ⟨t, ht, hct, hkt⟩ := managerRemoveSource_consistent h target u reason false
    obtain ⟨s', hs', hc, hk⟩ := ih hct
    exact ⟨s', by rw [QueueManager.removeSources, ht]; exact hs', hc, hkt.trans hk⟩

end QueueSteps

end Dcpp
