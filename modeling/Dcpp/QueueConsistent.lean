import Dcpp.QueueManager

namespace Dcpp

namespace QueueItem

variable {U V : Type} [DecidableEq U]

theorem isSource_iff {q : QueueItem U V} {u : U} : q.isSource u = true ↔ u ∈ q.users := by
  rw [isSource, getSource, List.find?_isSome, users, List.mem_map]
  simp only [decide_eq_true_eq]

end QueueItem

namespace QueueConsistent

open QueueState QueueItem Index

variable {U V : Type} [DecidableEq U]

/-- The items that the user queue is to list. -/
def Wanted (s : QueueState U V) (k : Priority × U) (a : Nat) : Prop :=
  ∃ q, s.item a = some q ∧ q.isFinished = false ∧ q.priority = k.1 ∧ k.2 ∈ q.users

/-- The indexes agree, and an item that runs for a user is one of the user's and has a download
of the user. -/
structure Consistent (c : Settings) (s : QueueState U V) : Prop where
  queued : Agrees s.userQueue (Wanted s)
  running : ∀ u a, s.running u = some a → ∃ q, s.item a = some q ∧ q.isFinished = false ∧ u ∈ q.users ∧
    u ∈ q.downloads.map Download.user
  priority : ∀ a q, s.item a = some q → q.priority.isIndex = true
  sources : ∀ a q, s.item a = some q → q.users.Nodup
  targets : ∀ a b q r, s.item a = some q → s.item b = some r →
    c.key q.target = c.key r.target → a = b
  fresh : ∀ a, s.nextId ≤ a → s.item a = none

omit [DecidableEq U] in
theorem consistent_empty (c : Settings) : Consistent c (empty : QueueState U V) where
  queued := ⟨fun _ => List.nodup_nil, fun k a => by simp [empty, Wanted]⟩
  running := fun _ _ h => by cases h
  priority := fun _ _ h => by cases h
  sources := fun _ _ h => by cases h
  targets := fun _ _ _ _ h => by cases h
  fresh := fun _ _ => rfl

section Find

omit [DecidableEq U]

variable {c : Settings} {s : QueueState U V} {target : Bytes} {a : Nat}

theorem find_some (h : s.find c target = some a) :
    ∃ q, s.item a = some q ∧ c.key q.target = c.key target := by
  have ha := List.find?_some h
  rw [Option.any_eq_true] at ha
  obtain ⟨q, hq, hk⟩ := ha
  exact ⟨q, hq, beq_iff_eq.mp hk⟩

theorem lt_nextId (hc : Consistent c s) {q : QueueItem U V} (hq : s.item a = some q) :
    a < s.nextId := by
  by_contra h
  rw [hc.fresh a (not_lt.mp h)] at hq
  cases hq

theorem find_of_item (hc : Consistent c s) {q : QueueItem U V} (hq : s.item a = some q)
    (hk : c.key q.target = c.key target) : s.find c target = some a := by
  have hpa : (s.item a).any (fun q => c.key q.target == c.key target) = true := by
    rw [hq, Option.any_some]
    exact beq_iff_eq.mpr hk
  have hsome : (s.find c target).isSome = true :=
    List.find?_isSome.mpr ⟨a, List.mem_range.mpr (lt_nextId hc hq), hpa⟩
  obtain ⟨b, hb⟩ := Option.isSome_iff_exists.mp hsome
  obtain ⟨r, hr, hkr⟩ := find_some hb
  rw [hb, hc.targets b a r q hr hq (hkr.trans hk.symm)]

theorem key_ne_of_find_none (hc : Consistent c s) (h : s.find c target = none) {q : QueueItem U V}
    (hq : s.item a = some q) : c.key q.target ≠ c.key target := by
  intro hk
  rw [find_of_item hc hq hk] at h
  cases h

end Find

section SetItem

omit [DecidableEq U]

variable (s : QueueState U V) (a : Nat) (q : QueueItem U V)

@[simp] theorem setItem_item_self : (s.setItem a q).item a = some q := Function.update_self ..

@[simp] theorem setItem_item_of_ne {b : Nat} (h : b ≠ a) : (s.setItem a q).item b = s.item b :=
  Function.update_of_ne h ..

@[simp] theorem setItem_userQueue : (s.setItem a q).userQueue = s.userQueue := rfl

@[simp] theorem setItem_running : (s.setItem a q).running = s.running := rfl

@[simp] theorem setItem_nextId : (s.setItem a q).nextId = s.nextId := rfl

end SetItem

/-- What `UserQueue::remove` does for some users of an item: their entries go, and with `removeRunning`
the item no longer runs for them; otherwise only downloads are detached from it. -/
structure Removed (s s' : QueueState U V) (a : Nat) (q : QueueItem U V) (removeRunning : Bool)
    (users : List U) : Prop where
  queued : ∀ W, Agrees s.userQueue W → Agrees s'.userQueue fun k b =>
    W k b ∧ ¬((k.1 = q.priority ∧ k.2 ∈ users) ∧ b = a)
  running : ∀ u, s'.running u =
    if removeRunning = true ∧ u ∈ users ∧ s.running u = some a then none else s.running u
  item : ∃ downloads, downloads.Sublist q.downloads ∧
    (∀ d ∈ q.downloads, (removeRunning = true → d.user ∉ users) → d ∈ downloads) ∧
    s'.item = Function.update s.item a (some { q with downloads := downloads })
  nextId : s'.nextId = s.nextId
  live : s'.live = s.live
  disconnected : s'.disconnected = s.disconnected

theorem removeDownload_spec {s : QueueState U V} {a : Nat} {q : QueueItem U V}
    (hq : s.item a = some q) (u : U) :
    ∃ s', UserQueue.removeDownload s a u = some s' ∧ s'.userQueue = s.userQueue ∧
      s'.running = Function.update s.running u none ∧
      s'.item = Function.update s.item a
        (some { q with downloads := q.downloads.eraseP fun d => decide (d.user = u) }) ∧
      s'.nextId = s.nextId ∧ s'.live = s.live ∧ s'.disconnected = s.disconnected := by
  rw [UserQueue.removeDownload, hq]
  exact ⟨_, rfl, rfl, rfl, rfl, rfl, rfl, rfl⟩

theorem remove_spec {s : QueueState U V} {a : Nat} {q : QueueItem U V} (hq : s.item a = some q)
    (hp : q.priority.isIndex = true) {u : U} (hm : a ∈ s.userQueue (q.priority, u))
    (removeRunning : Bool) :
    ∃ s', UserQueue.remove s a u removeRunning = some s' ∧ Removed s s' a q removeRunning [u] := by
  have herase : ∀ W : Priority × U → Nat → Prop, Agrees s.userQueue W →
      Agrees (Function.update s.userQueue (q.priority, u) ((s.userQueue (q.priority, u)).erase a))
        fun k b => W k b ∧ ¬((k.1 = q.priority ∧ k.2 ∈ [u]) ∧ b = a) := by
    intro W hW
    refine (hW.erase (q.priority, u) a).congr fun k b => ?_
    rw [List.mem_singleton, Prod.ext_iff]
  have hguard : (q.priority.isIndex && decide (a ∈ s.userQueue (q.priority, u))) = true := by
    rw [hp, decide_eq_true hm]
    rfl
  by_cases hr : (removeRunning && s.running u == some a) = true
  · obtain ⟨hrr, hrun⟩ := Bool.and_eq_true_iff.mp hr
    obtain ⟨t, ht, huq, hrunning, hitem, hn, hl, hd⟩ := removeDownload_spec hq u
    have hqt : t.item a =
        some { q with downloads := q.downloads.eraseP fun d => decide (d.user = u) } := by
      rw [hitem]
      exact Function.update_self ..
    rw [UserQueue.remove, if_pos hr, ht, Option.bind_some, hqt, huq]
    refine ⟨_, if_pos hguard, herase, fun v => ?_, ⟨_, List.eraseP_sublist,
      fun d hd hdu => ?_, hitem⟩, hn, hl, hd⟩
    swap
    · refine (List.mem_eraseP_of_neg ?_).mpr hd
      simpa using hdu hrr
    dsimp only
    rw [hrunning]
    by_cases hv : v = u
    · subst hv
      rw [if_pos ⟨hrr, List.mem_singleton_self v, beq_iff_eq.mp hrun⟩]
      exact Function.update_self ..
    · rw [if_neg (fun h => hv (List.mem_singleton.mp h.2.1))]
      exact Function.update_of_ne hv ..
  · rw [UserQueue.remove, if_neg hr, Option.bind_some, hq]
    refine ⟨_, if_pos hguard, herase, ?_,
      ⟨q.downloads, List.Sublist.refl _, fun d hd _ => hd, ?_⟩, rfl, rfl, rfl⟩
    · intro v
      rw [if_neg]
      rintro ⟨hrr, hv, hrun⟩
      obtain rfl := List.mem_singleton.mp hv
      exact hr (by rw [hrr, hrun]; exact beq_self_eq_true (some a))
    · exact (Function.update_eq_self_iff.mpr hq.symm).symm

theorem removeUsers_spec {users : List U} (hn : users.Nodup) {s : QueueState U V} {a : Nat}
    {q : QueueItem U V} (hq : s.item a = some q) (hp : q.priority.isIndex = true)
    (hm : ∀ u ∈ users, a ∈ s.userQueue (q.priority, u)) (hd : ∀ k, (s.userQueue k).Nodup)
    (removeRunning : Bool) :
    ∃ s', UserQueue.removeUsers s a removeRunning users = some s' ∧
      Removed s s' a q removeRunning users := by
  induction users generalizing s q with
  | nil =>
    refine ⟨s, rfl, fun W hW => hW.congr fun k b => by simp, fun u => by simp,
      ⟨q.downloads, List.Sublist.refl _, fun d hd _ => hd, ?_⟩, rfl, rfl, rfl⟩
    exact (Function.update_eq_self_iff.mpr hq.symm).symm
  | cons u users ih =>
    obtain ⟨hu, hn⟩ := List.nodup_cons.mp hn
    obtain ⟨t, ht, hR⟩ := remove_spec hq hp (hm u (List.mem_cons_self ..)) removeRunning
    obtain ⟨ds, hds, hkeep, hitem⟩ := hR.item
    have hagree := hR.queued (fun k b => b ∈ s.userQueue k) ⟨hd, fun _ _ => Iff.rfl⟩
    have hq' : t.item a = some { q with downloads := ds } := by
      rw [hitem]
      exact Function.update_self ..
    have hm' : ∀ v ∈ users, a ∈ t.userQueue (q.priority, v) := by
      intro v hv
      refine (hagree.mem_iff _ a).mpr ⟨hm v (List.mem_cons_of_mem u hv), ?_⟩
      rintro ⟨⟨-, hvu⟩, -⟩
      exact hu (List.mem_singleton.mp hvu ▸ hv)
    obtain ⟨s', hs', hR'⟩ := ih hn hq' hp hm' hagree.nodup
    refine ⟨s', by rw [UserQueue.removeUsers, ht]; exact hs', fun W hW => ?_, fun v => ?_, ?_,
      hR'.nextId.trans hR.nextId, hR'.live.trans hR.live, hR'.disconnected.trans hR.disconnected⟩
    · refine (hR'.queued _ (hR.queued W hW)).congr fun k b => ?_
      simp only [List.mem_cons, List.not_mem_nil, or_false]
      tauto
    · rw [hR'.running, hR.running]
      by_cases hvu : v = u
      · subst hvu
        simp [hu]
      · simp [hvu]
    · obtain ⟨ds', hds', hkeep', hitem'⟩ := hR'.item
      refine ⟨ds', hds'.trans hds, fun d hd hdu => ?_, ?_⟩
      · refine hkeep' d (hkeep d hd fun hr hmem => ?_) fun hr hmem => ?_
        · exact hdu hr (List.mem_singleton.mp hmem ▸ List.mem_cons_self ..)
        · exact hdu hr (List.mem_cons_of_mem u hmem)
      rw [hitem', hitem, Function.update_idem]

omit [DecidableEq U] in
/-- The sources of an unfinished item all have their entry. -/
theorem Consistent.entry {c : Settings} {s : QueueState U V} (h : Consistent c s) {a : Nat}
    {q : QueueItem U V} (hq : s.item a = some q) (hf : q.isFinished = false) {u : U}
    (hu : u ∈ q.users) : a ∈ s.userQueue (q.priority, u) :=
  (h.queued.mem_iff _ _).mpr ⟨q, hq, hf, rfl, hu⟩

/-- `removeAll` for an item that is queued, though perhaps already changed. -/
theorem removeAll_spec {c : Settings} {s₀ s : QueueState U V} (h : Consistent c s₀) {a : Nat}
    {q₀ q : QueueItem U V} (hq₀ : s₀.item a = some q₀)
    (hf : q₀.isFinished = false ∨ q₀.users = []) (hs : s = s₀.setItem a q)
    (hp : q.priority = q₀.priority) (hu : q.users = q₀.users) (removeRunning : Bool) :
    ∃ s', UserQueue.removeAll s a removeRunning = some s' ∧ Removed s s' a q removeRunning q.users := by
  subst hs
  rw [UserQueue.removeAll, setItem_item_self]
  refine removeUsers_spec (hu ▸ h.sources a q₀ hq₀) (setItem_item_self ..)
    (hp ▸ h.priority a q₀ hq₀) (fun u hmem => ?_) h.queued.nodup removeRunning
  obtain hf | hnil := hf
  · rw [setItem_userQueue, hp]
    exact h.entry hq₀ hf (hu ▸ hmem)
  · rw [hu, hnil] at hmem
    cases hmem

section Replace

omit [DecidableEq U]

variable {c : Settings} {s t : QueueState U V} {a : Nat} {q q' : QueueItem U V}

/-- Whether a place of the user queue is to list an item, if there is one. -/
def WantedBy (o : Option (QueueItem U V)) (k : Priority × U) : Prop :=
  ∃ q, o = some q ∧ q.isFinished = false ∧ q.priority = k.1 ∧ k.2 ∈ q.users

theorem wantedBy_some (k : Priority × U) :
    WantedBy (some q) k ↔ q.isFinished = false ∧ q.priority = k.1 ∧ k.2 ∈ q.users :=
  ⟨fun ⟨_, h, hw⟩ => Option.some.inj h ▸ hw, fun hw => ⟨q, rfl, hw⟩⟩

/-- The state stays consistent when one item is replaced, or deleted, and the entries of
the others are kept. -/
theorem Consistent.replace (h : Consistent c s) {o : Option (QueueItem U V)} (ha : a < s.nextId)
    (hitem : t.item = Function.update s.item a o) (hid : t.nextId = s.nextId)
    (hqueued : Agrees t.userQueue fun k b => if b = a then WantedBy o k else b ∈ s.userQueue k)
    (hrun : ∀ u b, t.running u = some b → b ≠ a ∧ s.running u = some b ∨
      b = a ∧ ∃ q, o = some q ∧ q.isFinished = false ∧ u ∈ q.users ∧ u ∈ q.downloads.map Download.user)
    (ho : ∀ q, o = some q → q.priority.isIndex = true ∧ q.users.Nodup ∧
      ∀ b r, b ≠ a → s.item b = some r → c.key r.target ≠ c.key q.target) :
    Consistent c t := by
  have hself : t.item a = o := by
    rw [hitem]
    exact Function.update_self ..
  have hne : ∀ b, b ≠ a → t.item b = s.item b := by
    intro b hb
    rw [hitem]
    exact Function.update_of_ne hb ..
  refine ⟨hqueued.congr fun k b => ?_, fun u b hb => ?_, fun b q hq => ?_, fun b q hq => ?_,
    fun b b' q r hq hr hk => ?_, fun b hb => ?_⟩
  · by_cases hb : b = a
    · subst hb
      rw [if_pos rfl, Wanted, hself]
      rfl
    · rw [if_neg hb, h.queued.mem_iff, Wanted, Wanted, hne b hb]
  · obtain ⟨hba, hs⟩ | ⟨rfl, q, hq, hw⟩ := hrun u b hb
    · rw [hne b hba]
      exact h.running u b hs
    · exact ⟨q, hself.trans hq, hw⟩
  · by_cases hb : b = a
    · subst hb
      exact (ho q (hself.symm.trans hq)).1
    · exact h.priority b q (hne b hb ▸ hq)
  · by_cases hb : b = a
    · subst hb
      exact (ho q (hself.symm.trans hq)).2.1
    · exact h.sources b q (hne b hb ▸ hq)
  · by_cases hb : b = a
    · subst hb
      by_contra hbb
      have hr' : s.item b' = some r := hne b' (Ne.symm hbb) ▸ hr
      exact (ho q (hself.symm.trans hq)).2.2 b' r (Ne.symm hbb) hr' hk.symm
    · by_cases hb' : b' = a
      · subst hb'
        exact absurd hk ((ho r (hself.symm.trans hr)).2.2 b q hb (hne b hb ▸ hq))
      · exact h.targets b b' q r (hne b hb ▸ hq) (hne b' hb' ▸ hr) hk
  · rw [hne b (by omega), h.fresh b (hid ▸ hb)]

theorem Consistent.other_key (h : Consistent c s) (hq : s.item a = some q) {k : Bytes}
    (hk : c.key q.target = k) : ∀ b r, b ≠ a → s.item b = some r → c.key r.target ≠ k :=
  fun b r hb hr hkr => hb (h.targets b a r q hr hq (hkr.trans hk.symm))

theorem Consistent.ownEntry (h : Consistent c s) (hq : s.item a = some q) (k : Priority × U) :
    a ∈ s.userQueue k ↔ q.isFinished = false ∧ q.priority = k.1 ∧ k.2 ∈ q.users := by
  rw [h.queued.mem_iff, Wanted, hq]
  exact wantedBy_some k

/-- An item may change in everything that the user queue does not depend on. -/
theorem Consistent.modify (h : Consistent c s) (hq : s.item a = some q)
    (hf : q'.isFinished = q.isFinished ∨ q.users = []) (hp : q'.priority = q.priority)
    (hu : q'.users = q.users) (ht : c.key q'.target = c.key q.target)
    (hd : q'.downloads = q.downloads) : Consistent c (s.setItem a q') := by
  have hown : ∀ k, a ∈ s.userQueue k ↔ WantedBy (some q') k := by
    intro k
    rw [h.ownEntry hq, wantedBy_some, hp, hu]
    obtain hf | hnil := hf
    · rw [hf]
    · rw [hnil]
      simp
  refine h.replace (lt_nextId h hq) rfl rfl
    ⟨h.queued.nodup, fun k b => ?_⟩ (fun u b hb => ?_) fun r hr => ?_
  · rw [setItem_userQueue]
    by_cases hb : b = a
    · rw [if_pos hb, hb, hown]
    · rw [if_neg hb]
  · by_cases hba : b = a
    · subst hba
      obtain ⟨r, hr, hfr, hur, hdr⟩ := h.running u b hb
      obtain rfl := Option.some.inj (hq.symm.trans hr)
      refine Or.inr ⟨rfl, q', rfl, ?_, hu ▸ hur, hd ▸ hdr⟩
      obtain hf | hnil := hf
      · rw [hf, hfr]
      · rw [hnil] at hur
        cases hur
    · exact Or.inl ⟨hba, hb⟩
  · obtain rfl := Option.some.inj hr
    exact ⟨hp ▸ h.priority a q hq, hu ▸ h.sources a q hq, h.other_key hq ht.symm⟩

/-- Only items and pointers matter. -/
theorem Consistent.of_eq (h : Consistent c s) (hi : t.item = s.item)
    (hu : t.userQueue = s.userQueue) (hn : t.nextId = s.nextId) (hr : t.running = s.running) :
    Consistent c t := by
  refine ⟨?_, ?_, ?_, ?_, ?_, ?_⟩
  · rw [hu]
    refine h.queued.congr fun k b => ?_
    rw [Wanted, Wanted, hi]
  · rw [hi, hr]
    exact h.running
  · rw [hi]
    exact h.priority
  · rw [hi]
    exact h.sources
  · rw [hi]
    exact h.targets
  · rw [hi, hn]
    exact h.fresh

end Replace

theorem Consistent.removeDownload {c : Settings} {s : QueueState U V} (h : Consistent c s) {a : Nat}
    {q : QueueItem U V} (hq : s.item a = some q) (u : U) :
    ∃ s', UserQueue.removeDownload s a u = some s' ∧ Consistent c s' ∧
      (∃ downloads, s'.item = Function.update s.item a (some { q with downloads := downloads })) ∧
      s'.userQueue = s.userQueue ∧ s'.running = Function.update s.running u none ∧
      s'.nextId = s.nextId ∧ s'.live = s.live ∧ s'.disconnected = s.disconnected := by
  obtain ⟨s', hs', huq, hr, hi, hn, hl, hd⟩ := removeDownload_spec hq u
  refine ⟨s', hs', ?_, ⟨_, hi⟩, huq, hr, hn, hl, hd⟩
  refine h.replace (lt_nextId h hq) hi hn ⟨huq ▸ h.queued.nodup, fun k b => ?_⟩ (fun v b hb => ?_)
    fun r hr => ?_
  · rw [huq]
    by_cases hb : b = a
    · rw [if_pos hb, hb, h.ownEntry hq, wantedBy_some]
      rfl
    · rw [if_neg hb]
  · have hv : v ≠ u := by
      rintro rfl
      rw [hr, Function.update_self] at hb
      cases hb
    rw [hr, Function.update_of_ne hv] at hb
    by_cases hba : b = a
    · subst hba
      obtain ⟨r, hr', hfr, hvr, hdr⟩ := h.running v b hb
      obtain rfl := Option.some.inj (hq.symm.trans hr')
      obtain ⟨d, hd, hdv⟩ := List.mem_map.mp hdr
      refine Or.inr ⟨rfl, _, rfl, hfr, hvr, List.mem_map.mpr ⟨d, ?_, hdv⟩⟩
      refine (List.mem_eraseP_of_neg ?_).mpr hd
      simpa [hdv] using hv
    · exact Or.inl ⟨hba, hb⟩
  · obtain rfl := Option.some.inj hr
    exact ⟨h.priority a q hq, h.sources a q hq, h.other_key hq rfl⟩

end QueueConsistent

end Dcpp
