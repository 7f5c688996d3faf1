import Dcpp.RemoveSource
import Dcpp.Library.Runs

namespace Dcpp.QueueInvariant

open QueueState QueueItem QueueConsistent QueueSteps Index

variable {U V : Type} [DecidableEq U] {c : Settings} {s : QueueState U V}

omit [DecidableEq U] in
theorem isFinished_reset (q : QueueItem U V) : q.resetDownloaded.isFinished = false :=
  decide_eq_false (List.cons_ne_nil _ _).symm

omit [DecidableEq U] in
theorem defaultPriority_isIndex (c : Settings) (aSize : Int) (aFlags : Flags) :
    (QueueManager.defaultPriority c aSize aFlags).isIndex = true := by
  rw [QueueManager.defaultPriority]
  split_ifs <;> rfl

omit [DecidableEq U] in
/-- An item without sources can be put at a new address. -/
theorem new_consistent (h : Consistent c s) {q : QueueItem U V} (hp : q.priority.isIndex = true)
    (hu : q.users = []) (hk : ∀ b r, s.item b = some r → c.key r.target ≠ c.key q.target) :
    Consistent c { s.setItem s.nextId q with nextId := s.nextId + 1 } := by
  have hself : (s.setItem s.nextId q).item s.nextId = some q := setItem_item_self ..
  have hne : ∀ b, b ≠ s.nextId → (s.setItem s.nextId q).item b = s.item b :=
    fun b hb => setItem_item_of_ne s s.nextId q hb
  have hfresh : s.item s.nextId = none := h.fresh s.nextId le_rfl
  refine ⟨h.queued.congr fun k b => ?_, fun u b hb => ?_, fun b r hr => ?_, fun b r hr => ?_,
    fun b b' r r' hr hr' hkey => ?_, fun b hb => ?_⟩
  · by_cases hb : b = s.nextId
    · subst hb
      refine iff_of_false (fun ⟨r, hr, _⟩ => ?_) (fun ⟨r, hr, _, _, hmem⟩ => ?_)
      · rw [hfresh] at hr
        cases hr
      · obtain rfl := Option.some.inj (hself.symm.trans hr)
        rw [hu] at hmem
        cases hmem
    · rw [Wanted, Wanted]
      dsimp only
      rw [hne b hb]
  · obtain ⟨r, hr, hx⟩ := h.running u b hb
    have hbn : b ≠ s.nextId := by
      rintro rfl
      rw [hfresh] at hr
      cases hr
    exact ⟨r, (hne b hbn).trans hr, hx⟩
  · by_cases hb : b = s.nextId
    · subst hb
      obtain rfl := Option.some.inj (hself.symm.trans hr)
      exact hp
    · exact h.priority b r ((hne b hb).symm.trans hr)
  · by_cases hb : b = s.nextId
    · subst hb
      obtain rfl := Option.some.inj (hself.symm.trans hr)
      rw [hu]
      exact List.nodup_nil
    · exact h.sources b r ((hne b hb).symm.trans hr)
  · by_cases hb : b = s.nextId <;> by_cases hb' : b' = s.nextId
    · rw [hb, hb']
    · subst hb
      obtain rfl := Option.some.inj (hself.symm.trans hr)
      exact absurd hkey.symm (hk b' r' ((hne b' hb').symm.trans hr'))
    · subst hb'
      obtain rfl := Option.some.inj (hself.symm.trans hr')
      exact absurd hkey (hk b r ((hne b hb).symm.trans hr))
    · exact h.targets b b' r r' ((hne b hb).symm.trans hr) ((hne b' hb').symm.trans hr') hkey
  · have hb' : s.nextId + 1 ≤ b := hb
    exact (hne b (by omega)).trans (h.fresh b (by omega))

theorem addToSame_consistent [DecidableEq V] (passive : U → Bool) (f : QueueManager.NewFile U V)
    {ql : List Nat} (h : Consistent c s) (hql : ∀ i ∈ ql, s.item i ≠ none) (sourceAdded permanent : Bool) :
    ∃ r, QueueManager.addToSame passive f ql s sourceAdded permanent = some r ∧ Consistent c r.1 := by
  induction ql generalizing s sourceAdded permanent with
  | nil => exact ⟨_, rfl, h⟩
  | cons i ql ih =>
    have hrest : ∀ j ∈ ql, s.item j ≠ none := fun j hj => hql j (List.mem_cons_of_mem i hj)
    obtain ⟨q, hq⟩ := Option.ne_none_iff_exists'.mp (hql i (List.mem_cons_self ..))
    rw [QueueManager.addToSame, hq]
    dsimp only
    by_cases hsrc : q.isSource f.user.user = true
    · rw [if_pos hsrc]
      exact ih h hrest _ _
    · rw [if_neg hsrc]
      obtain ⟨r, hr, hc, ⟨q', hi⟩, -⟩ :=
        addSource_consistent h hq f.user f.mask (passive f.user.user)
      rw [hr, Option.bind_some]
      refine ih hc (fun j hj => ?_) _ _
      rw [hi]
      by_cases hji : j = i
      · rw [hji, Function.update_self]
        simp
      · rw [Function.update_of_ne hji]
        exact hrest j hj

theorem addItem_consistent [DecidableEq V] (passive : U → Bool) (f : QueueManager.NewFile U V)
    (h : Consistent c s) : ∃ s', QueueManager.addItem c passive s f = some s' ∧ Consistent c s' := by
  rw [QueueManager.addItem]
  cases hfind : s.find c f.target with
  | none =>
    dsimp only
    have hnew := new_consistent h (q := {
        flags := f.flags, target := f.target, size := f.size,
        priority := QueueManager.defaultPriority c f.size f.flags, added := f.added,
        tthRoot := f.root, tempTarget := f.tempTarget, sources := [], badSources := [], done := [],
        downloads := [] })
      (defaultPriority_isIndex c f.size f.flags) rfl fun b r hr => key_ne_of_find_none h hfind hr
    obtain ⟨r, hr, hc, -⟩ := addSource_consistent hnew
      (setItem_item_self s s.nextId _) f.user f.mask (passive f.user.user)
    rw [hr]
    exact ⟨r.1, rfl, hc⟩
  | some a =>
    obtain ⟨q, hq, -⟩ := find_some hfind
    dsimp only
    rw [hq]
    dsimp only
    by_cases hx : q.size ≠ f.size ∨ q.tthRoot ≠ f.root ∨ q.isFinished = true
    · rw [if_pos hx]
      exact ⟨s, rfl, h⟩
    · rw [if_neg hx]
      have hmod : Consistent c (s.setItem a { q with flags := q.flags.setFlag f.flags }) :=
        h.modify hq (Or.inl rfl) rfl rfl rfl rfl
      obtain ⟨r, hr, hc, -⟩ :=
        addSource_consistent hmod (setItem_item_self ..) f.user f.mask (passive f.user.user)
      rw [hr]
      exact ⟨r.1, rfl, hc⟩

theorem add_consistent [DecidableEq V] (passive : U → Bool) (f : QueueManager.NewFile U V)
    (h : Consistent c s) : ∃ s', QueueManager.add c passive s f = some s' ∧ Consistent c s' := by
  rw [QueueManager.add]
  split
  · exact ⟨s, rfl, h⟩
  split
  · have hroot : ∀ i ∈ s.findRoot f.root, s.item i ≠ none := fun i hi hnone => by
      have hi' := (List.mem_filter.mp hi).2
      rw [hnone] at hi'
      cases hi'
    obtain ⟨r, hr, hc⟩ := addToSame_consistent passive f h hroot false false
    rw [hr, Option.bind_some]
    split
    · exact ⟨r.1, rfl, hc⟩
    · exact addItem_consistent passive f hc
  · exact addItem_consistent passive f h

/-- The sources of one item are given to another. -/
theorem moveSources_consistent (passive : U → Bool) {b : Nat} (sources : List (Source U))
    (h : Consistent c s) (hb : s.item b ≠ none) :
    ∃ s', QueueManager.moveSources passive b sources s = some s' ∧ Consistent c s' ∧
      ∀ a, a ≠ b → s'.item a = s.item a := by
  induction sources generalizing s with
  | nil => exact ⟨s, rfl, h, fun _ _ => rfl⟩
  | cons i sources ih =>
    obtain ⟨q, hq⟩ := Option.ne_none_iff_exists'.mp hb
    obtain ⟨r, hr, hc, ⟨q', hi⟩, -⟩ :=
      addSource_consistent h hq i.user Source.FLAG_MASK (passive i.user.user)
    obtain ⟨s', hs', hc', hkeep⟩ := ih hc (by rw [hi, Function.update_self]; simp)
    refine ⟨s', by rw [QueueManager.moveSources, hr]; exact hs', hc', fun a ha => ?_⟩
    rw [hkeep a ha, hi, Function.update_of_ne ha]

/-- A list of directories has a source to take them from. -/
def DirectorySource (q : QueueItem U V) : Prop :=
  q.isSet FLAG_DIRECTORY_DOWNLOAD = true → q.users ≠ []

theorem move_consistent [DecidableEq V] (passive : U → Bool) (h : Consistent c s) (aSource target : Bytes)
    (hdir : ∀ a q, s.find c aSource = some a → s.item a = some q → DirectorySource q) :
    ∃ s', QueueManager.move c passive s aSource target = some s' ∧ Consistent c s' := by
  rw [QueueManager.move]
  split
  · exact ⟨s, rfl, h⟩
  cases hfind : s.find c aSource with
  | none => exact ⟨s, rfl, h⟩
  | some a =>
    obtain ⟨q, hq, hk⟩ := find_some hfind
    dsimp only
    rw [hq]
    dsimp only
    split
    · exact ⟨s, rfl, h⟩
    -- an item may take a target that no other one has
    have hrename : (∀ b r, b ≠ a → s.item b = some r → c.key r.target ≠ c.key target) →
        Consistent c (s.setItem a { q with target := target }) := by
      intro hkey
      refine h.replace (lt_nextId h hq) rfl rfl ⟨h.queued.nodup, fun k b => ?_⟩ (fun u b hb => ?_)
        fun r hr => ?_
      · by_cases hb : b = a
        · rw [if_pos hb, hb, wantedBy_some]
          exact h.ownEntry hq k
        · rw [if_neg hb]
          rfl
      · by_cases hb' : b = a
        · subst hb'
          obtain ⟨r, hr, hx⟩ := h.running u b hb
          obtain rfl := Option.some.inj (hq.symm.trans hr)
          exact Or.inr ⟨rfl, _, rfl, hx⟩
        · exact Or.inl ⟨hb', hb⟩
      · obtain rfl := Option.some.inj hr
        exact ⟨h.priority a q hq, h.sources a q hq, hkey⟩
    cases hfind' : s.find c target with
    | none => exact ⟨_, rfl, hrename fun b r _ hr => key_ne_of_find_none h hfind' hr⟩
    | some b =>
      obtain ⟨r, hr, hkr⟩ := find_some hfind'
      dsimp only
      by_cases hsame : c.key aSource = c.key target
      · rw [if_pos hsame]
        exact ⟨_, rfl, hrename fun b r hb hr => h.other_key hq (hk.trans hsame) b r hb hr⟩
      · rw [if_neg hsame, hr]
        dsimp only
        split
        · exact ⟨s, rfl, h⟩
        · have hab : a ≠ b := by
            rintro rfl
            obtain rfl := Option.some.inj (hq.symm.trans hr)
            exact hsame (hk.symm.trans hkr)
          obtain ⟨s₁, hs₁, hc, hkeep⟩ :=
            moveSources_consistent passive q.sources h (b := b) (by rw [hr]; simp)
          have hq₁ : s₁.item a = some q := (hkeep a hab).trans hq
          obtain ⟨s', hs', hc', -⟩ :=
            remove_consistent hc (find_of_item hc hq₁ hk) hq₁ (hdir a q hfind hq)
          rw [hs₁, Option.bind_some]
          exact ⟨s', hs', hc'⟩

theorem newDownload_spec (e : QueueManager.Circumstances V) (id : Nat) {u : U} {q : QueueItem U V}
    (hu : u ∈ q.users) : ∃ d, QueueManager.newDownload c e id u q = some d ∧ d.id = id ∧ d.user = u ∧
      d.path = q.target := by
  obtain ⟨i, hi⟩ := Option.isSome_iff_exists.mp (isSource_iff.mpr hu)
  rw [QueueManager.newDownload]
  dsimp only
  split
  · exact ⟨_, rfl, rfl, rfl, rfl⟩
  · cases e.tree with
    | some blockSize => exact ⟨_, rfl, rfl, rfl, rfl⟩
    | none =>
      dsimp only
      rw [hi]
      dsimp only
      split
      · exact ⟨_, rfl, rfl, rfl, rfl⟩
      · exact ⟨_, rfl, rfl, rfl, rfl⟩

/-- The item as it is when a download of it begins. -/
def prepared (e : QueueManager.Circumstances V) (q : QueueItem U V) : QueueItem U V :=
  (if 0 < q.getDownloadedBytes then
    if e.tempGone then (q.chooseTempTarget e.temp).resetDownloaded else q.chooseTempTarget e.temp
  else q).chooseTempTarget e.temp

omit [DecidableEq U] in
theorem prepared_spec (e : QueueManager.Circumstances V) (q : QueueItem U V) :
    ∃ tempTarget done, prepared e q = { q with tempTarget := tempTarget, done := done } ∧
      (done = q.done ∨ done = []) := by
  rw [prepared]
  obtain ⟨t₁, h₁⟩ := chooseTempTarget_eq q e.temp
  split
  · rw [h₁]
    split
    · obtain ⟨t₂, h₂⟩ := chooseTempTarget_eq { q with tempTarget := t₁, done := [] } e.temp
      exact ⟨t₂, [], h₂, Or.inr rfl⟩
    · obtain ⟨t₂, h₂⟩ := chooseTempTarget_eq { q with tempTarget := t₁ } e.temp
      exact ⟨t₂, q.done, h₂, Or.inl rfl⟩
  · exact ⟨t₁, q.done, h₁, Or.inl rfl⟩

omit [DecidableEq U] in
theorem prepared_unfinished (e : QueueManager.Circumstances V) {q : QueueItem U V}
    (hf : q.isFinished = false) : (prepared e q).isFinished = false := by
  obtain ⟨t, done, h, hdone⟩ := prepared_spec e q
  rw [h]
  obtain rfl | rfl := hdone
  · exact hf
  · exact isFinished_reset { q with tempTarget := t }

theorem attach_consistent (h : Consistent c s) {a : Nat} {q q' : QueueItem U V} (hq : s.item a = some q)
    (hf : q.isFinished = false) (hf' : q'.isFinished = false) (hp : q'.priority = q.priority)
    (hu : q'.users = q.users) (ht : q'.target = q.target) (hd : q'.downloads = q.downloads)
    {d : Download U} (hdu : d.user ∈ q.users) :
    ∃ s', UserQueue.addDownload { s.setItem a q' with
        nextId := s.nextId + 1, live := s.live ++ [d] } a d = some s' ∧ Consistent c s' ∧
      s'.item = Function.update s.item a (some { q' with downloads := q.downloads ++ [d] }) ∧
      s'.live = s.live ++ [d] ∧ s'.nextId = s.nextId + 1 := by
  have hset : (s.setItem a q').item a = some q' := setItem_item_self ..
  rw [UserQueue.addDownload]
  dsimp only
  rw [hset]
  have hitem : (setItem { s.setItem a q' with nextId := s.nextId + 1, live := s.live ++ [d] } a
      { q' with downloads := q'.downloads ++ [d] }).item =
      Function.update s.item a (some { q' with downloads := q.downloads ++ [d] }) := by
    rw [hd]
    exact Function.update_idem ..
  refine ⟨_, rfl, ?_, hitem, rfl, rfl⟩
  have hcons : Consistent c { s with
      item := Function.update s.item a (some { q' with downloads := q.downloads ++ [d] })
      running := Function.update s.running d.user (some a) } := by
    refine h.replace (lt_nextId h hq) rfl rfl ⟨h.queued.nodup, fun k b => ?_⟩ (fun v b hb => ?_)
      fun r hr => ?_
    · by_cases hb : b = a
      · rw [if_pos hb, hb, h.ownEntry hq, wantedBy_some, ← hp, ← hu, hf]
        exact and_congr_left' (iff_of_true rfl hf')
      · rw [if_neg hb]
    · dsimp only at hb
      by_cases hv : v = d.user
      · rw [hv, Function.update_self] at hb
        obtain rfl := Option.some.inj hb
        refine Or.inr ⟨rfl, _, rfl, hf', hv ▸ hu ▸ hdu, ?_⟩
        rw [hv, List.map_append]
        exact List.mem_append_right _ (List.mem_singleton_self _)
      · rw [Function.update_of_ne hv] at hb
        by_cases hba : b = a
        · subst hba
          obtain ⟨r, hr, -, hvr, hdr⟩ := h.running v b hb
          obtain rfl := Option.some.inj (hq.symm.trans hr)
          refine Or.inr ⟨rfl, _, rfl, hf', hu ▸ hvr, ?_⟩
          rw [List.map_append]
          exact List.mem_append_left _ hdr
        · exact Or.inl ⟨hba, hb⟩
    · obtain rfl := Option.some.inj hr
      exact ⟨hp ▸ h.priority a q hq, hu ▸ h.sources a q hq, h.other_key hq (ht ▸ rfl)⟩
  refine ⟨?_, ?_, ?_, ?_, ?_, fun b hb => ?_⟩
  · refine hcons.queued.congr fun k b => ?_
    rw [Wanted, Wanted]
    dsimp only
    rw [hitem]
  · dsimp only
    rw [hitem]
    exact hcons.running
  · dsimp only
    rw [hitem]
    exact hcons.priority
  · dsimp only
    rw [hitem]
    exact hcons.sources
  · dsimp only
    rw [hitem]
    exact hcons.targets
  · have hb' : s.nextId + 1 ≤ b := hb
    dsimp only
    rw [hitem]
    exact hcons.fresh b (le_trans (Nat.le_succ s.nextId) hb')

/-- What `getDownload` does: nothing, or it attaches a new download to an item that the user queue
lists for the user. -/
inductive GetDownload (c : Settings) (e : QueueManager.Circumstances V) (u : U) (s s' : QueueState U V) :
    Prop where
  | nothing (h : s' = s)
  | attached (a : Nat) (q : QueueItem U V) (d : Download U) (hq : s.item a = some q)
      (hf : q.isFinished = false) (hu : u ∈ q.users)
      (he : UserQueue.eligible c.segments q (e.blockSizeOf q.tthRoot) e.chunkSize = true)
      (hd : QueueManager.newDownload c e s.nextId u (prepared e q) = some d)
      (hi : s'.item = Function.update s.item a
        (some { prepared e q with downloads := q.downloads ++ [d] }))
      (hl : s'.live = s.live ++ [d]) (hn : s'.nextId = s.nextId + 1)

theorem getDownload_consistent (e : QueueManager.Circumstances V) (u : U) (h : Consistent c s) :
    ∃ s', QueueManager.getDownload c e s u = some s' ∧ Consistent c s' ∧ GetDownload c e u s s' := by
  have hlive : ∀ a ∈ UserQueue.entries s u .LOWEST, s.item a ≠ none := by
    intro a ha hnone
    obtain ⟨q, hq, -⟩ := (RemoveSource.mem_entries h).mp ha
    rw [hnone] at hq
    cases hq
  obtain ⟨r, hr, -, hsome⟩ :=
    RemoveSource.firstEligible_spec (c := c.segments) e.blockSizeOf e.chunkSize hlive
  have hnext : UserQueue.getNext c.segments e.blockSizeOf s u .LOWEST e.chunkSize = some r := hr
  rw [QueueManager.getDownload, hnext, Option.bind_some]
  cases r with
  | none => exact ⟨s, rfl, h, .nothing rfl⟩
  | some a =>
    obtain ⟨ha, q, hq, he⟩ := hsome a rfl
    obtain ⟨q', hq', hf, hu, -⟩ := (RemoveSource.mem_entries h).mp ha
    obtain rfl := Option.some.inj (hq.symm.trans hq')
    obtain ⟨temp, done, hprep, -⟩ := prepared_spec e q
    have hu' : u ∈ (prepared e q).users := by
      rw [hprep]
      exact hu
    obtain ⟨d, hd, -, hdu, -⟩ := newDownload_spec (c := c) e s.nextId hu'
    obtain ⟨s', hs', hc, hi, hl, hn⟩ := attach_consistent h hq hf (prepared_unfinished e hf)
      (by rw [hprep]) (by rw [hprep]; rfl) (by rw [hprep]) (by rw [hprep]) (d := d) (hdu ▸ hu)
    refine ⟨s', ?_, hc, .attached a q d hq hf hu he hd hi hl hn⟩
    dsimp only
    rw [hq]
    dsimp only
    change (QueueManager.newDownload c e s.nextId u (prepared e q)).bind _ = _
    rw [hd]
    exact hs'

omit [DecidableEq U] in
theorem putUnfinished_eq (q : QueueItem U V) (d : Download U) (pos : Int) :
    ∃ done, q.putUnfinished d pos = { q with done := done } := by
  rw [putUnfinished]
  split
  · exact ⟨_, rfl⟩
  · exact ⟨q.done, rfl⟩

omit [DecidableEq U] in
theorem putUnfinished_isFinished (q : QueueItem U V) (temp : Bytes) (d : Download U) (pos : Int) :
    (putUnfinished { q with tempTarget := temp } d pos).isFinished = (q.putUnfinished d pos).isFinished := by
  rw [putUnfinished, putUnfinished]
  split <;> rfl

theorem putFailed_consistent (h : Consistent c s) {a : Nat} {q : QueueItem U V} (hq : s.item a = some q)
    (d : Download U) (pos : Int)
    (hf : d.type = .TYPE_FILE → (q.putUnfinished d pos).isFinished = q.isFinished ∨ q.users = []) :
    ∃ s', QueueManager.putFailed s a q d pos = some s' ∧ Consistent c s' := by
  obtain ⟨temp, htemp⟩ : ∃ temp, (if d.type ≠ .TYPE_TREE ∧ q.getDownloadedBytes = 0 then
      { q with tempTarget := [] } else q) = { q with tempTarget := temp } := by
    split
    · exact ⟨[], rfl⟩
    · exact ⟨q.tempTarget, rfl⟩
  rw [QueueManager.putFailed, htemp]
  by_cases hd : d.type = .TYPE_FILE
  · rw [if_pos hd]
    obtain ⟨done, hdone⟩ := putUnfinished_eq { q with tempTarget := temp } d pos
    have hfin := putUnfinished_isFinished q temp d pos
    rw [hdone] at hfin ⊢
    have hmod : Consistent c (s.setItem a { q with tempTarget := temp, done := done }) :=
      h.modify hq ((hf hd).imp_left fun he => hfin.trans he) rfl rfl rfl rfl
    obtain ⟨s', hs', hc, -⟩ := Consistent.removeDownload hmod (setItem_item_self ..) d.user
    exact ⟨s', hs', hc⟩
  · rw [if_neg hd]
    have hmod : Consistent c (s.setItem a { q with tempTarget := temp }) :=
      h.modify hq (Or.inl rfl) rfl rfl rfl rfl
    obtain ⟨s', hs', hc, -⟩ := Consistent.removeDownload hmod (setItem_item_self ..) d.user
    exact ⟨s', hs', hc⟩

/-- `removeAll`, after the item was perhaps changed, and then it is deleted or kept as one
that is not wanted. -/
theorem removeAll_consistent (h : Consistent c s) {a : Nat} {q₀ q : QueueItem U V}
    (hq₀ : s.item a = some q₀) (hf : q₀.isFinished = false ∨ q₀.users = [])
    (hp : q.priority = q₀.priority) (hu : q.users = q₀.users) (ht : q.target = q₀.target)
    {b : Bool} (hkeep : b = true → q.isFinished = true ∨ q₀.users = []) :
    ∃ s', ((UserQueue.removeAll (s.setItem a q) a true).map fun s =>
      if b then s else s.deleteItem a) = some s' ∧ Consistent c s' := by
  obtain ⟨s₁, hs₁, hR⟩ := removeAll_spec h hq₀ hf rfl hp hu true
  obtain ⟨ds, -, -, hi⟩ := hR.item
  have hi : s₁.item = Function.update s.item a (some { q with downloads := ds }) := by
    rw [hi]
    exact Function.update_idem ..
  rw [hs₁, Option.map_some]
  cases b with
  | true =>
    refine ⟨s₁, rfl, Removed.consistent h hq₀ rfl hp hu hR hi rfl rfl rfl (fun k hk => ?_) fun r hr => ?_⟩
    · obtain ⟨hkf, -, hmem⟩ := (wantedBy_some k).mp hk
      obtain hq | hnil := hkeep rfl
      · exact Bool.false_ne_true (hkf.symm.trans hq)
      · have hnil' : users { q with downloads := ds } = [] := hu.trans hnil
        rw [hnil'] at hmem
        cases hmem
    · obtain rfl := Option.some.inj hr
      exact ⟨hp, hu, congrArg c.key ht⟩
  | false =>
    refine ⟨s₁.deleteItem a, rfl, Removed.consistent h hq₀ rfl hp hu hR (o := none) ?_ rfl rfl rfl
      (fun k ⟨r, hr, _⟩ => by cases hr) (fun r hr => by cases hr)⟩
    rw [deleteItem, hi]
    exact Function.update_idem ..

theorem crcFailed_consistent (h : Consistent c s) {a : Nat} {q : QueueItem U V}
    (hq : s.item a = some q) (hf : q.isFinished = false) (hl : q.isSet FLAG_USER_LIST = false)
    (seg : Segment) :
    ∃ s' q', QueueManager.crcFailed c (s.setItem a (q.addSegment seg)) a = some s' ∧ Consistent c s' ∧
      s'.item a = some q' ∧ q'.isFinished = false := by
  have hset : (s.setItem a (q.addSegment seg)).setItem a (q.addSegment seg).resetDownloaded =
      s.setItem a q.resetDownloaded := by
    rw [setItem, setItem]
    exact congrArg (fun item => { s with item := item }) (Function.update_idem ..)
  have hmod : Consistent c (s.setItem a q.resetDownloaded) :=
    h.modify hq (Or.inl ((isFinished_reset q).trans hf.symm)) rfl rfl rfl rfl
  obtain ⟨s₁, hs₁, hc₁, hkeep⟩ := managerSetPriority_consistent hmod q.target (p := .PAUSED) rfl
  obtain ⟨q₁, hq₁, hk₁⟩ := hkeep a q.resetDownloaded (setItem_item_self ..)
  obtain ⟨s₂, hs₂, hc₂, hkeep₂⟩ :=
    removeSources_consistent hc₁ q₁.target Source.FLAG_CRC_FAILED q₁.users
  obtain ⟨q₂, hq₂, hk₂⟩ := hkeep₂ a q₁ hq₁ (by rw [isSet, hk₁.flags]; exact hl)
  refine ⟨s₂, q₂, ?_, hc₂, hq₂, (hk₁.trans hk₂).isFinished.trans (isFinished_reset q)⟩
  rw [QueueManager.crcFailed, setItem_item_self]
  dsimp only
  rw [hset]
  change (QueueManager.setPriority c (s.setItem a q.resetDownloaded) q.target .PAUSED).bind _ = _
  rw [hs₁, Option.bind_some, hq₁]
  exact hs₂

theorem putFile_consistent (h : Consistent c s) {a : Nat} {q : QueueItem U V} (hq : s.item a = some q)
    (hf : q.isFinished = false ∨ q.users = []) (d : Download U) {crcOk : Bool}
    (hl : crcOk = true ∨ q.isFinished = false ∧ q.isSet FLAG_USER_LIST = false) :
    ∃ s', QueueManager.putFile c s a q d crcOk = some s' ∧ Consistent c s' := by
  rw [QueueManager.putFile]
  by_cases hcrc : ((q.addSegment d.segment).isFinished && !crcOk) = true
  · obtain hl | ⟨hfin, hl⟩ := hl
    · rw [hl] at hcrc
      simp at hcrc
    obtain ⟨s₁, q₁, hs₁, hc₁, hq₁, hf₁⟩ := crcFailed_consistent h hq hfin hl d.segment
    obtain ⟨s', hs', hc, -⟩ := Consistent.removeDownload hc₁ hq₁ d.user
    rw [if_pos hcrc, hs₁, Option.bind_some, hq₁]
    dsimp only
    rw [hf₁]
    exact ⟨s', hs', hc⟩
  · rw [if_neg hcrc, Option.bind_some, setItem_item_self]
    dsimp only
    by_cases hfin : (q.addSegment d.segment).isFinished = true
    · rw [if_pos hfin]
      exact removeAll_consistent h hq hf (q := q.addSegment d.segment) rfl rfl rfl fun _ => Or.inl hfin
    · rw [if_neg hfin]
      rw [Bool.not_eq_true] at hfin
      have hmod : Consistent c (s.setItem a (q.addSegment d.segment)) :=
        h.modify hq (hf.imp_left fun hf => hfin.trans hf.symm) rfl rfl rfl rfl
      obtain ⟨s', hs', hc, -⟩ := Consistent.removeDownload hmod (setItem_item_self ..) d.user
      exact ⟨s', hs', hc⟩

/-- A finished download leaves its item finished at most for the first time, and only files, not
lists, have a checksum. -/
structure FinishedOnce (q : QueueItem U V) (d : Download U) (crcOk : Bool) : Prop where
  unfinished : d.type ≠ .TYPE_TREE → q.isFinished = false ∨ q.users = []
  file : d.type = .TYPE_FILE → crcOk = true ∨ q.isFinished = false ∧ q.isSet FLAG_USER_LIST = false

theorem putFinished_consistent (h : Consistent c s) {a : Nat} {q : QueueItem U V}
    (hq : s.item a = some q) {d : Download U} {crcOk : Bool} (hd : FinishedOnce q d crcOk) :
    ∃ s', QueueManager.putFinished c s a q d crcOk = some s' ∧ Consistent c s' := by
  rw [QueueManager.putFinished]
  cases htype : d.type with
  | TYPE_PARTIAL_LIST =>
    have hrem := removeAll_consistent h hq (hd.unfinished (by rw [htype]; decide)) (q := q) rfl rfl rfl
      (b := false) (fun hk => by cases hk)
    rw [setItem_eq_self hq] at hrem
    exact hrem
  | TYPE_TREE =>
    obtain ⟨s', hs', hc, -⟩ := Consistent.removeDownload h hq d.user
    exact ⟨s', hs', hc⟩
  | TYPE_FULL_LIST =>
    exact removeAll_consistent h hq (hd.unfinished (by rw [htype]; decide))
      (q := q.addSegment ⟨0, q.size⟩) rfl rfl rfl (b := false) (fun hk => by cases hk)
  | TYPE_FILE =>
    exact putFile_consistent h hq (hd.unfinished (by rw [htype]; decide)) d (hd.file htype)

/-- What has to hold of the item that a download is put back to. -/
def PutMeets (q : QueueItem U V) (d : Download U) (pos : Int) (finished crcOk : Bool) : Prop :=
  if finished then FinishedOnce q d crcOk
  else d.type = .TYPE_FILE → (q.putUnfinished d pos).isFinished = q.isFinished ∨ q.users = []

theorem putDownload_consistent (h : Consistent c s) (id : Nat) (pos : Int) (finished crcOk : Bool)
    (hm : ∀ d a q, (s.live.find? fun d => d.id == id) = some d → s.find c d.path = some a →
      s.item a = some q → PutMeets q d pos finished crcOk) :
    ∃ s', QueueManager.putDownload c s id pos finished crcOk = some s' ∧ Consistent c s' := by
  rw [QueueManager.putDownload]
  cases hlive : s.live.find? fun d => d.id == id with
  | none => exact ⟨s, rfl, h⟩
  | some d =>
    dsimp only
    have h' : Consistent c { s with live := s.live.eraseP fun d => d.id == id } :=
      h.of_eq rfl rfl rfl rfl
    have hfind' : find c { s with live := s.live.eraseP fun d => d.id == id } d.path =
        s.find c d.path := rfl
    rw [hfind']
    cases hfind : s.find c d.path with
    | none => exact ⟨_, rfl, h'⟩
    | some a =>
      obtain ⟨q, hq, -⟩ := find_some hfind
      have hput := hm d a q hlive hfind hq
      rw [PutMeets] at hput
      dsimp only
      rw [hq]
      dsimp only
      cases finished with
      | true => exact putFinished_consistent h' hq hput
      | false => exact putFailed_consistent h' hq d pos hput

omit [DecidableEq U] in
theorem recheckStart_consistent (h : Consistent c s) (file temp : Bytes) :
    ∃ s', (match s.find c file with
      | none => some s
      | some a => (s.item a).map fun q => s.setItem a (q.chooseTempTarget temp)) = some s' ∧
      Consistent c s' := by
  cases hfind : s.find c file with
  | none => exact ⟨s, rfl, h⟩
  | some a =>
    obtain ⟨q, hq, -⟩ := find_some hfind
    obtain ⟨t, ht⟩ := chooseTempTarget_eq q temp
    dsimp only
    rw [hq, Option.map_some, ht]
    exact ⟨_, rfl, h.modify hq (Or.inl rfl) rfl rfl rfl rfl⟩

omit [DecidableEq U] in
theorem recheckReset_consistent (h : Consistent c s) (file temp : Bytes)
    (hm : ∀ a q, s.find c file = some a → s.item a = some q → q.isFinished = false ∨ q.users = []) :
    ∃ s', QueueManager.recheckReset c s file temp = some s' ∧ Consistent c s' := by
  rw [QueueManager.recheckReset]
  cases hfind : s.find c file with
  | none => exact ⟨s, rfl, h⟩
  | some a =>
    obtain ⟨q, hq, -⟩ := find_some hfind
    obtain ⟨t, ht⟩ := chooseTempTarget_eq q.resetDownloaded temp
    dsimp only
    rw [hq]
    dsimp only
    rw [ht]
    refine ⟨_, rfl, h.modify hq ((hm a q hfind hq).imp_left fun hf => ?_) rfl rfl rfl rfl⟩
    exact (isFinished_reset q).trans hf.symm

/-- What has to hold of an item whose recheck ends: it has no entry that the end of the recheck
would have to remove. -/
structure RecheckMeets [DecidableEq V] (c : Settings) (q : QueueItem U V) (tth : V)
    (tt ttFile : MerkleTree V) : Prop where
  moved : ttFile.root = tth → q.users = [] ∨ c.keepFinishedFiles = true ∧ q.isFinished = false ∧
    (q.addSegment ⟨0, q.size⟩).isFinished = false
  marked : ttFile.root ≠ tth → q.users = [] ∨
    (q.addMatching tt.blockSize 0 tt.leaves ttFile.leaves).isFinished = q.isFinished

omit [DecidableEq U] in
theorem addMatching_eq [DecidableEq V] (blockSize pos : Int) (ours files : List V) (q : QueueItem U V) :
    ∃ done, q.addMatching blockSize pos ours files = { q with done := done } := by
  induction ours generalizing pos files q with
  | nil => exact ⟨q.done, rfl⟩
  | cons our ours ih =>
    cases files with
    | nil => exact ⟨q.done, rfl⟩
    | cons file files =>
      rw [addMatching]
      split
      · obtain ⟨done, h⟩ := ih (pos + blockSize) files (q.addSegment ⟨pos, blockSize⟩)
        exact ⟨done, h⟩
      · exact ih (pos + blockSize) files q

theorem moveStuckFile_consistent (h : Consistent c s) {a : Nat} {q : QueueItem U V}
    (hq : s.item a = some q) (temp : Bytes)
    (hm : q.users = [] ∨ c.keepFinishedFiles = true ∧ q.isFinished = false ∧
      (q.addSegment ⟨0, q.size⟩).isFinished = false) :
    ∃ s', QueueManager.moveStuckFile c s a q temp = some s' ∧ Consistent c s' := by
  obtain ⟨t, ht⟩ := chooseTempTarget_eq q temp
  have hset : (s.setItem a { q with tempTarget := t }).item a = some { q with tempTarget := t } :=
    setItem_item_self ..
  have hidem : ∀ r, (s.setItem a { q with tempTarget := t }).setItem a r = s.setItem a r := by
    intro r
    rw [setItem, setItem]
    exact congrArg (fun item => { s with item := item }) (Function.update_idem ..)
  rw [QueueManager.moveStuckFile, ht]
  have hall : q.users = [] → UserQueue.removeAll (s.setItem a { q with tempTarget := t }) a true =
      some (s.setItem a { q with tempTarget := t }) := by
    intro hnil
    have hnil' : users { q with tempTarget := t } = [] := hnil
    rw [UserQueue.removeAll, hset]
    dsimp only
    rw [hnil', UserQueue.removeUsers]
  -- no entry is removed, and the item is kept, or deleted when it has none
  have hgo : (if isFinished { q with tempTarget := t } = true then
      UserQueue.removeAll (s.setItem a { q with tempTarget := t }) a true
      else some (s.setItem a { q with tempTarget := t })) =
      some (s.setItem a { q with tempTarget := t }) := by
    split
    · rename_i hf
      obtain hnil | ⟨-, hf', -⟩ := hm
      · exact hall hnil
      · exact absurd (hf'.symm.trans hf) Bool.false_ne_true
    · rfl
  rw [hgo, Option.map_some]
  by_cases hkeep : c.keepFinishedFiles = true
  · rw [if_pos hkeep, hset]
    dsimp only
    rw [hidem]
    refine ⟨_, rfl, h.modify hq ?_ rfl rfl rfl rfl⟩
    obtain hnil | ⟨-, hf, hadd⟩ := hm
    · exact Or.inr hnil
    · exact Or.inl (hadd.trans hf.symm)
  · rw [if_neg hkeep]
    have hnil : q.users = [] := hm.resolve_right fun hx => hkeep hx.1
    obtain ⟨s', hs', hc⟩ := removeAll_consistent h hq (Or.inr hnil) (q := { q with tempTarget := t })
      rfl rfl rfl (b := false) (fun hk => by cases hk)
    rw [hall hnil] at hs'
    exact ⟨s', hs', hc⟩

theorem rechecked_consistent [DecidableEq V] (h : Consistent c s) (file temp : Bytes) (tth : V)
    (tt ttFile : MerkleTree V)
    (hm : ∀ a q, s.find c file = some a → s.item a = some q → RecheckMeets c q tth tt ttFile) :
    ∃ s', QueueManager.rechecked c s file temp tth tt ttFile = some s' ∧ Consistent c s' := by
  rw [QueueManager.rechecked]
  cases hfind : s.find c file with
  | none => exact ⟨s, rfl, h⟩
  | some a =>
    obtain ⟨q, hq, -⟩ := find_some hfind
    have hr := hm a q hfind hq
    dsimp only
    rw [hq]
    dsimp only
    by_cases hroot : ttFile.root = tth
    · rw [if_pos hroot]
      exact moveStuckFile_consistent h hq temp (hr.moved hroot)
    · rw [if_neg hroot]
      obtain ⟨done, hdone⟩ := addMatching_eq tt.blockSize 0 tt.leaves ttFile.leaves q
      have hfin := hr.marked hroot
      rw [hdone] at hfin ⊢
      exact ⟨_, rfl, h.modify hq hfin.symm rfl rfl rfl rfl⟩

/-- What an operation needs for the indexes to agree after it. -/
def Meets [DecidableEq V] (c : Settings) (s : QueueState U V) : QueueManager.Event U V → Prop
  | .setPriority _ p => p.isIndex = true
  | .move aSource _ => ∀ a q, s.find c aSource = some a → s.item a = some q → DirectorySource q
  | .remove aTarget => ∀ a q, s.find c aTarget = some a → s.item a = some q → DirectorySource q
  | .putDownload id pos finished crcOk => ∀ d a q, (s.live.find? fun d => d.id == id) = some d →
      s.find c d.path = some a → s.item a = some q → PutMeets q d pos finished crcOk
  | .recheckReset file _ => ∀ a q, s.find c file = some a → s.item a = some q →
      q.isFinished = false ∨ q.users = []
  | .rechecked file _ tth tt ttFile => ∀ a q, s.find c file = some a → s.item a = some q →
      RecheckMeets c q tth tt ttFile
  | _ => True

theorem step_consistent [DecidableEq V] (passive : U → Bool) (h : Consistent c s)
    (e : QueueManager.Event U V) (hm : Meets c s e) :
    ∃ s', QueueManager.step c passive s e = some s' ∧ Consistent c s' := by
  cases e with
  | add f => exact add_consistent passive f h
  | addSource aTarget aUser addBad =>
    rw [QueueManager.step]
    cases hfind : s.find c aTarget with
    | none => exact ⟨s, rfl, h⟩
    | some a =>
      obtain ⟨q, hq, -⟩ := find_some hfind
      obtain ⟨r, hr, hc, -⟩ := addSource_consistent h hq aUser addBad (passive aUser.user)
      dsimp only
      rw [hr]
      exact ⟨r.1, rfl, hc⟩
  | removeSource aTarget aUser reason removeConn =>
    obtain ⟨s', hs', hc, -⟩ := managerRemoveSource_consistent h aTarget aUser reason removeConn
    exact ⟨s', hs', hc⟩
  | removeUser blockSizeOf aUser reason =>
    obtain ⟨s', hs', hf⟩ := RemoveSource.removeUser_final h blockSizeOf aUser reason
    exact ⟨s', hs', hf.consistent⟩
  | setPriority aTarget p =>
    obtain ⟨s', hs', hc, -⟩ := managerSetPriority_consistent h aTarget hm
    exact ⟨s', hs', hc⟩
  | move aSource target => exact move_consistent passive h aSource target hm
  | remove aTarget =>
    rw [QueueManager.step]
    cases hfind : s.find c aTarget with
    | none =>
      rw [QueueManager.remove, hfind]
      exact ⟨s, rfl, h⟩
    | some a =>
      obtain ⟨q, hq, -⟩ := find_some hfind
      obtain ⟨s', hs', hc, -⟩ := remove_consistent h hfind hq (hm a q hfind hq)
      exact ⟨s', hs', hc⟩
  | getDownload e u =>
    obtain ⟨s', hs', hc, -⟩ := getDownload_consistent e u h
    exact ⟨s', hs', hc⟩
  | putDownload id pos finished crcOk => exact putDownload_consistent h id pos finished crcOk hm
  | recheckStart file temp => exact recheckStart_consistent h file temp
  | recheckReset file temp => exact recheckReset_consistent h file temp hm
  | rechecked file temp tth tt ttFile => exact rechecked_consistent h file temp tth tt ttFile hm

/-- The user queue lists, each once, the items that are not finished, and nothing points to an item
that is gone. -/
structure IndexesAgree (s : QueueState U V) : Prop where
  nodup : ∀ p u, (s.userQueue (p, u)).Nodup
  queued : ∀ p u a, a ∈ s.userQueue (p, u) ↔
    ∃ q, s.item a = some q ∧ q.isFinished = false ∧ q.priority = p ∧ q.isSource u = true
  running : ∀ u a, s.running u = some a → s.item a ≠ none

theorem Consistent.indexesAgree (h : Consistent c s) : IndexesAgree s where
  nodup p u := h.queued.nodup (p, u)
  queued p u a := by
    simp only [isSource_iff]
    exact h.queued.mem_iff (p, u) a
  running u a hr := by
    obtain ⟨q, hq, -⟩ := h.running u a hr
    rw [hq]
    exact Option.some_ne_none q

def smallFile : QueueManager.NewFile Unit Nat where
  target := [1]
  tempTarget := []
  size := 2048
  root := 7
  user := ⟨(), []⟩
  flags := 0
  addBad := true
  added := 0

def smallTree : MerkleTree Nat := ⟨[], [7], 7, 2048, 2048⟩

/-- A file that was queued and turns out to be complete when it is rechecked. -/
def stuckRun : List (QueueManager.Event Unit Nat) :=
  [.add smallFile, .recheckReset [1] [2], .rechecked [1] [2] 7 smallTree smallTree]

end Dcpp.QueueInvariant
