import Dcpp.QueueChanges

-- The two operations by which downloads leave the queue and come back to it.
namespace Dcpp.QueueTransfers

open QueueState QueueItem QueueConsistent QueueSteps QueueInvariant QueueChanges Relation

variable {U V : Type} [DecidableEq U] {c : Settings} {P Q : Nat → U → Prop} {L : List (Download U)}
  {s t r : QueueState U V} {a : Nat}

/-- The downloads that are not put back, and the addresses in use, after an operation. -/
structure SameLive (s t : QueueState U V) : Prop where
  live : t.live = s.live
  nextId : s.nextId ≤ t.nextId

omit [DecidableEq U] in
theorem SameLive.trans (h : SameLive s r) (h' : SameLive r t) : SameLive s t :=
  ⟨h'.live.trans h.live, h.nextId.trans h'.nextId⟩

theorem sameLive_of_within (h : Within P s t) : SameLive s t := ⟨changes_live h, changes_nextId_le h⟩

section Live

theorem removeDownload_sameLive {u : U} (h : UserQueue.removeDownload s a u = some t) : SameLive s t := by
  rw [UserQueue.removeDownload] at h
  split at h
  next => cases h
  next => exact Option.some.inj h ▸ ⟨rfl, le_rfl⟩

theorem removeAll_sameLive (h : UserQueue.removeAll s a true = some t) : SameLive s t :=
  sameLive_of_within (P := fun _ _ => True) (within_of_changes (removeAll_changes (fun _ _ => trivial) h))

theorem finish_sameLive {k : Bool}
    (h : ((UserQueue.removeAll s a true).map fun s => if k then s else s.deleteItem a) = some t) :
    SameLive s t := by
  obtain ⟨r, hr, rfl⟩ := Option.map_eq_some_iff.mp h
  refine (removeAll_sameLive hr).trans ?_
  split
  next => exact ⟨rfl, le_rfl⟩
  next => exact ⟨rfl, le_rfl⟩

theorem removeSources_sameLive {aTarget : Bytes} {reason : Flags} {users : List U}
    (h : QueueManager.removeSources c aTarget reason users s = some t) : SameLive s t := by
  induction users generalizing s with
  | nil => exact Option.some.inj h ▸ ⟨rfl, le_rfl⟩
  | cons u users ih =>
    obtain ⟨r, hr, h⟩ := Option.bind_eq_some_iff.mp h
    exact (sameLive_of_within (removeSource_within (P := fun _ _ => True) (fun _ _ => trivial) hr)).trans (ih h)

theorem crcFailed_sameLive (h : QueueManager.crcFailed c s a = some t) : SameLive s t := by
  rw [QueueManager.crcFailed] at h
  split at h
  next => cases h
  next q hq =>
    obtain ⟨r, hr, h⟩ := Option.bind_eq_some_iff.mp h
    have hreset : SameLive s r :=
      SameLive.trans (r := s.setItem a q.resetDownloaded) ⟨rfl, le_rfl⟩
        (sameLive_of_within (within_of_changes (P := fun _ _ => True) (setPriority_changes hr)))
    split at h
    next => cases h
    next => exact hreset.trans (removeSources_sameLive h)

theorem putFinished_sameLive {q : QueueItem U V} {d : Download U} {crcOk : Bool}
    (h : QueueManager.putFinished c s a q d crcOk = some t) : SameLive s t := by
  rw [QueueManager.putFinished] at h
  split at h
  next => exact finish_sameLive (k := false) h
  next => exact removeDownload_sameLive h
  next =>
    have hlive := finish_sameLive (k := false) h
    exact ⟨hlive.live, hlive.nextId⟩
  next =>
    rw [QueueManager.putFile] at h
    obtain ⟨r, hr, h⟩ := Option.bind_eq_some_iff.mp h
    have hchecked : SameLive s r := by
      split at hr
      next =>
        have hlive := crcFailed_sameLive hr
        exact ⟨hlive.live, hlive.nextId⟩
      next => exact Option.some.inj hr ▸ ⟨rfl, le_rfl⟩
    split at h
    next => cases h
    next =>
      split at h
      next => exact hchecked.trans (finish_sameLive h)
      next => exact hchecked.trans (removeDownload_sameLive h)

theorem putDownload_sameLive {id : Nat} {pos : Int} {finished crcOk : Bool}
    (h : QueueManager.putDownload c s id pos finished crcOk = some t) :
    SameLive { s with live := s.live.eraseP fun d => d.id == id } t := by
  rw [QueueManager.putDownload] at h
  split at h
  next hnone =>
    obtain rfl := Option.some.inj h
    rw [List.find?_eq_none] at hnone
    rw [List.eraseP_of_forall_not hnone]
    exact ⟨rfl, le_rfl⟩
  next =>
    dsimp only at h
    split at h
    next => exact Option.some.inj h ▸ ⟨rfl, le_rfl⟩
    next =>
      split at h
      next => cases h
      next =>
        split at h
        next => exact putFinished_sameLive h
        next =>
          rw [QueueManager.putFailed] at h
          have hlive := removeDownload_sameLive h
          exact ⟨hlive.live, hlive.nextId⟩

end Live

/-- How downloads may go on: they stay attached, but where `P` lets them go or the item is gone. -/
structure Evolves (P : Nat → U → Prop) (s t : QueueState U V) : Prop where
  keeps : ∀ a d, Attached s a d → Attached t a d ∨ t.item a = none ∨ P a d.user
  gone : ∀ a < s.nextId, s.item a = none → t.item a = none
  nextId : s.nextId ≤ t.nextId

theorem evolves_of_within (ha : Attachments L s) (h : Within P s t) : Evolves P s t :=
  ⟨fun _ _ hd => h.keeps ha hd, fun _ hlt hnone => changes_gone h hlt hnone, changes_nextId_le h⟩

omit [DecidableEq U] in
theorem Evolves.trans (hf : ∀ a, s.nextId ≤ a → s.item a = none) (h : Evolves P s r) (h' : Evolves P r t) :
    Evolves P s t := by
  refine ⟨fun a d hd => ?_, fun a hlt hnone => ?_, h.nextId.trans h'.nextId⟩
  · obtain hd' | hnone | hP := h.keeps a d hd
    · exact h'.keeps a d hd'
    · refine Or.inr (Or.inl (h'.gone a ?_ hnone))
      refine (Nat.not_le.mp fun hle => ?_).trans_le h.nextId
      obtain ⟨q, hq, -⟩ := hd
      rw [hf a hle] at hq
      cases hq
    · exact Or.inr (Or.inr hP)
  · exact h'.gone a (hlt.trans_le h.nextId) (h.gone a hlt hnone)

section Put

theorem removeDownload_frees {u : U} (ha : Attachments L s)
    (hone : ∀ b e, Attached s b e → e.user = u → b = a) (hP : P a u)
    (h : UserQueue.removeDownload s a u = some t) :
    Changes P s t ∧ ∀ b e, Attached t b e → e.user ≠ u := by
  have hchanges : Changes P s t := by
    refine removeDownload_changes hP ?_ h
    by_cases hex : ∃ e, Attached s a e ∧ e.user = u
    · obtain ⟨e, ⟨q, hq, he⟩, rfl⟩ := hex
      exact Or.inl (ha.running a q hq e he)
    · refine Or.inr fun b r hr d hd hu => hex ?_
      obtain rfl := hone b d ⟨r, hr, hd⟩ hu
      exact ⟨d, ⟨r, hr, hd⟩, hu⟩
  refine ⟨hchanges, fun b e he hu => ?_⟩
  obtain rfl := hone b e (changes_attached_of hchanges he) hu
  obtain ⟨r, hr, hmem⟩ := he
  rw [UserQueue.removeDownload] at h
  split at h
  next => cases h
  next q hq =>
    obtain rfl := Option.some.inj h
    obtain ⟨-, rfl⟩ | ⟨hne, -⟩ := setItem_some hr
    · subst hu
      exact not_mem_eraseP (ha.users b q hq) hmem
    · exact hne rfl

/-- All downloads of an item are detached when the entries of its users are removed. -/
theorem removeAll_frees (hc : Consistent c s) (ha : Attachments L s) {q q' : QueueItem U V}
    (hq : s.item a = some q) (hf : q.isFinished = false ∨ q.users = []) (hp : q'.priority = q.priority)
    (hu : q'.users = q.users) (hd : q'.downloads = q.downloads) (ht : q'.target = q.target) (hz : q'.size = q.size)
    (h : UserQueue.removeAll (s.setItem a q') a true = some t) :
    Changes (fun b _ => b = a) s t ∧ ∀ e, ¬Attached t a e := by
  have hedit : Change (fun b _ => b = a) s (s.setItem a q') := .edit hq hd (Or.inl ht) hz
  have hchanges := removeAll_changes (P := fun b (_ : U) => b = a) (fun _ _ => rfl) h
  refine ⟨(ReflTransGen.single hedit).trans hchanges, fun e he => ?_⟩
  obtain ⟨r, hr, hR⟩ := removeAll_spec hc hq hf rfl hp hu true
  obtain rfl := Option.some.inj (hr.symm.trans h)
  obtain ⟨r', hr', hmem'⟩ := id he
  obtain ⟨r'', hr'', hmem''⟩ := changes_attached_of hchanges he
  have hset := hedit.attachments ha
  have hrun := hset.running a r'' hr'' e hmem''
  have hrun' := (changes_attachments hchanges hset).running a r' hr' e hmem'
  have hsource : e.user ∈ q'.users := by
    obtain ⟨q₀, hq₀, -, hmem, -⟩ := hc.running e.user a hrun
    obtain rfl := Option.some.inj (hq.symm.trans hq₀)
    exact hu.symm ▸ hmem
  rw [hR.running, if_pos ⟨rfl, hsource, hrun⟩] at hrun'
  cases hrun'

theorem removeSources_within (hc : Consistent c s) {q : QueueItem U V} (hq : s.item a = some q)
    (hl : q.isSet FLAG_USER_LIST = false) {reason : Flags} {users : List U} (hP : ∀ u, P a u)
    (h : QueueManager.removeSources c q.target reason users s = some t) : Within P s t := by
  generalize htarget : q.target = target at h
  induction users generalizing s q with
  | nil => exact Option.some.inj h ▸ .refl
  | cons u users ih =>
    obtain ⟨r, hr, h⟩ := Option.bind_eq_some_iff.mp h
    obtain ⟨r', hr', hcr, hkeep⟩ := managerRemoveSource_consistent hc target u reason false
    obtain rfl := Option.some.inj (hr.symm.trans hr')
    obtain ⟨q', hq', hk⟩ := hkeep a q hq hl
    have hturn : Within P s r := by
      refine removeSource_within (fun b hb => ?_) hr
      have ha := find_of_item hc hq (congrArg c.key htarget)
      obtain rfl := Option.some.inj (ha.symm.trans hb)
      exact hP u
    exact hturn.trans (ih hcr hq' (by rw [isSet, hk.flags]; exact hl) (hk.target.trans htarget) h)

theorem crcFailed_within (hc : Consistent c s) {q : QueueItem U V} (hq : s.item a = some q)
    (hf : q.isFinished = false) (hl : q.isSet FLAG_USER_LIST = false) {seg : Segment} (hP : ∀ u, P a u)
    (h : QueueManager.crcFailed c (s.setItem a (q.addSegment seg)) a = some t) : Within P s t := by
  have hset : (s.setItem a (q.addSegment seg)).setItem a (q.addSegment seg).resetDownloaded =
      s.setItem a q.resetDownloaded := by
    rw [setItem, setItem]
    exact congrArg (fun item => { s with item := item }) (Function.update_idem ..)
  rw [QueueManager.crcFailed, setItem_item_self] at h
  dsimp only at h
  rw [hset] at h
  obtain ⟨r, hr, h⟩ := Option.bind_eq_some_iff.mp h
  have hmod : Consistent c (s.setItem a q.resetDownloaded) :=
    hc.modify hq (Or.inl ((isFinished_reset q).trans hf.symm)) rfl rfl rfl rfl
  obtain ⟨r', hr', hcr, hkeep⟩ := managerSetPriority_consistent hmod q.target (p := .PAUSED) rfl
  obtain rfl := Option.some.inj (hr.symm.trans hr')
  obtain ⟨q₁, hq₁, hk⟩ := hkeep a q.resetDownloaded (setItem_item_self ..)
  rw [hq₁] at h
  have hreset : Change P s (s.setItem a q.resetDownloaded) := .edit hq rfl (Or.inl rfl) rfl
  refine (within_of_changes ((ReflTransGen.single hreset).trans (setPriority_changes hr))).trans ?_
  exact removeSources_within hcr hq₁ (by rw [isSet, hk.flags]; exact hl) hP h

/-- The download completes the file of the item. -/
def Completes (s : QueueState U V) (d : Download U) (a : Nat) : Prop :=
  d.type = .TYPE_FILE ∧ ∃ q, s.item a = some q ∧ (q.addSegment d.segment).isFinished = true

variable {d : Download U} {q : QueueItem U V} (ha : Attachments L s) (hq : s.item a = some q)
  (hone : ∀ b e, Attached s b e → e.user = d.user → b = a)

include ha hq hone

theorem editRemoveDownload_frees {x : QueueItem U V} (hd : x.downloads = q.downloads) (ht : x.target = q.target)
    (hz : x.size = q.size) (hP : P a d.user) (h : UserQueue.removeDownload (s.setItem a x) a d.user = some t) :
    Within P s t ∧ ∀ b e, Attached t b e → e.user ≠ d.user := by
  have hedit : Change P s (s.setItem a x) := .edit hq hd (Or.inl ht) hz
  obtain ⟨hchanges, hfree⟩ := removeDownload_frees (hedit.attachments ha)
    (fun b e he => hone b e (hedit.attached_of he)) hP h
  exact ⟨within_of_changes (.head hedit hchanges), hfree⟩

theorem putFailed_within {pos : Int} (hP : P a d.user) (h : QueueManager.putFailed s a q d pos = some t) :
    Within P s t ∧ ∀ b e, Attached t b e → e.user ≠ d.user := by
  rw [QueueManager.putFailed] at h
  refine editRemoveDownload_frees ha hq hone ?_ ?_ ?_ hP h
  all_goals
    split
    next =>
      obtain ⟨done, heq⟩ := putUnfinished_eq
        (if d.type ≠ .TYPE_TREE ∧ q.getDownloadedBytes = 0 then { q with tempTarget := [] } else q) d pos
      rw [heq]
      split <;> rfl
    next => split <;> rfl

/-- All downloads go when the item is finished, and no other one has the user of the download. -/
theorem finish_within (hc : Consistent c s) (hf : q.isFinished = false ∨ q.users = []) {x : QueueItem U V}
    (hp : x.priority = q.priority) (hu : x.users = q.users) (hd : x.downloads = q.downloads)
    (ht : x.target = q.target) (hz : x.size = q.size) {k : Bool} (hP : k = true → ∀ u, P a u)
    (h : ((UserQueue.removeAll (s.setItem a x) a true).map fun s => if k then s else s.deleteItem a) = some t) :
    Within P s t ∧ ∀ b e, Attached t b e → e.user ≠ d.user := by
  obtain ⟨r, hr, rfl⟩ := Option.map_eq_some_iff.mp h
  obtain ⟨hchanges, hfree⟩ := removeAll_frees hc ha hq hf hp hu hd ht hz hr
  cases k with
  | true =>
    refine ⟨within_of_changes (changes_mono (fun b u hb => ?_) hchanges), fun b e he hue => ?_⟩
    · subst hb
      exact hP rfl u
    · obtain rfl := hone b e (changes_attached_of hchanges he) hue
      exact hfree e he
  | false =>
    have hdelete : Change P r (r.deleteItem a) := .delete a
    have hlt : a < r.nextId := by
      refine (Nat.not_le.mp fun hle => ?_).trans_le (changes_nextId_le hchanges)
      rw [ha.fresh a hle] at hq
      cases hq
    refine ⟨ReflTransGen.tail (changes_mono (fun b u hb => Or.inl ?_) hchanges) (.delete a), fun b e he hue => ?_⟩
    · subst hb
      exact ⟨hlt, Function.update_self ..⟩
    · have he' := hdelete.attached_of he
      obtain rfl := hone b e (changes_attached_of hchanges he') hue
      exact hfree e he'

theorem putFile_within (hc : Consistent c s) {crcOk : Bool} (hf : q.isFinished = false ∨ q.users = [])
    (hl : crcOk = true ∨ q.isFinished = false ∧ q.isSet FLAG_USER_LIST = false) (hd : P a d.user)
    (hP : (q.addSegment d.segment).isFinished = true → ∀ u, P a u)
    (h : QueueManager.putFile c s a q d crcOk = some t) :
    Within P s t ∧ ∀ b e, Attached t b e → e.user ≠ d.user := by
  rw [QueueManager.putFile] at h
  by_cases hcrc : ((q.addSegment d.segment).isFinished && !crcOk) = true
  · rw [if_pos hcrc] at h
    rw [Bool.and_eq_true, Bool.not_eq_true'] at hcrc
    obtain ⟨hfin, hlist⟩ := hl.resolve_left fun h => by rw [hcrc.2] at h; cases h
    obtain ⟨r, hr, h⟩ := Option.bind_eq_some_iff.mp h
    obtain ⟨r', q', hr', -, hq', hf'⟩ := crcFailed_consistent hc hq hfin hlist d.segment
    obtain rfl := Option.some.inj (hr.symm.trans hr')
    have hwithin := crcFailed_within hc hq hfin hlist (hP hcrc.1) hr
    rw [hq'] at h
    dsimp only at h
    rw [hf'] at h
    obtain ⟨hchanges, hfree⟩ := removeDownload_frees (changes_attachments hwithin ha)
      (fun b e he => hone b e (changes_attached_of hwithin he)) hd h
    exact ⟨hwithin.trans (within_of_changes hchanges), hfree⟩
  · rw [if_neg hcrc, Option.bind_some, setItem_item_self] at h
    dsimp only at h
    split at h
    next hfin => exact finish_within ha hq hone hc hf (x := q.addSegment d.segment) rfl rfl rfl rfl rfl (fun _ => hP hfin) h
    next => exact editRemoveDownload_frees ha hq hone (x := q.addSegment d.segment) rfl rfl rfl hd h

theorem putFinished_within (hc : Consistent c s) {crcOk : Bool} (hm : FinishedOnce q d crcOk) (hd : P a d.user)
    (hP : d.type = .TYPE_FILE → (q.addSegment d.segment).isFinished = true → ∀ u, P a u)
    (h : QueueManager.putFinished c s a q d crcOk = some t) :
    Within P s t ∧ ∀ b e, Attached t b e → e.user ≠ d.user := by
  have hunfinished (hne : d.type ≠ .TYPE_TREE) := hm.unfinished hne
  rw [QueueManager.putFinished] at h
  cases htype : d.type with
  | TYPE_PARTIAL_LIST =>
    rw [htype] at h hunfinished
    refine finish_within ha hq hone hc (hunfinished (by decide)) (x := q) (k := false) rfl rfl rfl rfl rfl (fun h => by cases h) ?_
    rw [setItem_eq_self hq]
    exact h
  | TYPE_TREE =>
    rw [htype] at h
    refine editRemoveDownload_frees ha hq hone (x := q) rfl rfl rfl hd ?_
    rw [setItem_eq_self hq]
    exact h
  | TYPE_FULL_LIST =>
    rw [htype] at h hunfinished
    exact finish_within ha hq hone hc (hunfinished (by decide)) (x := q.addSegment ⟨0, q.size⟩) (k := false) rfl rfl rfl rfl rfl
      (fun h => by cases h) h
  | TYPE_FILE =>
    rw [htype] at h hunfinished
    exact putFile_within ha hq hone hc (hunfinished (by decide)) (hm.file htype) hd (hP htype) h

omit ha hq hone

/-- A download that is put back is attached to nothing afterwards, and only the others of the item that
it completes go with it. -/
theorem putDownload_within (hc : Consistent c s) (ha : Attachments L s) {id : Nat}
    (hid : (s.live.find? fun d => d.id == id) = some d) (hone : ∀ b e, Attached s b e → e.user = d.user → e = d)
    {pos : Int} {finished crcOk : Bool}
    (hm : ∀ a q, s.find c d.path = some a → s.item a = some q → PutMeets q d pos finished crcOk)
    (h : QueueManager.putDownload c s id pos finished crcOk = some t) :
    Within (fun a u => u = d.user ∨ finished = true ∧ s.find c d.path = some a ∧ Completes s d a)
      { s with live := s.live.eraseP fun d => d.id == id } t ∧ ∀ b e, Attached t b e → e.user ≠ d.user := by
  -- where the download is attached, there its path leads to
  have hpath {b : Nat} {e : Download U} (he : Attached s b e) (hu : e.user = d.user) : s.find c d.path = some b := by
    obtain rfl := hone b e he hu
    obtain ⟨q, hq, hmem⟩ := he
    exact find_of_item hc hq (congrArg c.key (ha.path b q hq e hmem).symm)
  have ha' : Attachments L { s with live := s.live.eraseP fun d => d.id == id } :=
    ⟨ha.fresh, ha.path, ha.users, ha.running, ha.listed⟩
  rw [QueueManager.putDownload, hid] at h
  dsimp only at h
  split at h
  next hfind =>
    obtain rfl := Option.some.inj h
    refine ⟨.refl, fun b e he hu => ?_⟩
    exact absurd ((hpath he hu).symm.trans hfind) (Option.some_ne_none b)
  next a hfind =>
    have hone' : ∀ b e, Attached s b e → e.user = d.user → b = a :=
      fun b e he hu => Option.some.inj ((hpath he hu).symm.trans hfind)
    split at h
    next => cases h
    next q hq =>
      have hput := hm a q hfind hq
      rw [PutMeets] at hput
      split at h
      next hfin =>
        rw [if_pos hfin] at hput
        refine putFinished_within ha' hq hone' (hc.of_eq rfl rfl rfl rfl) hput (Or.inl rfl) ?_ h
        exact fun htype hcomplete u => Or.inr ⟨hfin, hfind, htype, q, hq, hcomplete⟩
      next => exact putFailed_within ha' hq hone' (Or.inl rfl) h

end Put

section Get

theorem newDownload_eq {e : QueueManager.Circumstances V} {id : Nat} {u : U} {q : QueueItem U V} {d : Download U}
    (h : QueueManager.newDownload c e id u q = some d) : d.id = id ∧ d.user = u ∧ d.path = q.target := by
  rw [QueueManager.newDownload] at h
  dsimp only at h
  split at h
  next => exact Option.some.inj h ▸ ⟨rfl, rfl, rfl⟩
  next =>
    split at h
    next => exact Option.some.inj h ▸ ⟨rfl, rfl, rfl⟩
    next =>
      split at h
      next =>
        split at h
        next => cases h
        next => exact Option.some.inj h ▸ ⟨rfl, rfl, rfl⟩
      next =>
        split at h
        next => exact Option.some.inj h ▸ ⟨rfl, rfl, rfl⟩
        next => exact Option.some.inj h ▸ ⟨rfl, rfl, rfl⟩

/-- What `getDownload` does: nothing, or it gives an item a new download for the user. -/
inductive Gets (u : U) (s : QueueState U V) : QueueState U V → Prop where
  | nothing : Gets u s s
  | attached {a : Nat} {q x : QueueItem U V} {d : Download U} (hq : s.item a = some q)
      (hd : x.downloads = q.downloads ++ [d]) (ht : x.target = q.target) (hid : d.id = s.nextId) (hu : d.user = u)
      (hp : d.path = q.target) : Gets u s { s.setItem a x with
        nextId := s.nextId + 1
        live := s.live ++ [d]
        running := Function.update s.running u (some a) }

theorem getDownload_gets {e : QueueManager.Circumstances V} {u : U}
    (h : QueueManager.getDownload c e s u = some t) : Gets u s t := by
  rw [QueueManager.getDownload] at h
  obtain ⟨o, -, h⟩ := Option.bind_eq_some_iff.mp h
  split at h
  next => exact Option.some.inj h ▸ .nothing
  next a =>
    split at h
    next => cases h
    next q hq =>
      have h : ((QueueManager.newDownload c e s.nextId u (prepared e q)).bind fun d =>
          UserQueue.addDownload { s.setItem a (prepared e q) with
            nextId := s.nextId + 1
            live := s.live ++ [d] } a d) = some t := h
      obtain ⟨d, hd, h⟩ := Option.bind_eq_some_iff.mp h
      obtain ⟨tempTarget, done, hprep, -⟩ := prepared_spec e q
      obtain ⟨hid, hu, hp⟩ := newDownload_eq hd
      rw [hprep] at h hp
      have hset (x y : QueueItem U V) : (s.setItem a x).setItem a y = s.setItem a y := by
        rw [setItem, setItem, setItem, Function.update_idem]
      have hgets := Gets.attached hq (x := { q with
        tempTarget := tempTarget
        done := done
        downloads := q.downloads ++ [d] }) rfl rfl hid hu hp
      rw [UserQueue.addDownload] at h
      dsimp only at h
      rw [setItem_item_self] at h
      obtain rfl := Option.some.inj h
      rw [← hset { q with tempTarget := tempTarget, done := done }] at hgets
      rw [hu]
      exact hgets

theorem Gets.attachments {u : U} (ha : Attachments s.live s) (hnone : ∀ b e, Attached s b e → e.user ≠ u)
    (h : Gets u s t) : Attachments t.live t := by
  cases h with
  | nothing => exact ha
  | @attached a q x d hq hd ht hid hu hp =>
    have hmem {e : Download U} (he : e ∈ x.downloads) : e ∈ q.downloads ∨ e = d := by
      rw [hd, List.mem_append, List.mem_singleton] at he
      exact he
    refine ⟨fun b hb => ?_, fun b y hy e he => ?_, fun b y hy => ?_, fun b y hy e he => ?_, fun b y hy e he => ?_⟩
    · have hb' : s.nextId ≤ b := Nat.le_of_succ_le hb
      refine (setItem_item_of_ne s a x fun hba => ?_).trans (ha.fresh b hb')
      rw [← hba, ha.fresh b hb'] at hq
      cases hq
    · obtain ⟨rfl, rfl⟩ | ⟨-, hy⟩ := setItem_some hy
      · obtain he | rfl := hmem he
        · exact (ha.path b q hq e he).trans ht.symm
        · exact hp.trans ht.symm
      · exact ha.path b y hy e he
    · obtain ⟨rfl, rfl⟩ | ⟨-, hy⟩ := setItem_some hy
      · rw [hd, List.map_append, List.map_singleton, List.nodup_append]
        refine ⟨ha.users b q hq, List.nodup_singleton _, fun v hv w hw hvw => ?_⟩
        obtain ⟨e, he, rfl⟩ := List.mem_map.mp hv
        exact hnone b e ⟨q, hq, he⟩ (hvw.trans ((List.mem_singleton.mp hw).trans hu))
      · exact ha.users b y hy
    · obtain ⟨rfl, rfl⟩ | ⟨-, hy⟩ := setItem_some hy
      · obtain he | rfl := hmem he
        · exact (Function.update_of_ne (hnone b e ⟨q, hq, he⟩) ..).trans (ha.running b q hq e he)
        · exact hu ▸ Function.update_self ..
      · exact (Function.update_of_ne (hnone b e ⟨y, hy, he⟩) ..).trans (ha.running b y hy e he)
    · obtain ⟨rfl, rfl⟩ | ⟨-, hy⟩ := setItem_some hy
      · obtain he | rfl := hmem he
        · exact List.mem_append_left _ (ha.listed b q hq e he)
        · exact List.mem_append_right _ (List.mem_singleton_self _)
      · exact List.mem_append_left _ (ha.listed b y hy e he)

theorem Gets.evolves {u : U} (h : Gets u s t) : Evolves P s t := by
  cases h with
  | nothing => exact ⟨fun _ _ hd => Or.inl hd, fun _ _ hnone => hnone, le_rfl⟩
  | @attached a q x d hq hd =>
    refine ⟨fun b e he => Or.inl (attached_setItem he fun hab => ?_), fun b _ hnone => ?_, Nat.le_succ _⟩
    · subst hab
      obtain ⟨y, hy, he⟩ := he
      obtain rfl := Option.some.inj (hq.symm.trans hy)
      exact hd.symm ▸ List.mem_append_left _ he
    · refine (setItem_item_of_ne s a x fun hba => ?_).trans hnone
      rw [← hba, hnone] at hq
      cases hq

end Get

end Dcpp.QueueTransfers
