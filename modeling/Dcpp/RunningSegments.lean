import Dcpp.NextSegment
import Dcpp.QueueTransfers

-- The segments of the downloads that run for one item, over the runs of the queue.
namespace Dcpp.RunningSegments

open Segment QueueState QueueItem QueueConsistent QueueSteps QueueInvariant QueueChanges QueueTransfers

variable {U V : Type} [DecidableEq U] {c : Settings} {s t r : QueueState U V} {a : Nat} {q : QueueItem U V}

/-- No byte of the file is fetched by two downloads at once. -/
structure Apart (q : QueueItem U V) : Prop where
  nonempty : ∀ d ∈ q.downloads, d.type = .TYPE_FILE → d.segment.bytes.Nonempty
  inside : ∀ d ∈ q.downloads, d.type = .TYPE_FILE → d.segment.bytes ⊆ Set.Ico 0 q.size
  disjoint : q.downloads.Pairwise fun d e =>
    d.type = .TYPE_FILE → e.type = .TYPE_FILE → Disjoint d.segment.bytes e.segment.bytes

omit [DecidableEq U] in
theorem apart_of_nil (h : q.downloads = []) : Apart q := by
  refine ⟨fun d hd => ?_, fun d hd => ?_, ?_⟩
  · rw [h] at hd
    cases hd
  · rw [h] at hd
    cases hd
  · rw [h]
    exact .nil

omit [DecidableEq U] in
theorem Apart.sublist (h : Apart q) {q' : QueueItem U V} (hsub : q'.downloads.Sublist q.downloads)
    (hsize : q'.size = q.size) : Apart q' := by
  refine ⟨fun d hd => h.nonempty d (hsub.subset hd), fun d hd => ?_, h.disjoint.sublist hsub⟩
  rw [hsize]
  exact h.inside d (hsub.subset hd)

/-- The downloads of an item have become fewer, or the item has none. -/
def Shrinks (s t : QueueState U V) : Prop :=
  ∀ a r, t.item a = some r →
    (∃ q, s.item a = some q ∧ r.downloads.Sublist q.downloads ∧ r.size = q.size) ∨ r.downloads = []

section Shrinks

omit [DecidableEq U] in
theorem shrinks_of_item (h : t.item = s.item) : Shrinks s t :=
  fun a r hr => Or.inl ⟨r, (congrFun h a).symm.trans hr, .refl _, rfl⟩

omit [DecidableEq U] in
theorem Shrinks.trans (h : Shrinks s r) (h' : Shrinks r t) : Shrinks s t := by
  intro a x hx
  obtain ⟨y, hy, hsub, hsize⟩ | hnil := h' a x hx
  · obtain ⟨z, hz, hsub', hsize'⟩ | hnil := h a y hy
    · exact Or.inl ⟨z, hz, hsub.trans hsub', hsize.trans hsize'⟩
    · rw [hnil] at hsub
      exact Or.inr (List.sublist_nil.mp hsub)
  · exact Or.inr hnil

omit [DecidableEq U] in
theorem shrinks_setItem {x : QueueItem U V} (hq : s.item a = some q) (hsub : x.downloads.Sublist q.downloads)
    (hsize : x.size = q.size) : Shrinks s (s.setItem a x) := by
  intro b y hy
  obtain ⟨rfl, rfl⟩ | ⟨-, hy⟩ := setItem_some hy
  · exact Or.inl ⟨q, hq, hsub, hsize⟩
  · exact Or.inl ⟨y, hy, .refl _, rfl⟩

omit [DecidableEq U] in
theorem shrinks_deleteItem (s : QueueState U V) (a : Nat) : Shrinks s (s.deleteItem a) :=
  fun _ x hx => Or.inl ⟨x, deleteItem_some hx, .refl _, rfl⟩

theorem shrinks_of_changes {P : Nat → U → Prop} (h : Changes P s t) : Shrinks s t := by
  induction h with
  | refl => exact shrinks_of_item rfl
  | tail _ hc ih =>
    refine ih.trans fun b x hx => ?_
    obtain ⟨y, hy, hsub, -, hsize⟩ | ⟨hnil, -⟩ := hc.item hx
    · exact Or.inl ⟨y, hy, hsub, hsize⟩
    · exact Or.inr hnil

theorem removeDownload_shrinks {u : U} (h : UserQueue.removeDownload s a u = some t) : Shrinks s t := by
  rw [UserQueue.removeDownload] at h
  split at h
  next => cases h
  next q hq =>
    obtain rfl := Option.some.inj h
    have hset := shrinks_setItem (x := { q with downloads := q.downloads.eraseP fun d => decide (d.user = u) }) hq
      List.eraseP_sublist rfl
    exact fun b x hx => hset b x hx

theorem removeAll_shrinks (h : UserQueue.removeAll s a true = some t) : Shrinks s t :=
  shrinks_of_changes (P := fun _ _ => True) (removeAll_changes (fun _ _ => trivial) h)

theorem finish_shrinks {k : Bool}
    (h : ((UserQueue.removeAll s a true).map fun s => if k then s else s.deleteItem a) = some t) : Shrinks s t := by
  obtain ⟨r, hr, rfl⟩ := Option.map_eq_some_iff.mp h
  refine (removeAll_shrinks hr).trans ?_
  split
  next => exact shrinks_of_item rfl
  next => exact shrinks_deleteItem r a

theorem removeSources_shrinks {aTarget : Bytes} {reason : Flags} {users : List U}
    (h : QueueManager.removeSources c aTarget reason users s = some t) : Shrinks s t := by
  induction users generalizing s with
  | nil => exact shrinks_of_item (congrArg QueueState.item (Option.some.inj h).symm)
  | cons u users ih =>
    obtain ⟨r, hr, h⟩ := Option.bind_eq_some_iff.mp h
    exact (shrinks_of_changes (removeSource_within (P := fun _ _ => True) (fun _ _ => trivial) hr)).trans (ih h)

theorem crcFailed_shrinks (h : QueueManager.crcFailed c s a = some t) : Shrinks s t := by
  rw [QueueManager.crcFailed] at h
  split at h
  next => cases h
  next q hq =>
    obtain ⟨r, hr, h⟩ := Option.bind_eq_some_iff.mp h
    have hreset : Shrinks s r := (shrinks_setItem (x := q.resetDownloaded) hq (.refl _) rfl).trans
      (shrinks_of_changes (P := fun _ _ => True) (setPriority_changes hr))
    split at h
    next => cases h
    next => exact hreset.trans (removeSources_shrinks h)

theorem putFinished_shrinks (hq : s.item a = some q) {d : Download U} {crcOk : Bool}
    (h : QueueManager.putFinished c s a q d crcOk = some t) : Shrinks s t := by
  rw [QueueManager.putFinished] at h
  split at h
  next => exact finish_shrinks (k := false) h
  next => exact removeDownload_shrinks h
  next =>
    exact (shrinks_setItem (x := q.addSegment ⟨0, q.size⟩) hq (.refl _) rfl).trans (finish_shrinks (k := false) h)
  next =>
    rw [QueueManager.putFile] at h
    obtain ⟨r, hr, h⟩ := Option.bind_eq_some_iff.mp h
    have hadd : Shrinks s (s.setItem a (q.addSegment d.segment)) := shrinks_setItem hq (.refl _) rfl
    have hchecked : Shrinks s r := by
      split at hr
      next => exact hadd.trans (crcFailed_shrinks hr)
      next => exact Option.some.inj hr ▸ hadd
    split at h
    next => cases h
    next =>
      split at h
      next => exact hchecked.trans (finish_shrinks h)
      next => exact hchecked.trans (removeDownload_shrinks h)

theorem putFailed_shrinks (hq : s.item a = some q) {d : Download U} {pos : Int}
    (h : QueueManager.putFailed s a q d pos = some t) : Shrinks s t := by
  rw [QueueManager.putFailed] at h
  refine (shrinks_setItem hq ?_ ?_).trans (removeDownload_shrinks h)
  all_goals
    obtain ⟨done, heq⟩ := putUnfinished_eq
      (if d.type ≠ .TYPE_TREE ∧ q.getDownloadedBytes = 0 then { q with tempTarget := [] } else q) d pos
    rw [heq]
  · split
    next => split <;> exact .refl _
    next => split <;> exact .refl _
  · split
    next => split <;> rfl
    next => split <;> rfl

/-- A download that is put back leaves the others as they are. -/
theorem putDownload_shrinks {id : Nat} {pos : Int} {finished crcOk : Bool}
    (h : QueueManager.putDownload c s id pos finished crcOk = some t) : Shrinks s t := by
  rw [QueueManager.putDownload] at h
  split at h
  next => exact Option.some.inj h ▸ shrinks_of_item rfl
  next d _ =>
    have hlive : Shrinks s { s with live := s.live.eraseP fun d => d.id == id } := shrinks_of_item rfl
    dsimp only at h
    split at h
    next => exact Option.some.inj h ▸ hlive
    next =>
      split at h
      next => cases h
      next q hq =>
        split at h
        next => exact hlive.trans (putFinished_shrinks hq h)
        next => exact hlive.trans (putFailed_shrinks hq h)

end Shrinks

section Get

/-- The block size for which a new download of a file looks for its segment. -/
def blockSizeFor (e : QueueManager.Circumstances V) (q : QueueItem U V) : Int := e.tree.getD q.size

/-- A new download of a file is for its tree. -/
def FetchesTree (e : QueueManager.Circumstances V) (u : U) (q : QueueItem U V) : Prop :=
  e.tree = none ∧ e.supportsTrees = true ∧ QueueManager.MIN_BLOCK_SIZE < q.size ∧
    ∃ i ∈ q.getSource u, i.flags.isSet Source.FLAG_NO_TREE = false

/-- What a new download of a file needs to get a segment: an item that waits has a block that is not done, and the tree
of one that runs can be loaded. -/
structure Leaves (e : QueueManager.Circumstances V) (q : QueueItem U V) : Prop where
  size : q.size ≠ -1
  blockSize : 0 < blockSizeFor e q
  waiting : q.isWaiting = true → ∃ k : Nat, k * blockSizeFor e q < q.size ∧
    ∀ i ∈ (prepared e q).done, ¬(q.blockAt (blockSizeFor e q) (k * blockSizeFor e q)).bytes ⊆ i.bytes
  running : q.isWaiting = false → e.tree = some (e.blockSizeOf q.tthRoot)

/-- The condition on an operation. -/
def Meets (c : Settings) (s : QueueState U V) : QueueManager.Event U V → Prop
  | .getDownload e u => ∀ a q, UserQueue.getNext c.segments e.blockSizeOf s u .LOWEST e.chunkSize = some (some a) →
      s.item a = some q → q.isSet FLAG_PARTIAL_LIST = false → q.isSet FLAG_USER_LIST = false →
      ¬FetchesTree e u q → Leaves e q
  | _ => True

omit [DecidableEq U] in
theorem firstEligible_some {sc : SegmentSettings} {blockSizeOf : V → Int} {wantedSize : Int} {l : List Nat}
    (h : UserQueue.firstEligible sc blockSizeOf wantedSize s l = some (some a)) (hq : s.item a = some q) :
    UserQueue.eligible sc q (blockSizeOf q.tthRoot) wantedSize = true := by
  induction l with
  | nil => cases h
  | cons b l ih =>
    rw [UserQueue.firstEligible] at h
    split at h
    next => cases h
    next x hx =>
      split at h
      next he =>
        obtain rfl := Option.some.inj (Option.some.inj h)
        obtain rfl := Option.some.inj (hx.symm.trans hq)
        exact he
      next => exact ih h

omit [DecidableEq U] in
/-- A block that is not taken of an item before its download begins is not taken then. -/
theorem free_prepared (e : QueueManager.Circumstances V) {block : Segment} (h : q.Free block) :
    (prepared e q).Free block := by
  obtain ⟨temp, done, heq, hdone⟩ := prepared_spec e q
  rw [heq]
  refine ⟨fun i hi => ?_, h.2⟩
  obtain rfl | rfl := hdone
  · exact h.1 i hi
  · cases hi

omit [DecidableEq U] in
/-- Where the condition holds a block is left for a new download of a file. -/
theorem Leaves.exists_free {sc : SegmentSettings} (hc : sc.segmentedDl = true) {e : QueueManager.Circumstances V}
    (h : Leaves e q) (hl : q.isSet FLAG_USER_LIST = false)
    (he : UserQueue.eligible sc q (e.blockSizeOf q.tthRoot) e.chunkSize = true) :
    ∃ k : Nat, k * blockSizeFor e q < q.size ∧
      (prepared e q).Free (q.blockAt (blockSizeFor e q) (k * blockSizeFor e q)) := by
  have hb := h.blockSize
  cases hw : q.isWaiting with
  | true =>
    obtain ⟨k, hk, hdone⟩ := h.waiting hw
    have hnil : (prepared e q).downloads = [] := by
      obtain ⟨temp, done, heq, -⟩ := prepared_spec e q
      rw [heq]
      exact List.isEmpty_iff.mp hw
    refine ⟨k, hk, fun i hi hle => hdone i hi (Set.Ico_subset_Ico hle.1 hle.2), fun i hi => ?_⟩
    rw [hnil] at hi
    cases hi
  | false =>
    have htree := h.running hw
    have hsize : blockSizeFor e q = e.blockSizeOf q.tthRoot := by
      rw [blockSizeFor, htree, Option.getD_some]
    rw [UserQueue.eligible] at he
    split at he
    next hnil =>
      rw [isWaiting, hnil] at hw
      cases hw
    next =>
      split at he
      next => cases he
      next =>
        rw [hl, Bool.false_or, ← hsize, if_neg hb.ne', bne_iff_ne, ne_eq,
          getNextSegment_size_eq_zero_iff hc q h.size hb] at he
        simp only [not_forall, not_not] at he
        obtain ⟨k, hk, hfree⟩ := he
        exact ⟨k, hk, free_prepared e hfree⟩

/-- A download of a file asks for a segment with the block size of its tree. -/
theorem newDownload_file {e : QueueManager.Circumstances V} {id : Nat} {u : U} {d : Download U}
    (hd : QueueManager.newDownload c e id u q = some d) (htype : d.type = .TYPE_FILE) :
    q.isSet FLAG_PARTIAL_LIST = false ∧ q.isSet FLAG_USER_LIST = false ∧ ¬FetchesTree e u q ∧
      (q.size ≠ -1 → ∃ wantedSize, d.segment = q.getNextSegment c.segments (blockSizeFor e q) wantedSize) := by
  have hflags (h : (if q.isSet FLAG_PARTIAL_LIST = true then TransferType.TYPE_PARTIAL_LIST
      else if q.isSet FLAG_USER_LIST = true then .TYPE_FULL_LIST else .TYPE_FILE) = .TYPE_FILE) :
      q.isSet FLAG_PARTIAL_LIST = false ∧ q.isSet FLAG_USER_LIST = false := by
    split at h
    next => cases h
    next hp =>
      split at h
      next => cases h
      next hl => exact ⟨Bool.eq_false_iff.mpr hp, Bool.eq_false_iff.mpr hl⟩
  rw [QueueManager.newDownload] at hd
  dsimp only at hd
  split at hd
  next hsize =>
    obtain rfl := Option.some.inj hd
    obtain ⟨hp, hl⟩ := hflags htype
    refine ⟨hp, hl, ?_, fun hne => absurd hsize hne⟩
    rintro ⟨_, _, hmin, _⟩
    rw [hsize] at hmin
    exact absurd hmin (by decide)
  next =>
    split at hd
    next blockSize htree =>
      obtain rfl := Option.some.inj hd
      obtain ⟨hp, hl⟩ := hflags htype
      refine ⟨hp, hl, ?_, fun _ => ⟨e.chunkSize, ?_⟩⟩
      · rintro ⟨hnone, _⟩
        rw [htree] at hnone
        cases hnone
      · rw [blockSizeFor, htree, Option.getD_some]
    next htree =>
      have hroot : blockSizeFor e q = q.size := by rw [blockSizeFor, htree, Option.getD_none]
      split at hd
      next hsource =>
        split at hd
        next => cases hd
        next hsupports =>
          obtain rfl := Option.some.inj hd
          obtain ⟨hp, hl⟩ := hflags htype
          refine ⟨hp, hl, ?_, fun _ => ⟨0, by rw [hroot]⟩⟩
          rintro ⟨_, h, _⟩
          exact hsupports h
      next source hsource =>
        split at hd
        next =>
          obtain rfl := Option.some.inj hd
          cases htype
        next hnot =>
          obtain rfl := Option.some.inj hd
          obtain ⟨hp, hl⟩ := hflags htype
          refine ⟨hp, hl, ?_, fun _ => ⟨0, by rw [hroot]⟩⟩
          rintro ⟨_, h, hmin, i, hi, hflag⟩
          apply hnot
          obtain rfl := Option.some.inj (hsource.symm.trans hi)
          rw [h, hflag, Bool.not_false, Bool.and_true, Bool.true_and]
          exact decide_eq_true hmin

/-- A download that is made for the item that comes next for the user is attached to it. -/
theorem getDownload_eq {e : QueueManager.Circumstances V} {u : U} {d : Download U}
    (hnext : UserQueue.getNext c.segments e.blockSizeOf s u .LOWEST e.chunkSize = some (some a))
    (hq : s.item a = some q)
    (hd : QueueManager.newDownload c e s.nextId u (prepared e q) = some d) :
    QueueManager.getDownload c e s u = some { s.setItem a { prepared e q with downloads := q.downloads ++ [d] } with
      nextId := s.nextId + 1
      live := s.live ++ [d]
      running := Function.update s.running d.user (some a) } := by
  have hdownloads : (prepared e q).downloads = q.downloads := by
    obtain ⟨temp, done, hprep, -⟩ := prepared_spec e q
    rw [hprep]
  have hattach : UserQueue.addDownload { s.setItem a (prepared e q) with
      nextId := s.nextId + 1
      live := s.live ++ [d] } a d = some { s.setItem a { prepared e q with downloads := q.downloads ++ [d] } with
        nextId := s.nextId + 1
        live := s.live ++ [d]
        running := Function.update s.running d.user (some a) } := by
    rw [UserQueue.addDownload]
    dsimp only
    rw [setItem_item_self, ← hdownloads]
    simp only [setItem, Function.update_idem]
  rw [QueueManager.getDownload, hnext, Option.bind_some]
  dsimp only
  rw [hq]
  dsimp only
  change (QueueManager.newDownload c e s.nextId u (prepared e q)).bind _ = _
  rw [hd, Option.bind_some]
  exact hattach

/-- `getDownload` changes nothing, or it attaches a new download to the item that comes next for the user. -/
theorem getDownload_item {e : QueueManager.Circumstances V} {u : U}
    (h : QueueManager.getDownload c e s u = some t) : t = s ∨ ∃ a q d,
      UserQueue.getNext c.segments e.blockSizeOf s u .LOWEST e.chunkSize = some (some a) ∧ s.item a = some q ∧
        QueueManager.newDownload c e s.nextId u (prepared e q) = some d ∧
        t.item = Function.update s.item a (some { prepared e q with downloads := q.downloads ++ [d] }) := by
  cases hnext : UserQueue.getNext c.segments e.blockSizeOf s u .LOWEST e.chunkSize with
  | none =>
    rw [QueueManager.getDownload, hnext] at h
    cases h
  | some o =>
    cases o with
    | none =>
      rw [QueueManager.getDownload, hnext] at h
      exact Or.inl (Option.some.inj h).symm
    | some a =>
      cases hq : s.item a with
      | none =>
        rw [QueueManager.getDownload, hnext, Option.bind_some] at h
        dsimp only at h
        rw [hq] at h
        cases h
      | some q =>
        cases hd : QueueManager.newDownload c e s.nextId u (prepared e q) with
        | none =>
          rw [QueueManager.getDownload, hnext, Option.bind_some] at h
          dsimp only at h
          rw [hq] at h
          have h : ((QueueManager.newDownload c e s.nextId u (prepared e q)).bind fun d =>
              UserQueue.addDownload { s.setItem a (prepared e q) with
                nextId := s.nextId + 1
                live := s.live ++ [d] } a d) = some t := h
          rw [hd] at h
          cases h
        | some d =>
          obtain rfl := Option.some.inj ((getDownload_eq hnext hq hd).symm.trans h)
          exact Or.inr ⟨a, q, d, rfl, hq, hd, rfl⟩

/-- Without the tree, and from a peer that knows no trees, a download has the whole file as its block. -/
theorem newDownload_root {e : QueueManager.Circumstances V} (htree : e.tree = none) (hs : e.supportsTrees = false)
    (id : Nat) (u : U) (hsize : q.size ≠ -1) (hp : q.isSet FLAG_PARTIAL_LIST = false)
    (hl : q.isSet FLAG_USER_LIST = false) : QueueManager.newDownload c e id u q =
      some ⟨id, u, q.target, .TYPE_FILE, q.getNextSegment c.segments q.size 0, q.size⟩ := by
  rw [QueueManager.newDownload]
  dsimp only
  rw [if_neg hsize, htree, hs, hp, hl]
  dsimp only
  split <;> rfl

/-- The new download is apart from the others of its item. -/
theorem attach_apart (hc : c.segments.segmentedDl = true) (h : Apart q) {e : QueueManager.Circumstances V} {u : U}
    (he : UserQueue.eligible c.segments q (e.blockSizeOf q.tthRoot) e.chunkSize = true)
    (hm : q.isSet FLAG_PARTIAL_LIST = false → q.isSet FLAG_USER_LIST = false → ¬FetchesTree e u q → Leaves e q)
    {id : Nat} {d : Download U} (hd : QueueManager.newDownload c e id u (prepared e q) = some d) :
    Apart { prepared e q with downloads := q.downloads ++ [d] } := by
  obtain ⟨temp, done, hprep, -⟩ := prepared_spec e q
  have hnew (htype : d.type = .TYPE_FILE) : d.segment.bytes.Nonempty ∧ d.segment.bytes ⊆ Set.Ico 0 q.size ∧
      ∀ i ∈ q.downloads, Disjoint i.segment.bytes d.segment.bytes := by
    obtain ⟨hp, hl, hf, hseg⟩ := newDownload_file hd htype
    rw [hprep] at hp hl hf hseg
    have hleaves := hm hp hl hf
    obtain ⟨wantedSize, hseg⟩ := hseg hleaves.size
    obtain ⟨k, hk, hfree⟩ := hleaves.exists_free hc hl he
    rw [hprep] at hfree
    have hseg : d.segment = getNextSegment c.segments { q with tempTarget := temp, done := done } (blockSizeFor e q)
        wantedSize := hseg
    rw [hseg]
    -- a block is left, so that the search returns a segment
    cases getNextSegment_found hc { q with tempTarget := temp, done := done } hleaves.size hleaves.blockSize
        wantedSize with
    | none h all =>
      refine absurd hfree ?_
      have hall := all k
      rw [Int.zero_add] at hall
      exact hall hk
    | some k hs nonempty le apart free =>
      rw [getSize_eq] at nonempty
      have hnn : 0 ≤ (k : Int) * blockSizeFor e q := Int.mul_nonneg (Int.natCast_nonneg k) hleaves.blockSize.le
      refine ⟨⟨_, le_rfl, Int.sub_pos.mp nonempty⟩, Set.Ico_subset_Ico ?_ le, fun i hi => ?_⟩
      · rw [hs, Int.zero_add]
        exact hnn
      · exact (disjoint_of_not_overlaps (apart i hi)).symm
  have hsize : (prepared e q).size = q.size := by rw [hprep]
  refine ⟨fun i hi htype => ?_, fun i hi htype => ?_, ?_⟩
  · obtain hi | hi := List.mem_append.mp hi
    · exact h.nonempty i hi htype
    · obtain rfl := List.mem_singleton.mp hi
      exact (hnew htype).1
  · dsimp only
    rw [hsize]
    obtain hi | hi := List.mem_append.mp hi
    · exact h.inside i hi htype
    · obtain rfl := List.mem_singleton.mp hi
      exact (hnew htype).2.1
  · refine List.pairwise_append.mpr ⟨h.disjoint, List.pairwise_singleton _ _, fun i hi j hj _ htype => ?_⟩
    obtain rfl := List.mem_singleton.mp hj
    exact (hnew htype).2.2 i hi

end Get

/-- The downloads that run for any item are apart. -/
def AllApart (s : QueueState U V) : Prop := ∀ a q, s.item a = some q → Apart q

omit [DecidableEq U] in
theorem AllApart.shrinks (h : AllApart s) (hs : Shrinks s t) : AllApart t := by
  intro a r hr
  obtain ⟨q, hq, hsub, hsize⟩ | hnil := hs a r hr
  · exact (h a q hq).sublist hsub hsize
  · exact apart_of_nil hnil

theorem getDownload_allApart (hc : c.segments.segmentedDl = true) (h : AllApart s)
    {e : QueueManager.Circumstances V} {u : U} (hm : Meets c s (.getDownload e u))
    (ht : QueueManager.getDownload c e s u = some t) : AllApart t := by
  obtain rfl | ⟨a, q, d, hnext, hq, hd, hitem⟩ := getDownload_item ht
  · exact h
  · intro b r hr
    rw [hitem] at hr
    by_cases hb : b = a
    · subst hb
      rw [Function.update_self] at hr
      obtain rfl := Option.some.inj hr
      exact attach_apart hc (h b q hq) (firstEligible_some hnext hq) (hm b q hnext hq) hd
    · rw [Function.update_of_ne hb] at hr
      exact h b r hr

/-- Every operation of the queue that meets the condition keeps the running downloads apart. -/
theorem step_allApart [DecidableEq V] (hc : c.segments.segmentedDl = true) {passive : U → Bool} (h : AllApart s)
    {e : QueueManager.Event U V} (hm : Meets c s e) (ht : QueueManager.step c passive s e = some t) : AllApart t := by
  by_cases htr : Transfers e
  · cases e with
    | getDownload e u => exact getDownload_allApart hc h hm ht
    | putDownload id pos finished crcOk => exact h.shrinks (putDownload_shrinks ht)
    | _ => cases htr
  · exact h.shrinks (shrinks_of_changes (step_within (P := fun _ _ => True) htr (Or.inr fun _ _ => trivial)
      (fun _ _ _ => trivial) ht))

/-- A file of which nothing is there. -/
def queuedFile : QueueItem Unit Nat where
  flags := 0
  target := [1]
  size := 2048
  priority := .NORMAL
  added := 0
  tthRoot := 7
  tempTarget := []
  sources := [⟨⟨(), []⟩, 0⟩]
  badSources := []
  done := []
  downloads := []

/-- A queue with the file. -/
def queuedState : QueueState Unit Nat where
  item a := if a = 0 then some queuedFile else none
  nextId := 1
  userQueue k := if k = (.NORMAL, ()) then [0] else []
  running _ := none
  live := []
  disconnected := []

/-- The peer knows no trees. -/
def noTree : QueueManager.Circumstances Nat where
  chunkSize := 0
  supportsTrees := false
  blockSizeOf _ := 0
  tree := none
  tempGone := false
  temp := [2]

theorem queuedState_waits (a : Nat) (q : QueueItem Unit Nat) (hq : queuedState.item a = some q) :
    a = 0 ∧ q = queuedFile := by
  rw [queuedState] at hq
  dsimp only at hq
  split at hq
  next ha => exact ⟨ha, (Option.some.inj hq).symm⟩
  next => cases hq

/-- All bytes of the file come, but the connection is lost before the end of the compressed stream. -/
def trailerLost : List (QueueManager.Event Unit Nat) :=
  [.getDownload noTree (), .putDownload 1 2048 false true, .getDownload noTree ()]

/-- A download of the whole file. -/
def wholeFile (id : Nat) (segment : Segment) : Download Unit := ⟨id, (), [1], .TYPE_FILE, segment, 2048⟩

theorem newDownload_queued (id : Nat) {done : List Segment} {segment : Segment}
    (h : done = [] ∧ segment = ⟨0, 2048⟩ ∨ done = [⟨0, 2048⟩] ∧ segment = ⟨0, 0⟩) :
    QueueManager.newDownload RemoveSource.plainSettings noTree id ()
      (prepared noTree { queuedFile with done := done }) = some (wholeFile id segment) := by
  have hseg : getNextSegment RemoveSource.plainSettings.segments
      { queuedFile with tempTarget := [2], done := done } 2048 0 = segment := by
    obtain ⟨rfl, rfl⟩ | ⟨rfl, rfl⟩ := h
    · simp [getNextSegment, RemoveSource.plainSettings, queuedFile, nextSegmentLoop]
    · simp [getNextSegment, RemoveSource.plainSettings, queuedFile, nextSegmentLoop, taken]
  have hprep : prepared noTree { queuedFile with done := done } =
      { queuedFile with tempTarget := [2], done := done } := by
    obtain ⟨rfl, -⟩ | ⟨rfl, -⟩ := h
    · rfl
    · rfl
  rw [hprep, wholeFile, ← hseg]
  exact newDownload_root rfl rfl id () (q := { queuedFile with tempTarget := [2], done := done })
    (show (2048 : Int) ≠ -1 by decide) (show Flags.isSet 0 FLAG_PARTIAL_LIST = false by decide)
    (show Flags.isSet 0 FLAG_USER_LIST = false by decide)

/-- The file is being fetched. -/
def fetching : QueueState Unit Nat :=
  { queuedState.setItem 0 { prepared noTree queuedFile with downloads := [wholeFile 1 ⟨0, 2048⟩] } with
    nextId := 2
    live := [wholeFile 1 ⟨0, 2048⟩]
    running := Function.update queuedState.running () (some 0) }

end Dcpp.RunningSegments
