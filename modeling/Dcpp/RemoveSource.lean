import Dcpp.QueueSteps
import Mathlib.Data.List.Nodup
import Mathlib.Data.List.Perm.Subperm

namespace Dcpp.RemoveSource

open QueueState QueueItem QueueConsistent QueueSteps Index

variable {U V : Type} [DecidableEq U]

section Entries

variable {c : Settings} {s : QueueState U V} {u : U}

omit [DecidableEq U] in
theorem mem_entries (h : Consistent c s) {minPrio : Priority} {a : Nat} :
    a ∈ UserQueue.entries s u minPrio ↔ ∃ q, s.item a = some q ∧ q.isFinished = false ∧
      u ∈ q.users ∧ minPrio.toInt ≤ q.priority.toInt := by
  rw [UserQueue.entries, List.mem_flatMap]
  constructor
  · rintro ⟨p, hp, ha⟩
    rw [List.mem_filter, decide_eq_true_eq] at hp
    obtain ⟨q, hq, hf, hpq, hu⟩ := (h.queued.mem_iff _ _).mp ha
    exact ⟨q, hq, hf, hu, hpq ▸ hp.2⟩
  · rintro ⟨q, hq, hf, hu, hp⟩
    refine ⟨q.priority, List.mem_filter.mpr ⟨?_, decide_eq_true hp⟩, h.entry hq hf hu⟩
    exact (Priority.mem_descending _).mpr (h.priority a q hq)

omit [DecidableEq U] in
theorem entries_nodup (h : Consistent c s) (minPrio : Priority) :
    (UserQueue.entries s u minPrio).Nodup := by
  rw [UserQueue.entries, List.nodup_flatMap]
  refine ⟨fun p _ => h.queued.nodup (p, u), ?_⟩
  have hd : Priority.descending.Nodup := by decide
  refine (hd.filter _).imp fun {p p'} hne => ?_
  intro a ha ha'
  obtain ⟨q, hq, -, hp, -⟩ := (h.queued.mem_iff _ _).mp ha
  obtain ⟨q', hq', -, hp', -⟩ := (h.queued.mem_iff _ _).mp ha'
  obtain rfl := Option.some.inj (hq.symm.trans hq')
  exact hne (hp.symm.trans hp')

omit [DecidableEq U] in
theorem firstEligible_spec {c : SegmentSettings} (blockSizeOf : V → Int) (wantedSize : Int)
    {l : List Nat} (hl : ∀ a ∈ l, s.item a ≠ none) :
    ∃ r, UserQueue.firstEligible c blockSizeOf wantedSize s l = some r ∧
      (r = none → ∀ a ∈ l, ∀ q, s.item a = some q →
        UserQueue.eligible c q (blockSizeOf q.tthRoot) wantedSize = false) ∧
      ∀ a, r = some a → a ∈ l ∧ ∃ q, s.item a = some q ∧
        UserQueue.eligible c q (blockSizeOf q.tthRoot) wantedSize = true := by
  induction l with
  | nil => exact ⟨none, rfl, fun _ a ha => absurd ha List.not_mem_nil, fun a h => by cases h⟩
  | cons a l ih =>
    obtain ⟨q, hq⟩ := Option.ne_none_iff_exists'.mp (hl a (List.mem_cons_self ..))
    rw [UserQueue.firstEligible, hq]
    dsimp only
    by_cases he : UserQueue.eligible c q (blockSizeOf q.tthRoot) wantedSize = true
    · rw [if_pos he]
      refine ⟨some a, rfl, (fun h => by cases h), fun b hb => ?_⟩
      obtain rfl := Option.some.inj hb
      exact ⟨List.mem_cons_self .., q, hq, he⟩
    · rw [if_neg he]
      obtain ⟨r, hr, hnone, hsome⟩ := ih fun b hb => hl b (List.mem_cons_of_mem a hb)
      refine ⟨r, hr, fun h b hb q' hq' => ?_, fun b hb => ?_⟩
      · obtain rfl | hb := List.mem_cons.mp hb
        · obtain rfl := Option.some.inj (hq.symm.trans hq')
          exact Bool.eq_false_iff.mpr he
        · exact hnone h b hb q' hq'
      · exact ⟨List.mem_cons_of_mem a (hsome b hb).1, (hsome b hb).2⟩

end Entries

/-- The items that the loop of `removeSource` comes to. -/
def Doomed (c : Settings) (blockSizeOf : V → Int) (u : U) (q : QueueItem U V) : Prop :=
  q.isFinished = false ∧ u ∈ q.users ∧
    UserQueue.eligible c.segments q (blockSizeOf q.tthRoot) 0 = true

/-- One item has been taken from the user: a list is gone, another item has lost the source. -/
structure Taken (c : Settings) (u : U) (s s' : QueueState U V) (a : Nat) (q : QueueItem U V) : Prop where
  consistent : Consistent c s'
  item : s'.item = Function.update s.item a none ∧ q.isSet FLAG_USER_LIST = true ∨
    ∃ q', s'.item = Function.update s.item a (some q') ∧ u ∉ q'.users ∧
      q.isSet FLAG_USER_LIST = false ∧ q'.isSet FLAG_USER_LIST = false
  running : s'.running u = if s.running u = some a then none else s.running u

theorem remove_taken {c : Settings} {s : QueueState U V} (h : Consistent c s) {a : Nat}
    {q : QueueItem U V} (hq : s.item a = some q) (hlist : q.isSet FLAG_USER_LIST = true) {u : U}
    (hu : u ∈ q.users) :
    ∃ s', QueueManager.remove c s q.target = some s' ∧ Taken c u s s' a q ∧
      s'.disconnected = s.disconnected ++ q.downloads.map Download.user := by
  obtain ⟨s', hs', hc, hi, hr, hd⟩ := remove_consistent h (find_of_item h hq rfl) hq
    fun _ hnil => List.ne_nil_of_mem hu hnil
  exact ⟨s', hs', ⟨hc, Or.inl ⟨hi, hlist⟩, hr u⟩, hd⟩

theorem drop_taken {c : Settings} {s : QueueState U V} (h : Consistent c s) {a : Nat}
    {q : QueueItem U V} (hq : s.item a = some q) (hlist : q.isSet FLAG_USER_LIST = false)
    (hf : q.isFinished = false) {u : U} (hu : u ∈ q.users) (reason : Flags) :
    ∃ s' q' q'', UserQueue.remove s a u true = some s' ∧ s'.item a = some q' ∧
      q'.removeSource u reason = some q'' ∧ Taken c u s (s'.setItem a q'') a q ∧
      s'.disconnected = s.disconnected := by
  obtain ⟨s', q', q'', hs', hq', hrem, hc, ⟨src, bad, ds, hq'', husers⟩, hi, hr, hd⟩ :=
    dropSource_consistent h hq hu reason
  rw [hf, if_neg Bool.false_ne_true] at hs'
  refine ⟨s', q', q'', hs', hq', hrem, ⟨hc, Or.inr ⟨q'', ?_, ?_, hlist, ?_⟩, ?_⟩, hd⟩
  · rw [setItem, hi, Function.update_idem]
  · have hmem : u ∉ src.map fun i => i.user.user := by
      rw [husers]
      exact fun hx => ((h.sources a q hq).mem_erase_iff.mp hx).1 rfl
    rw [hq'']
    exact hmem
  · rw [hq'']
    exact hlist
  · rw [setItem_running, hr]
    simp

/-- What the loop does, from its first state to its last one. -/
structure Swept (c : Settings) (blockSizeOf : V → Int) (u : U) (s s' : QueueState U V) : Prop where
  consistent : Consistent c s'
  gone : ∀ a, s.item a = none → s'.item a = none
  kept : ∀ a q, s.item a = some q → ¬Doomed c blockSizeOf u q → s'.item a = some q
  list : ∀ a q, s.item a = some q → Doomed c blockSizeOf u q → q.isSet FLAG_USER_LIST = true →
    s'.item a = none
  file : ∀ a q, s.item a = some q → Doomed c blockSizeOf u q → q.isSet FLAG_USER_LIST = false →
    ∃ q', s'.item a = some q' ∧ u ∉ q'.users ∧ q'.isSet FLAG_USER_LIST = false
  idle : s.running u = none → s'.running u = none
  ran : ∀ a q, s.running u = some a → s.item a = some q →
    (Doomed c blockSizeOf u q → s'.running u = none) ∧
      (¬Doomed c blockSizeOf u q → s'.running u = some a)
  disconnected : ∃ l, s'.disconnected = s.disconnected ++ l ∧ (u ∈ l ↔ ∃ a q, s.item a = some q ∧
    Doomed c blockSizeOf u q ∧ q.isSet FLAG_USER_LIST = true ∧ u ∈ q.downloads.map Download.user)

omit [DecidableEq U] in
theorem swept_refl {c : Settings} {blockSizeOf : V → Int} {u : U} {s : QueueState U V}
    (h : Consistent c s)
    (hnone : ∀ a q, s.item a = some q → ¬Doomed c blockSizeOf u q) : Swept c blockSizeOf u s s where
  consistent := h
  gone := fun _ h => h
  kept := fun _ _ hq _ => hq
  list := fun a q hq hd => absurd hd (hnone a q hq)
  file := fun a q hq hd => absurd hd (hnone a q hq)
  idle := id
  ran := fun a q hr hq => ⟨fun hd => absurd hd (hnone a q hq), fun _ => hr⟩
  disconnected := ⟨[], (List.append_nil _).symm,
    iff_of_false List.not_mem_nil fun ⟨a, q, hq, hd, _⟩ => hnone a q hq hd⟩

omit [DecidableEq U] in
/-- A turn of the loop, and the turns after it. -/
theorem Swept.turn {c : Settings} {blockSizeOf : V → Int} {u : U} {s s₁ s' : QueueState U V} {a : Nat}
    {q : QueueItem U V} (hq : s.item a = some q) (hd : Doomed c blockSizeOf u q)
    (ht : Taken c u s s₁ a q) {l₁ : List U} (hl₁ : s₁.disconnected = s.disconnected ++ l₁)
    (hul₁ : u ∈ l₁ ↔ q.isSet FLAG_USER_LIST = true ∧ u ∈ q.downloads.map Download.user)
    (h : Swept c blockSizeOf u s₁ s') : Swept c blockSizeOf u s s' := by
  have hne : ∀ b, b ≠ a → s₁.item b = s.item b := by
    intro b hb
    obtain ⟨hi, -⟩ | ⟨q', hi, -⟩ := ht.item
    · rw [hi, Function.update_of_ne hb]
    · rw [hi, Function.update_of_ne hb]
  have hnot : ∀ r, s₁.item a = some r → ¬Doomed c blockSizeOf u r := by
    intro r hr hdr
    obtain ⟨hi, -⟩ | ⟨q', hi, hu, -⟩ := ht.item
    · rw [hi, Function.update_self] at hr
      cases hr
    · rw [hi, Function.update_self] at hr
      obtain rfl := Option.some.inj hr
      exact hu hdr.2.1
  have hother : ∀ b r, s.item b = some r → ¬(Doomed c blockSizeOf u r ∧ b = a) → b ≠ a := by
    intro b r hr hx hb
    subst hb
    obtain rfl := Option.some.inj (hq.symm.trans hr)
    exact hx ⟨hd, rfl⟩
  refine ⟨h.consistent, fun b hb => ?_, fun b r hr hdr => ?_, fun b r hr hdr hlist => ?_,
    fun b r hr hdr hfile => ?_, fun hr => ?_, fun b r hrun hr => ?_, ?_⟩
  · refine h.gone b ((hne b ?_).trans hb)
    rintro rfl
    rw [hb] at hq
    cases hq
  · exact h.kept b r ((hne b (hother b r hr fun hx => hdr hx.1)).trans hr) hdr
  · by_cases hb : b = a
    · subst hb
      obtain rfl := Option.some.inj (hq.symm.trans hr)
      obtain ⟨hi, -⟩ | ⟨q', hi, -, hf, -⟩ := ht.item
      · exact h.gone b ((congrFun hi b).trans (Function.update_self ..))
      · rw [hf] at hlist
        cases hlist
    · exact h.list b r ((hne b hb).trans hr) hdr hlist
  · by_cases hb : b = a
    · subst hb
      obtain rfl := Option.some.inj (hq.symm.trans hr)
      obtain ⟨hi, hl⟩ | ⟨q', hi, hu, -, hf'⟩ := ht.item
      · rw [hl] at hfile
        cases hfile
      · have hq' : s₁.item b = some q' := (congrFun hi b).trans (Function.update_self ..)
        exact ⟨q', h.kept b q' hq' (hnot q' hq'), hu, hf'⟩
    · exact h.file b r ((hne b hb).trans hr) hdr hfile
  · refine h.idle ?_
    rw [ht.running, hr]
    simp
  · by_cases hb : b = a
    · subst hb
      obtain rfl := Option.some.inj (hq.symm.trans hr)
      have hnone : s₁.running u = none := by rw [ht.running, if_pos hrun]
      exact ⟨fun _ => h.idle hnone, fun hdr => absurd hd hdr⟩
    · have hsome : s₁.running u = some b := by
        rw [ht.running, hrun, if_neg fun hx => hb (Option.some.inj hx)]
      exact h.ran b r hsome ((hne b hb).trans hr)
  · obtain ⟨l, hl, hul⟩ := h.disconnected
    refine ⟨l₁ ++ l, by rw [hl, hl₁, List.append_assoc], ?_⟩
    rw [List.mem_append, hul₁, hul]
    constructor
    · rintro (⟨hlist, hdown⟩ | ⟨b, r, hr, hdr, hlist, hdown⟩)
      · exact ⟨a, q, hq, hd, hlist, hdown⟩
      · have hb : b ≠ a := by
          rintro rfl
          exact hnot r hr hdr
        exact ⟨b, r, (hne b hb).symm.trans hr, hdr, hlist, hdown⟩
    · rintro ⟨b, r, hr, hdr, hlist, hdown⟩
      by_cases hb : b = a
      · subst hb
        obtain rfl := Option.some.inj (hq.symm.trans hr)
        exact Or.inl ⟨hlist, hdown⟩
      · exact Or.inr ⟨b, r, (hne b hb).trans hr, hdr, hlist, hdown⟩

omit [DecidableEq U] in
theorem Taken.entries_lt {c : Settings} {u : U} {s s₁ : QueueState U V} {a : Nat} {q : QueueItem U V}
    (h : Consistent c s) (ht : Taken c u s s₁ a q) (ha : a ∈ UserQueue.entries s u .PAUSED) :
    (UserQueue.entries s₁ u .PAUSED).length < (UserQueue.entries s u .PAUSED).length := by
  have hsub : UserQueue.entries s₁ u .PAUSED ⊆ (UserQueue.entries s u .PAUSED).erase a := by
    intro b hb
    obtain ⟨r, hr, hf, hu, hp⟩ := (mem_entries ht.consistent).mp hb
    have hba : b ≠ a := by
      rintro rfl
      obtain ⟨hi, -⟩ | ⟨q', hi, hu', -⟩ := ht.item
      · rw [hi, Function.update_self] at hr
        cases hr
      · rw [hi, Function.update_self] at hr
        obtain rfl := Option.some.inj hr
        exact hu' hu
    have hr' : s.item b = some r := by
      obtain ⟨hi, -⟩ | ⟨q', hi, -⟩ := ht.item
      · rwa [hi, Function.update_of_ne hba] at hr
      · rwa [hi, Function.update_of_ne hba] at hr
    exact (entries_nodup h .PAUSED).mem_erase_iff.mpr ⟨hba, (mem_entries h).mpr ⟨r, hr', hf, hu, hp⟩⟩
  have hle := (List.subperm_of_subset (entries_nodup ht.consistent .PAUSED) hsub).length_le
  rw [List.length_erase_of_mem ha] at hle
  have hpos := List.length_pos_of_mem ha
  omega

/-- The loop ends after it has taken every item that it comes to, once. -/
theorem removeNext_spec {c : Settings} (blockSizeOf : V → Int) (u : U) (reason : Flags) (fuel : Nat)
    {s : QueueState U V} (h : Consistent c s)
    (hfuel : (UserQueue.entries s u .PAUSED).length < fuel) :
    ∃ s', QueueManager.removeNext c blockSizeOf u reason fuel s = some s' ∧
      Swept c blockSizeOf u s s' := by
  induction fuel generalizing s with
  | zero => exact absurd hfuel (Nat.not_lt_zero _)
  | succ fuel ih =>
    have hlive : ∀ a ∈ UserQueue.entries s u .PAUSED, s.item a ≠ none := by
      intro a ha hnone
      obtain ⟨q, hq, -⟩ := (mem_entries h).mp ha
      rw [hnone] at hq
      cases hq
    obtain ⟨r, hr, hnone, hsome⟩ := firstEligible_spec (c := c.segments) blockSizeOf 0 hlive
    have hnext : UserQueue.getNext c.segments blockSizeOf s u .PAUSED 0 = some r := hr
    rw [QueueManager.removeNext, hnext, Option.bind_some]
    cases r with
    | none =>
      refine ⟨s, rfl, swept_refl h fun a q hq hd => ?_⟩
      have hp : Priority.PAUSED.toInt ≤ q.priority.toInt := by
        have hi := h.priority a q hq
        rw [Priority.isIndex, decide_eq_true_eq] at hi
        exact hi.1
      have he := hnone rfl a ((mem_entries h).mpr ⟨q, hq, hd.1, hd.2.1, hp⟩) q hq
      rw [hd.2.2] at he
      cases he
    | some a =>
      obtain ⟨ha, q, hq, he⟩ := hsome a rfl
      obtain ⟨q₁, hq₁, hf, hu, -⟩ := (mem_entries h).mp ha
      obtain rfl := Option.some.inj (hq.symm.trans hq₁)
      have hd : Doomed c blockSizeOf u q := ⟨hf, hu, he⟩
      dsimp only
      rw [hq]
      dsimp only
      by_cases hlist : q.isSet FLAG_USER_LIST = true
      · rw [if_pos hlist]
        obtain ⟨s₁, hs₁, ht, hdis⟩ := remove_taken h hq hlist hu
        obtain ⟨s', hs', hsw⟩ := ih ht.consistent (by have := ht.entries_lt h ha; omega)
        rw [hs₁, Option.bind_some]
        exact ⟨s', hs', Swept.turn hq hd ht hdis (by simp [hlist]) hsw⟩
      · rw [if_neg hlist]
        rw [Bool.not_eq_true] at hlist
        obtain ⟨s₁, q', q'', hs₁, hq', hrem, ht, hdis⟩ := drop_taken h hq hlist hf hu reason
        obtain ⟨s', hs', hsw⟩ := ih ht.consistent (by have := ht.entries_lt h ha; omega)
        rw [hs₁, Option.bind_some, hq']
        dsimp only
        rw [hrem, Option.bind_some]
        exact ⟨s', hs', Swept.turn hq hd ht (hdis.trans (List.append_nil _).symm) (by simp [hlist]) hsw⟩

/-- After the loop the item that runs for the user is taken as well, with a request to disconnect. -/
theorem removeRunning_spec {c : Settings} {s : QueueState U V} (h : Consistent c s) (u : U)
    (reason : Flags) :
    ∃ s', QueueManager.removeRunning c u reason s = some s' ∧
      (s.running u = none → s' = s) ∧
      ∀ a q, s.running u = some a → s.item a = some q → Taken c u s s' a q ∧
        ∃ l, s'.disconnected = s.disconnected ++ l ∧ u ∈ l := by
  rw [QueueManager.removeRunning]
  cases hr : s.running u with
  | none => exact ⟨s, rfl, fun _ => rfl, fun a q hx => by cases hx⟩
  | some a =>
    obtain ⟨q, hq, hf, hu, hdown⟩ := h.running u a hr
    dsimp only
    rw [hq]
    dsimp only
    by_cases hlist : q.isSet FLAG_USER_LIST = true
    · rw [if_pos hlist]
      obtain ⟨s', hs', ht, hdis⟩ := remove_taken h hq hlist hu
      refine ⟨s', hs', (fun hx => by cases hx), fun b r hb hr' => ?_⟩
      obtain rfl := Option.some.inj hb
      obtain rfl := Option.some.inj (hq.symm.trans hr')
      exact ⟨ht, _, hdis, hdown⟩
    · rw [if_neg hlist]
      rw [Bool.not_eq_true] at hlist
      obtain ⟨s₁, hs₁, hc₁, ⟨ds, hi₁⟩, -, hr₁, -, -, hd₁⟩ := Consistent.removeDownload h hq u
      have hq₁ : s₁.item a = some { q with downloads := ds } :=
        (congrFun hi₁ a).trans (Function.update_self ..)
      obtain ⟨s₂, q', q'', hs₂, hq', hrem, ht, hd₂⟩ := drop_taken hc₁ hq₁ hlist hf hu reason
      rw [hs₁, Option.bind_some, hs₂, Option.bind_some, hq']
      dsimp only
      rw [hrem]
      refine ⟨_, rfl, (fun hx => by cases hx), fun b r hb hr' => ?_⟩
      obtain rfl := Option.some.inj hb
      obtain rfl := Option.some.inj (hq.symm.trans hr')
      refine ⟨⟨disconnect_consistent ht.consistent _, ?_, ?_⟩, [u], ?_, List.mem_singleton_self u⟩
      · obtain ⟨-, hl⟩ | ⟨r', hi, hur, -, hl⟩ := ht.item
        · rw [show isSet { q with downloads := ds } FLAG_USER_LIST = q.isSet FLAG_USER_LIST from rfl,
            hlist] at hl
          cases hl
        · refine Or.inr ⟨r', ?_, hur, hlist, hl⟩
          exact hi.trans (by rw [hi₁, Function.update_idem])
      · have hrun := ht.running
        rw [hr₁, Function.update_self] at hrun
        rw [hr, if_pos rfl]
        exact hrun.trans (if_neg (by simp))
      · exact congrArg (· ++ [u]) (hd₂.trans hd₁)

/-- What is left after `removeSource`: items with the source that neither the loop has come to nor
run for the user. -/
structure Final (c : Settings) (blockSizeOf : V → Int) (u : U) (s s' : QueueState U V) : Prop where
  consistent : Consistent c s'
  left : ∀ a q, u ∈ q.users → (s'.item a = some q ↔
    s.item a = some q ∧ ¬Doomed c blockSizeOf u q ∧ s.running u ≠ some a)
  running : s'.running u = none
  disconnected : ∃ l, s'.disconnected = s.disconnected ++ l ∧
    (u ∈ l ↔ (∃ a q, s.item a = some q ∧ Doomed c blockSizeOf u q ∧
        q.isSet FLAG_USER_LIST = true ∧ u ∈ q.downloads.map Download.user) ∨
      ∃ a q, s.running u = some a ∧ s.item a = some q ∧ ¬Doomed c blockSizeOf u q)

omit [DecidableEq U] in
theorem Swept.left {c : Settings} {blockSizeOf : V → Int} {u : U} {s s' : QueueState U V}
    (h : Swept c blockSizeOf u s s') (a : Nat) (q : QueueItem U V) (hu : u ∈ q.users) :
    s'.item a = some q ↔ s.item a = some q ∧ ¬Doomed c blockSizeOf u q := by
  refine ⟨fun hq => ?_, fun hq => h.kept a q hq.1 hq.2⟩
  cases hs : s.item a with
  | none =>
    rw [h.gone a hs] at hq
    cases hq
  | some r =>
    by_cases hd : Doomed c blockSizeOf u r
    · cases hl : r.isSet FLAG_USER_LIST with
      | true =>
        rw [h.list a r hs hd hl] at hq
        cases hq
      | false =>
        obtain ⟨q', hq', hu', -⟩ := h.file a r hs hd hl
        obtain rfl := Option.some.inj (hq'.symm.trans hq)
        exact absurd hu hu'
    · obtain rfl := Option.some.inj ((h.kept a r hs hd).symm.trans hq)
      exact ⟨rfl, hd⟩

omit [DecidableEq U] in
theorem Taken.left {c : Settings} {u : U} {s s' : QueueState U V} {a : Nat} {q : QueueItem U V}
    (h : Taken c u s s' a q) (b : Nat) (r : QueueItem U V) (hu : u ∈ r.users) :
    s'.item b = some r ↔ s.item b = some r ∧ b ≠ a := by
  by_cases hb : b = a
  · subst hb
    refine iff_of_false (fun hr => ?_) fun hx => hx.2 rfl
    obtain ⟨hi, -⟩ | ⟨q', hi, hu', -⟩ := h.item
    · rw [hi, Function.update_self] at hr
      cases hr
    · rw [hi, Function.update_self] at hr
      obtain rfl := Option.some.inj hr
      exact hu' hu
  · obtain ⟨hi, -⟩ | ⟨q', hi, -⟩ := h.item
    · rw [hi, Function.update_of_ne hb]
      simp [hb]
    · rw [hi, Function.update_of_ne hb]
      simp [hb]

theorem removeUser_final {c : Settings} {s : QueueState U V} (h : Consistent c s)
    (blockSizeOf : V → Int) (u : U) (reason : Flags) :
    ∃ s', QueueManager.removeUser c blockSizeOf s u reason = some s' ∧ Final c blockSizeOf u s s' := by
  obtain ⟨s₁, hs₁, hsw⟩ := removeNext_spec blockSizeOf u reason
    ((UserQueue.entries s u .PAUSED).length + 1) h (Nat.lt_succ_self _)
  obtain ⟨s', hs', hidle, hran⟩ := removeRunning_spec hsw.consistent u reason
  obtain ⟨l, hl, hul⟩ := hsw.disconnected
  refine ⟨s', by rw [QueueManager.removeUser, hs₁]; exact hs', ?_⟩
  -- the loop has taken the running item, if there was one
  have hdone : s₁.running u = none →
      (∀ a q, s.running u = some a → s.item a = some q → Doomed c blockSizeOf u q) →
      Final c blockSizeOf u s s' := by
    intro hnone hall
    obtain rfl := hidle hnone
    refine ⟨hsw.consistent, fun a q hu => ?_, hnone, l, hl, ?_⟩
    · rw [hsw.left a q hu]
      exact and_congr_right fun hq => ⟨fun hd => ⟨hd, fun hr => hd (hall a q hr hq)⟩, And.left⟩
    · rw [hul, or_iff_left]
      rintro ⟨a, q, hr, hq, hd⟩
      exact hd (hall a q hr hq)
  cases hr : s.running u with
  | none => exact hdone (hsw.idle hr) fun a q hx => by rw [hr] at hx; cases hx
  | some a =>
    obtain ⟨q, hq, -⟩ := h.running u a hr
    by_cases hd : Doomed c blockSizeOf u q
    · refine hdone ((hsw.ran a q hr hq).1 hd) fun b r hb hr' => ?_
      obtain rfl := Option.some.inj (hr.symm.trans hb)
      obtain rfl := Option.some.inj (hq.symm.trans hr')
      exact hd
    · have hrun := (hsw.ran a q hr hq).2 hd
      obtain ⟨ht, l', hl', hul'⟩ := hran a q hrun (hsw.kept a q hq hd)
      refine ⟨ht.consistent, fun b r hu => ?_, ?_, l ++ l', by rw [hl', hl, List.append_assoc], ?_⟩
      · rw [ht.left b r hu, hsw.left b r hu, hr, and_assoc, ne_eq, ne_eq, Option.some.injEq, eq_comm (a := a)]
      · rw [ht.running, if_pos hrun]
      · exact iff_of_true (List.mem_append_right _ hul') (Or.inr ⟨a, q, hr, hq, hd⟩)

/-- What `removeSource` promises, for the states before and after it. -/
structure Gone (u : U) (s s' : QueueState U V) : Prop where
  source : ∀ a q, s'.item a = some q → q.isSet FLAG_USER_LIST = false → q.isSource u = false
  queue : ∀ p, s'.userQueue (p, u) = []
  running : s'.running u = none
  list : ∀ a q, s'.item a = some q → q.isSet FLAG_USER_LIST = true → q.isSource u = true →
    q.isRunning = true
  asked : ∀ a, s.running u = some a → ∃ l, s'.disconnected = s.disconnected ++ l ∧ u ∈ l

/-- Every item of the user is unfinished, and eligible or running for the user, or else a finished
list that runs; and if the item that runs for the user is eligible itself, an eligible list has
a download of the user. -/
structure Meets (c : Settings) (blockSizeOf : V → Int) (u : U) (s : QueueState U V) : Prop where
  taken : ∀ a q, s.item a = some q → u ∈ q.users → Doomed c blockSizeOf u q ∨ s.running u = some a ∨
    q.isFinished = true ∧ q.isSet FLAG_USER_LIST = true ∧ q.isRunning = true
  asked : ∀ a q, s.running u = some a → s.item a = some q → Doomed c blockSizeOf u q →
    ∃ b r, s.item b = some r ∧ Doomed c blockSizeOf u r ∧ r.isSet FLAG_USER_LIST = true ∧
      u ∈ r.downloads.map Download.user

/-- In a consistent queue `removeSource` ends, and keeps its promise exactly under the condition. -/
theorem removeUser_iff {c : Settings} {s : QueueState U V} (h : Consistent c s)
    (blockSizeOf : V → Int) (u : U) (reason : Flags) :
    ∃ s', QueueManager.removeUser c blockSizeOf s u reason = some s' ∧
      (Gone u s s' ↔ Meets c blockSizeOf u s) := by
  obtain ⟨s', hs', hf⟩ := removeUser_final h blockSizeOf u reason
  obtain ⟨l, hl, hul⟩ := hf.disconnected
  refine ⟨s', hs', fun hg => ⟨fun a q hq hu => ?_, fun a q hr hq hd => ?_⟩, fun hm => ?_⟩
  · by_contra hnot
    push Not at hnot
    obtain ⟨hd, hr, hrest⟩ := hnot
    have hq' := (hf.left a q hu).mpr ⟨hq, hd, hr⟩
    have hlist : q.isSet FLAG_USER_LIST = true := by
      by_contra hfile
      have hsrc := hg.source a q hq' (Bool.not_eq_true _ ▸ hfile)
      rw [isSource_iff.mpr hu] at hsrc
      cases hsrc
    refine hrest ?_ hlist (hg.list a q hq' hlist (isSource_iff.mpr hu))
    by_contra hfin
    have hentry := hf.consistent.entry hq' (Bool.not_eq_true _ ▸ hfin) hu
    rw [hg.queue] at hentry
    cases hentry
  · obtain ⟨l', hl', hu⟩ := hg.asked a hr
    obtain rfl := List.append_cancel_left (hl.symm.trans hl')
    obtain hx | ⟨b, r, hb, hr', hnd⟩ := hul.mp hu
    · exact hx
    · obtain rfl := Option.some.inj (hr.symm.trans hb)
      obtain rfl := Option.some.inj (hq.symm.trans hr')
      exact absurd hd hnd
  · have hleft : ∀ a q, s'.item a = some q → u ∈ q.users →
        q.isFinished = true ∧ q.isSet FLAG_USER_LIST = true ∧ q.isRunning = true := by
      intro a q hq hu
      obtain ⟨hq, hd, hr⟩ := (hf.left a q hu).mp hq
      exact ((hm.taken a q hq hu).resolve_left hd).resolve_left hr
    refine ⟨fun a q hq hfile => ?_, fun p => ?_, hf.running, fun a q hq _ hu => ?_, fun a hr => ?_⟩
    · rw [Bool.eq_false_iff, ne_eq, isSource_iff]
      intro hu
      rw [(hleft a q hq hu).2.1] at hfile
      cases hfile
    · rw [List.eq_nil_iff_forall_not_mem]
      intro a ha
      obtain ⟨q, hq, hfin, -, hu⟩ := (hf.consistent.queued.mem_iff _ _).mp ha
      rw [(hleft a q hq hu).1] at hfin
      cases hfin
    · exact (hleft a q hq (isSource_iff.mp hu)).2.2
    · refine ⟨l, hl, hul.mpr ?_⟩
      obtain ⟨q, hq, -⟩ := h.running u a hr
      by_cases hd : Doomed c blockSizeOf u q
      · exact Or.inl (hm.asked a q hr hq hd)
      · exact Or.inr ⟨a, q, hr, hq, hd⟩

def plainSettings : Settings where
  segments := ⟨true, fun wantedSize _ _ => wantedSize⟩
  key := id
  keepFinishedFiles := false
  dontDlAlreadyQueued := false
  prioHighestSize := 64
  prioHighSize := 0
  prioNormalSize := 0
  prioLowSize := 0
  prioLowest := false

/-- A file of two blocks, the first of which is being downloaded. -/
def twoBlocks : QueueItem Unit Nat where
  flags := 0
  target := []
  size := 2048
  priority := .NORMAL
  added := 0
  tthRoot := 0
  tempTarget := []
  sources := [⟨⟨(), []⟩, 0⟩]
  badSources := []
  done := []
  downloads := [⟨1, (), [], .TYPE_FILE, ⟨0, 1024⟩, 1024⟩]

def twoBlocksState : QueueState Unit Nat where
  item := Function.update (fun _ => none) 0 (some twoBlocks)
  nextId := 2
  userQueue := Function.update (fun _ => []) (.NORMAL, ()) [0]
  running := fun _ => some 0
  live := twoBlocks.downloads
  disconnected := []

theorem twoBlocksState_item {a : Nat} {q : QueueItem Unit Nat} :
    twoBlocksState.item a = some q ↔ a = 0 ∧ q = twoBlocks := by
  change Function.update (fun _ => none) 0 (some twoBlocks) a = some q ↔ _
  by_cases ha : a = 0
  · rw [ha, Function.update_self, Option.some.injEq, eq_comm]
    simp
  · rw [Function.update_of_ne ha]
    simp [ha]

theorem twoBlocksState_consistent (c : Settings) : Consistent c twoBlocksState where
  queued := by
    have hempty : Agrees (fun _ : Priority × Unit => ([] : List Nat)) fun _ _ => False :=
      ⟨fun _ => List.nodup_nil, fun _ _ => by simp⟩
    have h := hempty.add (k := (.NORMAL, ())) (v := 0) id (Or.inl rfl)
    refine h.congr fun k a => ?_
    rw [Wanted, false_or]
    constructor
    · rintro ⟨rfl, rfl⟩
      exact ⟨twoBlocks, twoBlocksState_item.mpr ⟨rfl, rfl⟩, rfl, rfl, by decide⟩
    · rintro ⟨q, hq, -, hp, -⟩
      obtain ⟨rfl, rfl⟩ := twoBlocksState_item.mp hq
      exact ⟨Prod.ext hp.symm rfl, rfl⟩
  running := fun u a ha => by
    obtain rfl := Option.some.inj ha
    exact ⟨twoBlocks, twoBlocksState_item.mpr ⟨rfl, rfl⟩, rfl, List.mem_singleton_self _,
      List.mem_singleton_self _⟩
  priority := fun a q hq => by
    obtain ⟨-, rfl⟩ := twoBlocksState_item.mp hq
    rfl
  sources := fun a q hq => by
    obtain ⟨-, rfl⟩ := twoBlocksState_item.mp hq
    decide
  targets := fun a b q r hq hr _ =>
    (twoBlocksState_item.mp hq).1.trans (twoBlocksState_item.mp hr).1.symm
  fresh := fun a ha => by
    have h2 : 2 ≤ a := ha
    have h0 : a ≠ 0 := by omega
    change Function.update (fun _ => none) 0 (some twoBlocks) a = none
    exact Function.update_of_ne h0 ..

theorem twoBlocks_doomed : Doomed plainSettings (fun _ => 1024) () twoBlocks := by
  refine ⟨rfl, by decide, ?_⟩
  have hseg : (twoBlocks.getNextSegment plainSettings.segments 1024 0).getSize ≠ 0 := by
    rw [ne_eq, getNextSegment_size_eq_zero_iff rfl twoBlocks (by decide) (by decide)]
    intro hall
    refine hall 1 (by decide) ⟨fun i hi => absurd hi List.not_mem_nil, fun i hi => ?_⟩
    obtain rfl := List.mem_singleton.mp hi
    decide
  rw [UserQueue.eligible, twoBlocks]
  dsimp only
  rw [if_neg (by decide), Bool.or_eq_true]
  exact Or.inr (bne_iff_ne.mpr hseg)

theorem removeUser_iff_twoBlocks : ∃ s',
    QueueManager.removeUser plainSettings (fun _ => 1024) twoBlocksState () 0 = some s' ∧
      (Gone () twoBlocksState s' ↔ Meets plainSettings (fun _ => 1024) () twoBlocksState) :=
  removeUser_iff (twoBlocksState_consistent plainSettings) (fun _ => 1024) () 0

/-- The loop takes the running item itself, and no one asks the connection to disconnect. -/
theorem removeUser_not_gone : ∃ s',
    QueueManager.removeUser plainSettings (fun _ => 1024) twoBlocksState () 0 = some s' ∧
      ¬Gone () twoBlocksState s' := by
  obtain ⟨s', hs', hf⟩ :=
    removeUser_final (twoBlocksState_consistent plainSettings) (fun _ => 1024) () 0
  refine ⟨s', hs', fun hg => ?_⟩
  obtain ⟨l, hl, hul⟩ := hf.disconnected
  obtain ⟨l', hl', hu⟩ := hg.asked 0 rfl
  obtain rfl := List.append_cancel_left (hl.symm.trans hl')
  obtain ⟨a, q, hq, -, hlist, -⟩ | ⟨a, q, -, hq, hd⟩ := hul.mp hu
  · obtain ⟨-, rfl⟩ := twoBlocksState_item.mp hq
    exact absurd hlist (by decide)
  · obtain ⟨-, rfl⟩ := twoBlocksState_item.mp hq
    exact hd twoBlocks_doomed

end Dcpp.RemoveSource
