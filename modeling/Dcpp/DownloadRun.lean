import Dcpp.Download

namespace Dcpp.DownloadRun

open Chunks MerkleTree TigerTree TreeLeaves MerkleCheck TreeCheck Download

variable {V F : Type} [Inhabited V] [DecidableEq V] {H : TreeHasher V}

/-- The streams below the filter after the bytes `w`: all of them were checked, came to
the buffer and were taken off the limit. -/
structure Carries (c : Setup H F) (w : List UInt8) (st : Nat × MerkleCheck V × List UInt8 × File) :
    Prop where
  tracks : Tracks c.tt c.startBlock w st.2.1
  sound : Sound st.2.1
  good : shown c.tt c.startBlock w <+: c.tt.leaves
  pending : pending st.2.2 = w
  limit : w.length + st.1 = c.size
  unbuffered : c.bufferSize = 0 → st.2.2.1 = []

omit [DecidableEq V] in
theorem Carries.file {c : Setup H F} {w : List UInt8} {st : Nat × MerkleCheck V × List UInt8 × File}
    (h : Carries c w st) : c.startBlock * c.tt.blockSize + w.length ≤ c.tt.fileSize := by
  have := h.limit
  have := c.inside
  omega

theorem limited_write_returned (c : Setup H F) (w : List UInt8)
    (st : Nat × MerkleCheck V × List UInt8 × File) (b : List UInt8)
    (st' : Nat × MerkleCheck V × List UInt8 × File) (h : Carries c w st)
    (hw : (limited c).write st b = .returned st') : Carries c (w ++ b) st' := by
  simp only [limited, limitedOutputStream] at hw
  by_cases hlt : st.1 < b.length
  · rw [if_pos hlt] at hw
    cases hw
  · rw [if_neg hlt] at hw
    obtain ⟨m, htracks, -, hcheck⟩ := checkTrees_commitBytes h.tracks h.sound b
    by_cases hp : shown c.tt c.startBlock (w ++ b) <+: c.tt.leaves
    · rw [if_pos hp] at hcheck
      simp only [merkleCheckOutputStream, hcheck.1, Outcome.map_returned,
        Outcome.andThen_returned] at hw
      cases hs : (fileOutput c).write st.2.2 b with
      | returned t =>
        simp only [hs, Outcome.map_returned] at hw
        obtain rfl := Outcome.returned.inj hw
        obtain ⟨hpend, hu⟩ := fileOutput_write_returned hs h.unbuffered
        refine ⟨htracks, hcheck.2, hp, by rw [hpend, h.pending], ?_, hu⟩
        have := h.limit
        simp only [List.length_append]
        omega
      | threw aError t =>
        simp only [hs, Outcome.map_threw] at hw
        cases hw
      | undefined =>
        simp only [hs, Outcome.map_undefined] at hw
        cases hw
    · rw [if_neg hp] at hcheck
      simp only [merkleCheckOutputStream, hcheck, Outcome.map_threw, Outcome.andThen_threw] at hw
      cases hw

theorem limited_flush_returned {c : Setup H F} {w : List UInt8}
    {st st' : Nat × MerkleCheck V × List UInt8 × File} (h : Carries c w st)
    (hf : (limited c).flush st = .returned st') :
    FlushPasses c.tt c.startBlock w ∧ st'.2.2.2.stored = w ∧ st'.2.2.1 = [] ∧ st'.1 = st.1 := by
  simp only [limited, limitedOutputStream] at hf
  have hn := le_leaves_length h.file
  obtain ⟨m, -, -, -, hpass, hfail⟩ := flushTree_spec hn (serves_of_le h.file) h.tracks h.sound
  by_cases hp : FlushPasses c.tt c.startBlock w
  · simp only [merkleCheckOutputStream, hpass hp, Outcome.map_returned,
      Outcome.andThen_returned] at hf
    cases hs : (fileOutput c).flush st.2.2 with
    | returned t =>
      simp only [hs, Outcome.map_returned] at hf
      obtain rfl := Outcome.returned.inj hf
      obtain ⟨hpend, -, -, hret⟩ :=
        fileOutput_flush_state (show _ = some t by rw [hs]; rfl) h.unbuffered
      have hnil := hret hs
      rw [h.pending, Dcpp.pending, hnil, List.append_nil] at hpend
      exact ⟨hp, hpend, hnil, rfl⟩
    | threw aError t =>
      simp only [hs, Outcome.map_threw] at hf
      cases hf
    | undefined =>
      simp only [hs, Outcome.map_undefined] at hf
      cases hf
  · simp only [merkleCheckOutputStream, hfail hp, Outcome.map_threw, Outcome.andThen_threw] at hf
    cases hf

omit [Inhabited V] in
theorem limited_writeKeeps (c : Setup H F) (w : List UInt8) :
    (limited c).WriteKeeps fun st => Holds c w st.2.2 :=
  limitedOutputStream_writeKeeps (merkleCheckOutputStream_writeKeeps (fileOutput_writeKeeps c w))

omit [Inhabited V] in
theorem limited_flushKeeps (c : Setup H F) (w : List UInt8) :
    (limited c).FlushKeeps fun st => Holds c w st.2.2 :=
  limitedOutputStream_flushKeeps (merkleCheckOutputStream_flushKeeps (fileOutput_flushKeeps c w))

omit [Inhabited V] in
theorem limited_flushKeeps_stored (c : Setup H F) (w : List UInt8) :
    (limited c).FlushKeeps fun st => st.2.2.2.stored = w ∧ st.2.2.1 = [] :=
  limitedOutputStream_flushKeeps
    (merkleCheckOutputStream_flushKeeps (fileOutput_flushKeeps_stored c w))

omit [Inhabited V] in
theorem limited_flush_maxBytes {c : Setup H F} {st st' : Nat × MerkleCheck V × List UInt8 × File}
    (h : ((limited c).flush st).state? = some st') : st'.1 = st.1 := by
  simp only [limited, limitedOutputStream, Outcome.state?_map, Option.map_eq_some_iff] at h
  obtain ⟨t, -, rfl⟩ := h
  rfl

section Output

variable {c : Setup H F} {o o' : Output V F}

theorem write_returned {w b : List UInt8} {n : Nat} (h : Carries c w o.below)
    (hf : ∀ f, o.filtered = some f → f.flushed = false) (hw : o.write c b = .returned (n, o')) :
    ∃ v, Carries c (w ++ v) o'.below ∧ n = v.length ∧ (o'.filtered = none ↔ o.filtered = none) ∧
      ∀ f, o'.filtered = some f → f.flushed = false := by
  rw [Output.write] at hw
  cases hz : o.filtered with
  | none =>
    rw [hz] at hw
    cases hr : (limited c).write o.below b with
    | returned st =>
      simp only [hr, Outcome.map_returned, Outcome.returned.injEq, Prod.mk.injEq] at hw
      obtain ⟨rfl, rfl⟩ := hw
      exact ⟨b, limited_write_returned c w o.below b st h hr, rfl, by simp [Output.ofBelow],
        by simp [Output.ofBelow]⟩
    | threw aError st =>
      simp only [hr, Outcome.map_threw] at hw
      cases hw
    | undefined =>
      simp only [hr, Outcome.map_undefined] at hw
      cases hw
  | some f =>
    rw [hz] at hw
    cases hr : filteredWrite c.filter (limited c) c.fuel (f, o.below) b with
    | returned r =>
      simp only [hr, Outcome.map_returned, Outcome.returned.injEq, Prod.mk.injEq] at hw
      obtain ⟨rfl, rfl⟩ := hw
      rw [filteredWrite, hf f hz, if_neg (by decide)] at hr
      obtain ⟨v, hv, hlen, hflushed⟩ :=
        filteredLoop_returned (limited_write_returned c) c.fuel 0 (f, o.below) b h hr
      refine ⟨v, hv, by simpa using hlen, by simp [Output.ofBelow], fun g hg => ?_⟩
      obtain rfl : r.2.1 = g := by simpa [Output.ofBelow] using hg
      rw [hflushed]
      exact hf f hz
    | threw aError r =>
      simp only [hr, Outcome.map_threw] at hw
      cases hw
    | undefined =>
      simp only [hr, Outcome.map_undefined] at hw
      cases hw

omit [Inhabited V] in
theorem write_holds {w b : List UInt8} {r : Nat × Output V F} (h : Holds c w (o.buf, o.file))
    (hw : (o.write c b).state? = some r) :
    Holds c w (r.2.buf, r.2.file) ∧ (r.2.filtered = none ↔ o.filtered = none) := by
  rw [Output.write] at hw
  cases hz : o.filtered with
  | none =>
    simp only [hz, Outcome.state?_map, Option.map_eq_some_iff] at hw
    obtain ⟨st, hst, rfl⟩ := hw
    exact ⟨limited_writeKeeps c w o.below b st h hst, by simp [Output.ofBelow]⟩
  | some f =>
    simp only [hz, Outcome.state?_map, Option.map_eq_some_iff] at hw
    obtain ⟨st, hst, rfl⟩ := hw
    exact ⟨filteredWrite_keeps (limited_writeKeeps c w) (show Holds c w (f, o.below).2.2.2 from h) hst,
      by simp [Output.ofBelow]⟩

omit [Inhabited V] in
theorem flush_holds {w : List UInt8} (h : Holds c w (o.buf, o.file))
    (hw : (o.flush c).state? = some o') :
    Holds c w (o'.buf, o'.file) ∧ (o'.filtered = none ↔ o.filtered = none) := by
  rw [Output.flush] at hw
  cases hz : o.filtered with
  | none =>
    simp only [hz, Outcome.state?_map, Option.map_eq_some_iff] at hw
    obtain ⟨st, hst, rfl⟩ := hw
    exact ⟨limited_flushKeeps c w o.below st h hst, by simp [Output.ofBelow]⟩
  | some f =>
    simp only [hz, Outcome.state?_map, Option.map_eq_some_iff] at hw
    obtain ⟨st, hst, rfl⟩ := hw
    exact ⟨filteredFlush_keeps (limited_writeKeeps c w) (limited_flushKeeps c w)
      (show Holds c w (f, o.below).2.2.2 from h) hst, by simp [Output.ofBelow]⟩

/-- Everything that came through is checked and stored. -/
structure Settled (c : Setup H F) (o : Output V F) : Prop where
  passes : FlushPasses c.tt c.startBlock o.file.stored
  good : shown c.tt c.startBlock o.file.stored <+: c.tt.leaves
  empty : o.buf = []
  limit : o.file.stored.length + o.maxBytes = c.size
  flushed : ∀ f, o.filtered = some f → f.flushed = true

theorem flush_returned {w : List UInt8} (h : Carries c w o.below)
    (hf : ∀ f, o.filtered = some f → f.flushed = false) (hw : o.flush c = .returned o') :
    Settled c o' ∧ (o'.filtered = none ↔ o.filtered = none) ∧
      (o.filtered = none → o'.maxBytes = o.maxBytes) := by
  have settled : ∀ (z : Option (Filtered F)) (v : List UInt8)
      (st st' : Nat × MerkleCheck V × List UInt8 × File), Carries c v st →
      (limited c).flush st = .returned st' → (∀ f, z = some f → f.flushed = true) →
      Settled c (Output.ofBelow z st') := by
    intro z v st st' hv hst hz
    obtain ⟨hp, rfl, hb, hmax⟩ := limited_flush_returned hv hst
    refine ⟨hp, hv.good, hb, ?_, hz⟩
    rw [← hv.limit, ← hmax]
    rfl
  rw [Output.flush] at hw
  cases hz : o.filtered with
  | none =>
    cases hr : (limited c).flush o.below with
    | returned st =>
      simp only [hz, hr, Outcome.map_returned, Outcome.returned.injEq] at hw
      obtain rfl := hw
      exact ⟨settled none w o.below st h hr (by simp), by simp [Output.ofBelow],
        fun _ => (limited_flush_returned h hr).2.2.2⟩
    | threw aError st =>
      simp only [hz, hr, Outcome.map_threw] at hw
      cases hw
    | undefined =>
      simp only [hz, hr, Outcome.map_undefined] at hw
      cases hw
  | some f =>
    cases hr : filteredFlush c.filter (limited c) c.fuel (f, o.below) with
    | returned r =>
      simp only [hz, hr, Outcome.map_returned, Outcome.returned.injEq] at hw
      obtain rfl := hw
      rw [filteredFlush, hf f hz, if_neg (by decide)] at hr
      cases hd : filteredDrain c.filter (limited c) c.fuel ({ f with flushed := true }, o.below) with
      | returned t =>
        obtain ⟨v, hv, hflushed⟩ := filteredDrain_returned (limited_write_returned c) c.fuel
          ({ f with flushed := true }, o.below) h hd
        simp only [hd, Outcome.andThen_returned] at hr
        cases hl : (limited c).flush t.2 with
        | returned st =>
          simp only [hl, Outcome.map_returned, Outcome.returned.injEq] at hr
          obtain rfl := hr
          refine ⟨settled (some t.1) _ t.2 st hv hl fun g hg => ?_, by simp [Output.ofBelow],
            by simp⟩
          obtain rfl := Option.some.inj hg
          exact hflushed
        | threw aError st =>
          simp only [hl, Outcome.map_threw] at hr
          cases hr
        | undefined =>
          simp only [hl, Outcome.map_undefined] at hr
          cases hr
      | threw aError t =>
        simp only [hd, Outcome.andThen_threw] at hr
        cases hr
      | undefined =>
        simp only [hd, Outcome.andThen] at hr
        cases hr
    | threw aError r =>
      simp only [hz, hr, Outcome.map_threw] at hw
      cases hw
    | undefined =>
      simp only [hz, hr, Outcome.map_undefined] at hw
      cases hw

/-- Another flush keeps what is settled, whether it returns or not. -/
theorem flush_settled (h : Settled c o) (hw : (o.flush c).state? = some o') :
    Settled c o' ∧ o'.filtered = o.filtered ∧ o'.maxBytes = o.maxBytes := by
  rw [Output.flush] at hw
  cases hz : o.filtered with
  | none =>
    simp only [hz, Outcome.state?_map, Option.map_eq_some_iff] at hw
    obtain ⟨st, hst, rfl⟩ := hw
    obtain ⟨hs, hb⟩ := limited_flushKeeps_stored c o.file.stored o.below st ⟨rfl, h.empty⟩ hst
    have hmax := limited_flush_maxBytes hst
    refine ⟨⟨?_, ?_, hb, ?_, by simp [Output.ofBelow]⟩, rfl, hmax⟩
    · simpa only [Output.ofBelow, hs] using h.passes
    · simpa only [Output.ofBelow, hs] using h.good
    · have hlimit := h.limit
      simp only [Output.ofBelow, hs, hmax]
      exact hlimit
  | some f =>
    simp only [hz, filteredFlush, h.flushed f hz] at hw
    obtain rfl := Option.some.inj hw
    exact ⟨⟨h.passes, h.good, h.empty, h.limit, by simpa [Output.ofBelow] using h.flushed f hz⟩,
      rfl, rfl⟩

end Output

/-- What a failed download counts was checked and came to the buffer. -/
def Counted (c : Setup H F) (d : Transfer V F) : Prop :=
  d.pos = 0 ∨ ∃ o w, d.output = some o ∧ d.pos = w.length ∧ w.length ≤ c.size ∧
    (o.filtered = none → w.length < c.size) ∧ shown c.tt c.startBlock w <+: c.tt.leaves ∧
    Holds c w (o.buf, o.file)

def Inv (c : Setup H F) : State V F → Prop
  | .running d => match d.output with
    | none => d.pos = 0
    | some o => ∃ w, Carries c w o.below ∧ d.pos = w.length ∧
        (o.filtered = none → w.length < c.size) ∧ ∀ f, o.filtered = some f → f.flushed = false
  | .closing d false => Counted c d
  | .closing d true => ∃ o, d.output = some o ∧ Settled c o ∧ (o.filtered = none → o.maxBytes = 0)
  | .ended _ _ => True
  | .stuck => True

omit [DecidableEq V] in
theorem Carries.counted {c : Setup H F} {w : List UInt8} {o o' : Output V F}
    (h : Carries c w o.below) (hlt : o.filtered = none → w.length < c.size)
    (hh : Holds c w (o'.buf, o'.file)) (hz : o'.filtered = none ↔ o.filtered = none) (actual : Nat) :
    Counted c ⟨w.length, actual, some o'⟩ := by
  refine Or.inr ⟨o', w, rfl, rfl, ?_, fun h' => hlt (hz.mp h'), h.good, hh⟩
  have := h.limit
  omega

omit [DecidableEq V] in
theorem Carries.holds {c : Setup H F} {w : List UInt8} {o : Output V F} (h : Carries c w o.below) :
    Holds c w (o.buf, o.file) := by
  refine ⟨?_, h.unbuffered⟩
  have hp := h.pending
  exact hp.symm ▸ List.prefix_refl _

theorem failDownload_inv {c : Setup H F} {d : Transfer V F} (h : Counted c d) :
    Inv c (failDownload c d) := by
  rw [failDownload, removeDownload]
  cases ho : d.output with
  | none => exact h
  | some o =>
    dsimp only
    by_cases ha : 0 < d.actual
    · rw [if_pos ha]
      have hcounted : ∀ o', (o.flush c).state? = some o' → Counted c { d with output := some o' } := by
        intro o' ho'
        obtain h0 | ⟨p, w, hp, hpos, hle, hlt, hgood, hh⟩ := h
        · exact Or.inl h0
        · obtain rfl : o = p := by simpa [ho] using hp
          obtain ⟨hh', hz⟩ := flush_holds hh ho'
          exact Or.inr ⟨o', w, rfl, hpos, hle, fun h' => hlt (hz.mp h'), hgood, hh'⟩
      cases hr : o.flush c with
      | returned o' => exact hcounted o' (by rw [hr]; rfl)
      | threw aError o' => exact hcounted o' (by rw [hr]; rfl)
      | undefined => trivial
    · rw [if_neg ha]
      exact h

theorem endData_inv {c : Setup H F} {d : Transfer V F} {o : Output V F} {w : List UInt8}
    (h : Carries c w o.below) (hmax : o.filtered = none → o.maxBytes = 0)
    (hf : ∀ f, o.filtered = some f → f.flushed = false) : Inv c (endData c d o) := by
  rw [endData]
  cases hr : o.flush c with
  | undefined => trivial
  | threw aError o' => exact failDownload_inv (Or.inl rfl)
  | returned o' =>
    obtain ⟨hs, hz, hmax'⟩ := flush_returned h hf hr
    have hdone : ∀ o'', Settled c o'' → o''.filtered = o'.filtered → o''.maxBytes = o'.maxBytes →
        ∀ actual pos, Inv c (.closing ⟨pos, actual, some o''⟩ true) := by
      intro o'' hs'' hz'' hmax'' actual pos
      refine ⟨o'', rfl, hs'', fun h' => ?_⟩
      rw [hz''] at h'
      rw [hmax'', hmax' (hz.mp h'), hmax (hz.mp h')]
    dsimp only
    rw [removeDownload]
    dsimp only
    by_cases ha : 0 < d.actual
    · rw [if_pos ha]
      cases hr' : o'.flush c with
      | undefined => trivial
      | returned o'' =>
        obtain ⟨h1, h2, h3⟩ := flush_settled hs (show _ = some o'' by rw [hr']; rfl)
        exact hdone o'' h1 h2 h3 _ _
      | threw aError o'' =>
        obtain ⟨h1, h2, h3⟩ := flush_settled hs (show _ = some o'' by rw [hr']; rfl)
        exact hdone o'' h1 h2 h3 _ _
    · rw [if_neg ha]
      exact hdone o' hs rfl rfl _ _

theorem startData_inv {c : Setup H F} {d : Transfer V F} (h : Inv c (.running d)) (z : Bool) :
    Inv c (startData c d z) := by
  rw [startData]
  cases ho : d.output with
  | some o => exact h
  | none =>
    have hpos : d.pos = 0 := by
      rw [Inv, ho] at h
      exact h
    have hn := le_leaves_length (T := c.tt) (n := c.startBlock) (w := []) (by
      have := c.inside
      simp only [List.length_nil]
      omega)
    obtain ⟨htracks, hver⟩ := new_tracks c.tt hn
    have hcarries : Carries c [] (Output.open c z).below := by
      refine ⟨htracks, ?_, ?_, rfl, ?_, fun _ => rfl⟩
      · rw [Sound]
        simp only [Output.open, Output.below, Setup.startPos, hver, List.take_zero]
        exact ⟨Nat.zero_le _, List.nil_prefix⟩
      · rw [shown_nil]
        exact List.take_prefix _ _
      · simp [Output.open, Output.below]
    have hflushed : ∀ f, (Output.open c z).filtered = some f → f.flushed = false := by
      intro f hf
      cases z with
      | false => simp [Output.open] at hf
      | true =>
        obtain rfl : Filtered.mk c.newFilter false true = f := by simpa [Output.open] using hf
        rfl
    dsimp only
    by_cases hsize : d.pos = c.size
    · rw [if_pos hsize]
      refine endData_inv hcarries (fun _ => ?_) hflushed
      simp [Output.open, ← hsize, hpos]
    · rw [if_neg hsize]
      refine ⟨[], hcarries, by simpa using hpos, fun _ => ?_, hflushed⟩
      simp only [List.length_nil]
      omega

theorem onData_inv {c : Setup H F} {d : Transfer V F} (h : Inv c (.running d)) (aData : List UInt8) :
    Inv c (onData c d aData) := by
  rw [onData]
  cases ho : d.output with
  | none => exact h
  | some o =>
    rw [Inv, ho] at h
    obtain ⟨w, hcarries, hpos, hlt, hf⟩ := h
    dsimp only
    cases hr : o.write c aData with
    | undefined => trivial
    | threw aError r =>
      obtain ⟨hh, hz⟩ := write_holds hcarries.holds (show _ = some r by rw [hr]; rfl)
      dsimp only
      rw [hpos]
      exact failDownload_inv (hcarries.counted hlt hh hz _)
    | returned r =>
      obtain ⟨n, o'⟩ := r
      obtain ⟨v, hv, rfl, hz, hf'⟩ := write_returned hcarries hf hr
      dsimp only
      by_cases he : o'.eof = true
      · rw [if_pos he]
        refine endData_inv hv (fun hz' => ?_) hf'
        simpa [Output.eof, hz'] using he
      · rw [if_neg he]
        refine ⟨w ++ v, hv, by rw [hpos, List.length_append], fun hz' => ?_, hf'⟩
        have hmax : ¬o'.maxBytes = 0 := by simpa [Output.eof, hz'] using he
        have hlimit : (w ++ v).length + o'.maxBytes = c.size := hv.limit
        omega

theorem step_inv {c : Setup H F} {s : State V F} (h : Inv c s) (e : Event) : Inv c (step c s e) := by
  cases s with
  | running d =>
    cases e with
    | start z => exact startData_inv h z
    | data aData => exact onData_inv h aData
    | fail =>
      refine failDownload_inv ?_
      cases ho : d.output with
      | none =>
        rw [Inv, ho] at h
        exact Or.inl h
      | some o =>
        rw [Inv, ho] at h
        obtain ⟨w, hcarries, hpos, hlt, -⟩ := h
        have hc := hcarries.counted hlt hcarries.holds Iff.rfl d.actual
        rwa [← hpos, ← ho] at hc
  | closing d finished =>
    rw [step, putDownload]
    cases d.output with
    | none => trivial
    | some o =>
      dsimp only
      split <;> trivial
  | ended added stored => exact h
  | stuck => exact h

theorem run_inv (c : Setup H F) (events : List Event) : Inv c (run c events) := by
  induction events using List.reverseRecOn with
  | nil => rfl
  | append_singleton events e ih =>
    rw [run, List.foldl_append, List.foldl_cons, List.foldl_nil]
    exact step_inv ih e

/-- Every block of the added segment consists of bytes that hash to the trusted leaf and
that were all written to the file by calls that succeeded. -/
def Verified (c : Setup H F) (added : Option Segment) (stored : List UInt8) : Prop :=
  ∀ seg, added = some seg → ∃ len : Nat, seg = ⟨c.startPos, len⟩ ∧ len ≤ stored.length ∧
    ∀ j, j * c.tt.blockSize < len → c.tt.leaves[c.startBlock + j]? =
      some (tigerRoot H (block c.tt.blockSize (stored.take len) j))

/-- The condition on a step. Before an unfinished download is put back: what is counted is
in the file, or the write of `~BufferedOutputStream` will succeed; and with compression,
nothing is counted of a tree whose leaves are compared by a flush only. Before a finished
one is put back: with compression, the filter did not end before all bytes came out; and
the root tells the last block apart. -/
def Meets (c : Setup H F) : State V F → Prop
  | .closing d false => ∀ o, d.output = some o →
      (downloaded c d ≤ o.file.stored.length ∨ c.succeeds o.file.calls = true) ∧
      (o.filtered ≠ none → (∃ k, c.tt.blockSize = baseBlockSize * 2 ^ k) ∨ downloaded c d = 0)
  | .closing d true => ∀ o, d.output = some o → (o.filtered ≠ none → o.maxBytes = 0) ∧
      (c.tt.leaves.length ≤ 2 ^ 32 ∨ c.tt.blockSize ∣ c.size)
  | _ => True

omit [Inhabited V] [DecidableEq V] in
theorem meets_running {c : Setup H F} {d : Transfer V F} : Meets c (.running d) := trivial

theorem block_take {B len j : Nat} {w : List UInt8} (h : (j + 1) * B ≤ len) :
    block B (w.take len) j = block B w j := by
  rw [Nat.succ_mul] at h
  rw [block, block, List.drop_take, List.take_take, min_eq_left (by omega)]

omit [DecidableEq V] in
/-- A complete block that has passed `checkTrees` hashes to its leaf. -/
theorem leaf_of_shown {c : Setup H F} {w : List UInt8} (hsize : w.length ≤ c.size)
    (hgood : shown c.tt c.startBlock w <+: c.tt.leaves)
    (hk : ∃ k, c.tt.blockSize = baseBlockSize * 2 ^ k) {j : Nat}
    (hj : (j + 1) * c.tt.blockSize ≤ w.length) :
    c.tt.leaves[c.startBlock + j]? = some (tigerRoot H (block c.tt.blockSize w j)) := by
  have hfile : c.startBlock * c.tt.blockSize + w.length ≤ c.tt.fileSize := by
    have := c.inside
    omega
  have hn := le_leaves_length hfile
  have hs := serves_of_le hfile
  have hle : (c.startBlock + j + 1) * c.tt.blockSize ≤
      c.startBlock * c.tt.blockSize + w.length := by
    rw [Nat.add_assoc, Nat.add_mul]
    omega
  have hm := (prefix_leaves_iff hn (shown_le_final c.tt c.startBlock hs)).mp hgood
    (c.startBlock + j) (by omega) (complete_shown hs hn hk (by omega) hle)
  rwa [Matches, Nat.mul_div_cancel _ c.tt.blockSize_pos, Nat.add_sub_cancel_left] at hm

omit [DecidableEq V] in
theorem verified_of_settled {c : Setup H F} {o : Output V F}
    (hinj : ∀ a b c d, H.combine a b = H.combine c d → a = c ∧ b = d) (h : Settled c o)
    (hmax : o.maxBytes = 0) (hroot : c.tt.leaves.length ≤ 2 ^ 32 ∨ c.tt.blockSize ∣ c.size) :
    Verified c (some ⟨c.startPos, c.size⟩) o.file.stored := by
  have hB := c.tt.blockSize_pos
  have hsize : o.file.stored.length = c.size := by
    have := h.limit
    omega
  have hfile : c.startBlock * c.tt.blockSize + o.file.stored.length ≤ c.tt.fileSize := by
    rw [hsize]
    exact c.inside
  rintro seg hseg
  obtain rfl := Option.some.inj hseg
  refine ⟨c.size, rfl, hsize.ge, fun j hj => ?_⟩
  rw [← hsize, List.take_length]
  by_cases h32 : c.tt.leaves.length ≤ 2 ^ 32
  · have hi : c.startBlock + j <
        calcBlocks (c.startBlock * c.tt.blockSize + o.file.stored.length) c.tt.blockSize := by
      rw [calcBlocks_of_pos hB (by omega)]
      refine (Nat.le_div_iff_mul_le hB).mpr ?_
      rw [Nat.succ_mul, Nat.add_mul]
      omega
    have hm : Matches c.tt (c.startBlock * c.tt.blockSize) o.file.stored (c.startBlock + j) := by
      have hp := (flushPasses_iff hinj hfile).mp h.passes
      split at hp
      · exact hp _ (by omega) hi (by omega)
      · exact hp _ (by omega) hi
    rwa [Matches, Nat.mul_div_cancel _ hB, Nat.add_sub_cancel_left] at hm
  · obtain ⟨q, hq⟩ := hroot.resolve_left h32
    have hk := c.tt.serves.resolve_right fun hle => h32 (by
      rw [c.tt.leaves_length, calcBlocks_of_le hB hle]
      omega)
    refine leaf_of_shown hsize.le h.good hk ?_
    rw [hq, Nat.mul_comm] at hj
    rw [hsize, hq, Nat.mul_comm]
    exact Nat.mul_le_mul_left _ (Nat.lt_of_mul_lt_mul_left hj)

omit [DecidableEq V] in
theorem verified_of_counted {c : Setup H F} {d : Transfer V F} {w : List UInt8}
    (hpos : d.pos = w.length) (hsize : w.length ≤ c.size)
    (hgood : shown c.tt c.startBlock w <+: c.tt.leaves)
    (hk : (∃ k, c.tt.blockSize = baseBlockSize * 2 ^ k) ∨ downloaded c d = 0)
    {stored : List UInt8} (hstored : w.take (downloaded c d) <+: stored) :
    Verified c (added c d false) stored := by
  intro seg hseg
  rw [added, if_neg (by decide)] at hseg
  by_cases h0 : 0 < downloaded c d
  · rw [if_pos h0] at hseg
    obtain rfl := Option.some.inj hseg
    have hle : downloaded c d ≤ w.length := by
      rw [← hpos]
      exact Nat.sub_le _ _
    have hlen : (w.take (downloaded c d)).length = downloaded c d := List.length_take_of_le hle
    have htake : stored.take (downloaded c d) = w.take (downloaded c d) := by
      conv_lhs => rw [← hlen]
      exact (List.prefix_iff_eq_take.mp hstored).symm
    refine ⟨downloaded c d, rfl, hlen ▸ hstored.length_le, fun j hj => ?_⟩
    obtain ⟨q, hq⟩ : c.tt.blockSize ∣ downloaded c d := Nat.dvd_sub_mod _
    have hj' : (j + 1) * c.tt.blockSize ≤ downloaded c d := by
      rw [hq, Nat.mul_comm] at hj
      rw [hq, Nat.mul_comm]
      exact Nat.mul_le_mul_left _ (Nat.lt_of_mul_lt_mul_left hj)
    rw [htake, block_take hj']
    exact leaf_of_shown hsize hgood (hk.resolve_right (by omega)) (hj'.trans hle)
  · rw [if_neg h0] at hseg
    cases hseg

omit [Inhabited V] [DecidableEq V] in
theorem close_state {c : Setup H F} {o o' : Output V F} (h : (o.close c).state? = some o') :
    o.file.stored <+: o'.file.stored ∧
      (c.bufferSize ≠ 0 → pending (o'.buf, o'.file) = pending (o.buf, o.file) ∧
        (o.buf = [] → o'.buf = []) ∧ (c.succeeds o.file.calls = true → o'.buf = [])) := by
  rw [Output.close] at h
  by_cases h0 : c.bufferSize = 0
  · rw [if_pos h0] at h
    obtain rfl := Option.some.inj h
    exact ⟨List.prefix_refl _, fun h' => absurd h0 h'⟩
  · rw [if_neg h0, Outcome.state?_map, Option.map_eq_some_iff] at h
    obtain ⟨st, hst, rfl⟩ := h
    have hflush : (bufferedFlush (fileOutputStream c.succeeds) (o.buf, o.file)).state? = some st := by
      rw [bufferedClose] at hst
      cases hr : bufferedFlush (fileOutputStream c.succeeds) (o.buf, o.file) with
      | returned t => rwa [hr] at hst
      | threw aError t => rwa [hr] at hst
      | undefined => rwa [hr] at hst
    obtain ⟨hp, hnil, -⟩ := (fileOutputStream_carries c.succeeds).bufferedFlush_state hflush
    obtain ⟨hstored, hs⟩ := bufferedFlush_stored hflush
    exact ⟨hstored, fun _ => ⟨hp, hnil, hs⟩⟩

omit [Inhabited V] [DecidableEq V] in
theorem close_settled {c : Setup H F} {o o' : Output V F} (hb : o.buf = [])
    (h : (o.close c).state? = some o') : o'.file.stored = o.file.stored := by
  by_cases h0 : c.bufferSize = 0
  · rw [Output.close, if_pos h0] at h
    obtain rfl := Option.some.inj h
    rfl
  · obtain ⟨hp, hnil, -⟩ := (close_state h).2 h0
    simpa only [pending, hb, hnil hb, List.append_nil] using hp

omit [Inhabited V] [DecidableEq V] in
theorem close_counted {c : Setup H F} {o o' : Output V F} {w : List UInt8} {n : Nat}
    (hh : Holds c w (o.buf, o.file)) (hn : n ≤ w.length)
    (hs : n ≤ o.file.stored.length ∨ c.succeeds o.file.calls = true)
    (h : (o.close c).state? = some o') : w.take n <+: o'.file.stored := by
  obtain ⟨hstored, hbuf⟩ := close_state h
  obtain ⟨hw, hu⟩ := hh
  have htake : w.take n <+: o.file.stored ++ o.buf := (List.take_prefix n w).trans hw
  have hin : n ≤ o.file.stored.length → w.take n <+: o'.file.stored := fun hle =>
    (List.prefix_of_prefix_length_le htake (List.prefix_append _ _)
      (by rw [List.length_take_of_le hn]; exact hle)).trans hstored
  by_cases h0 : c.bufferSize = 0
  · refine hin ?_
    have hlen := hw.length_le
    rw [pending, hu h0, List.append_nil] at hlen
    exact hn.trans hlen
  · obtain hle | hsucc := hs
    · exact hin hle
    · obtain ⟨hp, -, hnil⟩ := hbuf h0
      rw [pending, hnil hsucc, List.append_nil] at hp
      rw [show o'.file.stored = pending (o.buf, o.file) from hp]
      exact htake

omit [DecidableEq V] in
theorem putDownload_verified {c : Setup H F}
    (hinj : ∀ a b c d, H.combine a b = H.combine c d → a = c ∧ b = d) {d : Transfer V F}
    {finished : Bool} (hinv : Inv c (.closing d finished)) (hm : Meets c (.closing d finished))
    {added : Option Segment} {stored : List UInt8}
    (h : putDownload c d finished = .ended added stored) : Verified c added stored := by
  have hended : ∀ o, d.output = some o → ∃ o', (o.close c).state? = some o' ∧
      added = Download.added c d finished ∧ stored = o'.file.stored := by
    intro o ho
    rw [putDownload, ho] at h
    dsimp only at h
    cases hr : o.close c with
    | returned o' =>
      rw [hr] at h
      obtain ⟨rfl, rfl⟩ := State.ended.inj h
      exact ⟨o', rfl, rfl, rfl⟩
    | threw aError o' =>
      rw [hr] at h
      obtain ⟨rfl, rfl⟩ := State.ended.inj h
      exact ⟨o', rfl, rfl, rfl⟩
    | undefined =>
      rw [hr] at h
      cases h
  cases finished with
  | true =>
    obtain ⟨o, ho, hs, hz⟩ := hinv
    obtain ⟨hmax, hroot⟩ := hm o ho
    obtain ⟨o', hclose, rfl, rfl⟩ := hended o ho
    rw [close_settled hs.empty hclose]
    refine verified_of_settled hinj hs ?_ hroot
    by_cases hnone : o.filtered = none
    · exact hz hnone
    · exact hmax hnone
  | false =>
    obtain h0 | ⟨o, w, ho, hpos, hsize, hlt, hgood, hh⟩ := hinv
    · have hnone : Download.added c d false = none := by
        simp [Download.added, downloaded, h0]
      have hadded : added = Download.added c d false := by
        cases ho : d.output with
        | none =>
          rw [putDownload, ho] at h
          exact (State.ended.inj h).1.symm
        | some o => exact (hended o ho).choose_spec.2.1
      rw [hadded, hnone]
      intro seg hseg
      cases hseg
    · obtain ⟨hfit, hk⟩ := hm o ho
      obtain ⟨o', hclose, rfl, rfl⟩ := hended o ho
      have hle : downloaded c d ≤ w.length := by
        rw [← hpos]
        exact Nat.sub_le _ _
      refine verified_of_counted hpos hsize hgood ?_ (close_counted hh hle hfit hclose)
      by_cases hnone : o.filtered = none
      · -- without a filter the last byte ends the download, so less than a block is left
        refine c.tt.serves.imp id fun hfs => ?_
        have hlt' := hlt hnone
        have hin := c.inside
        rw [downloaded, Nat.mod_eq_of_lt (by omega), Nat.sub_self]
      · exact hk hnone

omit [Inhabited V] in
theorem removeDownload_not_ended {c : Setup H F} {d : Transfer V F} {finished : Bool}
    {added : Option Segment} {stored : List UInt8} :
    removeDownload c d (fun d => .closing d finished) ≠ .ended added stored := by
  intro h
  rw [removeDownload] at h
  split at h
  · cases h
  · split at h
    · split at h <;> cases h
    · cases h

omit [Inhabited V] in
theorem endData_not_ended {c : Setup H F} {d : Transfer V F} {o : Output V F}
    {added : Option Segment} {stored : List UInt8} : endData c d o ≠ .ended added stored := by
  intro h
  rw [endData] at h
  split at h
  · exact removeDownload_not_ended h
  · exact removeDownload_not_ended h
  · cases h

/-- A running download ends through `putDownload` only. -/
theorem step_running_not_ended {c : Setup H F} {d : Transfer V F} {e : Event}
    {added : Option Segment} {stored : List UInt8} :
    step c (.running d) e ≠ .ended added stored := by
  intro h
  cases e with
  | start z =>
    rw [step, startData] at h
    split at h
    · cases h
    · dsimp only at h
      split at h
      · exact endData_not_ended h
      · cases h
  | data aData =>
    rw [step, onData] at h
    split at h
    · cases h
    · split at h
      · dsimp only at h
        split at h
        · exact endData_not_ended h
        · cases h
      · exact removeDownload_not_ended h
      · cases h
  | fail => exact removeDownload_not_ended h

/-- In every run whose steps all meet the condition, what is marked as downloaded was
verified and stored. -/
theorem run_verified (c : Setup H F)
    (hinj : ∀ a b c d, H.combine a b = H.combine c d → a = c ∧ b = d) (events : List Event)
    (hm : ∀ i < events.length, Meets c (run c (events.take i))) (added : Option Segment)
    (stored : List UInt8) (h : run c events = .ended added stored) : Verified c added stored := by
  induction events using List.reverseRecOn generalizing added stored with
  | nil => cases h
  | append_singleton events e ih =>
    have hm' : ∀ i < events.length, Meets c (run c (events.take i)) := by
      intro i hi
      have hi' := hm i (by rw [List.length_append]; exact Nat.lt_add_right _ hi)
      rwa [List.take_append_of_le_length hi.le] at hi'
    have hlast := hm events.length (by rw [List.length_append]; exact Nat.lt_succ_self _)
    rw [List.take_left] at hlast
    have hinv := run_inv c events
    have hstep : step c (run c events) e = .ended added stored := by
      rw [← h, run, run, List.foldl_append]
      rfl
    cases hs : run c events with
    | closing d finished =>
      rw [hs] at hinv hlast hstep
      exact putDownload_verified hinj hinv hlast hstep
    | ended added' stored' =>
      rw [hs] at hstep
      obtain ⟨rfl, rfl⟩ := State.ended.inj hstep
      exact ih hm' added' stored' hs
    | stuck =>
      rw [hs] at hstep
      cases hstep
    | running d =>
      rw [hs] at hstep
      exact absurd hstep step_running_not_ended

def zeros : List UInt8 := List.replicate baseBlockSize 0

theorem zeros_length : zeros.length = baseBlockSize := List.length_replicate

theorem zeros_ne_nil : zeros ≠ [] := by
  rw [← List.length_pos_iff, zeros_length]
  decide

/-- The tree of a file of two base blocks that are all zero. -/
def zerosTree : TrustedTree termHasher :=
  .ofLeaves termHasher 0 2048 [.base zeros, .base zeros] rfl

/-- A download of that file, with a buffer of 64 KiB in front of it. -/
def zerosSetup (succeeds : Nat → Bool) : Setup termHasher Unit where
  tt := zerosTree
  startBlock := 0
  size := 2048
  inside := le_rfl
  bufferSize := 65536
  succeeds := succeeds
  newFilter := ()
  filter := fun _ _ => .threw ""
  fuel := 0

theorem zerosTree_shown : shown zerosTree 0 zeros <+: zerosTree.leaves := by
  have hs : Serves zerosTree.blockSize zeros.length := Or.inl ⟨0, rfl⟩
  refine (shown_le_final zerosTree 0 hs).trans ?_
  have hB : zerosTree.blockSize = baseBlockSize := rfl
  rw [finalLeaves, if_neg (fun h => zeros_ne_nil h.2), hB, chunks_of_le zeros_ne_nil zeros_length.le,
    List.map_singleton, tigerRoot_of_le _ zeros_length.le]
  exact ⟨[.base zeros], rfl⟩

/-- The first block comes through to the buffer. -/
theorem zerosSetup_data (succeeds : Nat → Bool) :
    ∃ m, Tracks zerosTree 0 zeros m ∧ Sound m ∧
      run (zerosSetup succeeds) [.start false, .data zeros] =
        .running ⟨1024, 1024, some ⟨none, 1024, m, zeros, ⟨[], 0⟩⟩⟩ := by
  have hn : (0 : Nat) ≤ zerosTree.leaves.length := Nat.zero_le _
  obtain ⟨htracks, hver⟩ := new_tracks zerosTree hn
  have hsound : Sound (MerkleCheck.new zerosTree.toMerkleTree (0 * zerosTree.blockSize)) := by
    rw [Sound, hver, List.take_zero]
    exact ⟨Nat.zero_le _, List.nil_prefix⟩
  obtain ⟨m, hm, -, hcheck⟩ := checkTrees_commitBytes htracks hsound zeros
  rw [List.nil_append] at hm
  rw [List.nil_append, if_pos zerosTree_shown] at hcheck
  have hbuffer : bufferedWrite (fileOutputStream succeeds) 65536 [] ⟨[], 0⟩ zeros =
      .returned (zeros, ⟨[], 0⟩) := by
    have hlen := zeros_length
    rw [bufferedWrite, if_neg zeros_ne_nil, if_neg (by rw [hlen]; decide), if_neg (by decide)]
    dsimp only
    rw [if_neg (by rw [List.nil_append, List.length_take, hlen]; decide), hlen]
    have htake : zeros.take (min (65536 - ([] : List UInt8).length) baseBlockSize) = zeros :=
      List.take_of_length_le hlen.le
    have hdrop : zeros.drop (min (65536 - ([] : List UInt8).length) baseBlockSize) = [] :=
      List.drop_eq_nil_of_le hlen.le
    rw [htake, hdrop, List.nil_append, bufferedWrite, if_pos rfl]
  have hfile : (fileOutput (zerosSetup succeeds)).write ([], ⟨[], 0⟩) zeros =
      .returned (zeros, ⟨[], 0⟩) := by
    have hbuf : (zerosSetup succeeds).bufferSize ≠ 0 := (by decide : (65536 : Nat) ≠ 0)
    rw [fileOutput, if_neg hbuf]
    exact hbuffer
  have hmerkle : (merkleCheckOutputStream termHasher (fileOutput (zerosSetup succeeds))).write
      (MerkleCheck.new zerosTree.toMerkleTree (0 * zerosTree.blockSize), [], ⟨[], 0⟩) zeros =
        .returned (m, zeros, ⟨[], 0⟩) := by
    simp only [merkleCheckOutputStream, hcheck.1, Outcome.map_returned, Outcome.andThen_returned, hfile]
  have hlimited : (limited (zerosSetup succeeds)).write
      (2048, MerkleCheck.new zerosTree.toMerkleTree (0 * zerosTree.blockSize), [], ⟨[], 0⟩) zeros =
        .returned (1024, m, zeros, ⟨[], 0⟩) := by
    rw [limited, limitedOutputStream]
    dsimp only
    rw [if_neg (by rw [zeros_length]; decide), hmerkle, zeros_length]
    rfl
  have hwrite : (Output.open (zerosSetup succeeds) false).write (zerosSetup succeeds) zeros =
      .returned (1024, ⟨none, 1024, m, zeros, ⟨[], 0⟩⟩) := by
    have hopen : (Output.open (zerosSetup succeeds) false).below =
        (2048, MerkleCheck.new zerosTree.toMerkleTree (0 * zerosTree.blockSize), [], ⟨[], 0⟩) := by
      simp only [Output.open, Output.below, Setup.startPos]
      rfl
    have hplain : (Output.open (zerosSetup succeeds) false).filtered = none := rfl
    rw [Output.write, hplain]
    dsimp only
    rw [hopen, hlimited, zeros_length]
    rfl
  refine ⟨m, hm, hcheck.2, ?_⟩
  have hstart : step (zerosSetup succeeds) (.running ⟨0, 0, none⟩) (.start false) =
      .running ⟨0, 0, some (Output.open (zerosSetup succeeds) false)⟩ := rfl
  rw [run, List.foldl_cons, List.foldl_cons, List.foldl_nil, hstart, step, onData]
  dsimp only
  rw [hwrite]
  dsimp only
  rw [zeros_length]
  rfl

/-- The first block waits in the buffer or is stored when the download has failed. -/
theorem zerosSetup_fail (succeeds : Nat → Bool) :
    ∃ o, run (zerosSetup succeeds) [.start false, .data zeros, .fail] =
        .closing ⟨1024, 1024, some o⟩ false ∧ o.filtered = none ∧
      (succeeds = (fun _ => false) → o.buf = zeros ∧ o.file.stored = []) := by
  obtain ⟨m, htracks, hsound, hrun⟩ := zerosSetup_data succeeds
  have hs : Serves zerosTree.blockSize zeros.length := Or.inl ⟨0, rfl⟩
  obtain ⟨m', -, -, -, hpass, hfail⟩ := flushTree_spec (Nat.zero_le _) hs htracks hsound
  have hbuf : (zerosSetup succeeds).bufferSize ≠ 0 := (by decide : (65536 : Nat) ≠ 0)
  have hplain : (fileOutput (zerosSetup succeeds)).flush =
      bufferedFlush (fileOutputStream succeeds) := by
    rw [fileOutput, if_neg hbuf]
    rfl
  -- the outcome at the buffer, which is not reached if the checker throws
  have hbuffer : ∃ m'' t, ((merkleCheckOutputStream termHasher (fileOutput (zerosSetup succeeds))).flush
      (m, zeros, ⟨[], 0⟩)).state? = some (m'', t) ∧
        (succeeds = (fun _ => false) → t.1 = zeros ∧ t.2.stored = []) := by
    by_cases hp : FlushPasses zerosTree 0 zeros
    · obtain ⟨t, ht⟩ := bufferedFlush_defined succeeds (zeros, ⟨[], 0⟩)
      refine ⟨m', t, ?_, fun hsucc => ?_⟩
      · simp only [merkleCheckOutputStream, hpass hp, Outcome.map_returned, Outcome.andThen_returned,
          hplain, Outcome.state?_map, ht]
        rfl
      · rw [hsucc, bufferedFlush_fails zeros_ne_nil] at ht
        obtain rfl := Option.some.inj ht
        exact ⟨rfl, rfl⟩
    · refine ⟨m', (zeros, ⟨[], 0⟩), ?_, fun _ => ⟨rfl, rfl⟩⟩
      simp only [merkleCheckOutputStream, hfail hp, Outcome.map_threw, Outcome.andThen_threw]
      rfl
  obtain ⟨m'', t, ht, hstay⟩ := hbuffer
  have hflush : (Output.flush (zerosSetup succeeds) ⟨none, 1024, m, zeros, ⟨[], 0⟩⟩).state? =
      some ⟨none, 1024, m'', t.1, t.2⟩ := by
    simp only [Output.flush, limited, limitedOutputStream, Output.below, Outcome.state?_map]
    rw [ht]
    rfl
  refine ⟨⟨none, 1024, m'', t.1, t.2⟩, ?_, rfl, hstay⟩
  have hstep : run (zerosSetup succeeds) [.start false, .data zeros, .fail] =
      failDownload (zerosSetup succeeds) ⟨1024, 1024, some ⟨none, 1024, m, zeros, ⟨[], 0⟩⟩⟩ := by
    rw [run] at hrun ⊢
    rw [show [Event.start false, .data zeros, .fail] = [.start false, .data zeros] ++ [.fail] from rfl,
      List.foldl_append, hrun]
    rfl
  rw [hstep, failDownload, removeDownload]
  dsimp only
  rw [if_pos (by decide)]
  cases hr : Output.flush (zerosSetup succeeds) ⟨none, 1024, m, zeros, ⟨[], 0⟩⟩ with
  | returned o =>
    rw [hr] at hflush
    obtain rfl := Option.some.inj hflush
    rfl
  | threw aError o =>
    rw [hr] at hflush
    obtain rfl := Option.some.inj hflush
    rfl
  | undefined =>
    rw [hr] at hflush
    cases hflush

theorem zerosSetup_added (succeeds : Nat → Bool) (output : Option (Output HashTerm Unit)) :
    added (zerosSetup succeeds) ⟨1024, 1024, output⟩ false = some ⟨0, 1024⟩ := by
  have hd : downloaded (zerosSetup succeeds) ⟨1024, 1024, output⟩ = 1024 := by
    rw [downloaded]
    exact (by decide : 1024 - 1024 % baseBlockSize = 1024)
  have hs : (zerosSetup succeeds).startPos = 0 := Nat.zero_mul _
  rw [added, hd, hs]
  rfl

/-- The failed download is put back with its first block counted. -/
theorem zerosSetup_ended (succeeds : Nat → Bool) :
    ∃ stored, run (zerosSetup succeeds) [.start false, .data zeros, .fail, .fail] =
        .ended (some ⟨0, 1024⟩) stored ∧ (succeeds = (fun _ => false) → stored = []) := by
  obtain ⟨o, hrun, -, hstay⟩ := zerosSetup_fail succeeds
  have hbuf : (zerosSetup succeeds).bufferSize ≠ 0 := (by decide : (65536 : Nat) ≠ 0)
  obtain ⟨t, ht⟩ := bufferedFlush_defined succeeds (o.buf, o.file)
  have hclose : o.close (zerosSetup succeeds) = .returned { o with buf := t.1, file := t.2 } := by
    rw [Output.close, if_neg hbuf, bufferedClose]
    rw [show (zerosSetup succeeds).succeeds = succeeds from rfl]
    cases hr : bufferedFlush (fileOutputStream succeeds) (o.buf, o.file) with
    | returned t' =>
      rw [hr] at ht
      obtain rfl := Option.some.inj ht
      rfl
    | threw aError t' =>
      rw [hr] at ht
      obtain rfl := Option.some.inj ht
      rfl
    | undefined =>
      rw [hr] at ht
      cases ht
  refine ⟨t.2.stored, ?_, fun hsucc => ?_⟩
  · rw [run] at hrun ⊢
    rw [show [Event.start false, .data zeros, .fail, .fail] =
      [.start false, .data zeros, .fail] ++ [.fail] from rfl, List.foldl_append, hrun, List.foldl_cons,
      List.foldl_nil, step, putDownload]
    dsimp only
    rw [hclose]
    dsimp only
    rw [zerosSetup_added]
  · obtain ⟨hb, hs⟩ := hstay hsucc
    rw [hsucc, hb, bufferedFlush_fails zeros_ne_nil] at ht
    obtain rfl := Option.some.inj ht
    exact hs

/-- As long as writes to the file succeed, every step of this run meets the condition. -/
theorem zerosSetup_meets (i : Nat) (hi : i < [Event.start false, .data zeros, .fail, .fail].length) :
    Meets (zerosSetup fun _ => true)
      (run (zerosSetup fun _ => true) ([.start false, .data zeros, .fail, .fail].take i)) := by
  have hstart : run (zerosSetup fun _ => true) [.start false] =
      .running ⟨0, 0, some (Output.open (zerosSetup fun _ => true) false)⟩ := by
    rw [run, List.foldl_cons, List.foldl_nil, step, startData]
    dsimp only
    exact if_neg (by decide : ¬0 = 2048)
  obtain ⟨m, -, -, hdata⟩ := zerosSetup_data fun _ => true
  obtain ⟨o, hfail, hplain, -⟩ := zerosSetup_fail fun _ => true
  have hlast : Meets (zerosSetup fun _ => true)
      (.closing ⟨1024, 1024, some o⟩ false) := by
    intro o' ho'
    obtain rfl := Option.some.inj ho'
    exact ⟨Or.inr rfl, fun h => absurd hplain h⟩
  match i, hi with
  | 0, _ => exact meets_running
  | 1, _ =>
    rw [List.take_succ_cons, List.take_zero, hstart]
    exact meets_running
  | 2, _ =>
    rw [List.take_succ_cons, List.take_succ_cons, List.take_zero, hdata]
    exact meets_running
  | 3, _ =>
    rw [List.take_succ_cons, List.take_succ_cons, List.take_succ_cons, List.take_zero, hfail]
    exact hlast

theorem run_verified_zeros : ∃ stored,
    run (zerosSetup fun _ => true) [.start false, .data zeros, .fail, .fail] =
        .ended (some ⟨0, 1024⟩) stored ∧
      Verified (zerosSetup fun _ => true) (some ⟨0, 1024⟩) stored := by
  obtain ⟨stored, h, -⟩ := zerosSetup_ended fun _ => true
  exact ⟨stored, h, run_verified (zerosSetup fun _ => true) termHasher_injective
    [.start false, .data zeros, .fail, .fail] zerosSetup_meets _ _ h⟩

/-- When nothing can be written, the block is counted all the same. -/
theorem not_run_verified : ¬∀ added stored,
    run (zerosSetup fun _ => false) [.start false, .data zeros, .fail, .fail] =
        .ended added stored → Verified (zerosSetup fun _ => false) added stored := by
  intro hall
  obtain ⟨stored, h, hnone⟩ := zerosSetup_ended fun _ => false
  obtain ⟨len, hseg, hlen, -⟩ := hall _ _ h _ rfl
  obtain ⟨-, hsize⟩ := Segment.mk.inj hseg
  rw [hnone rfl, List.length_nil] at hlen
  omega

end Dcpp.DownloadRun
