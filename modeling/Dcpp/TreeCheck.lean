import Dcpp.MerkleCheckOutputStream

namespace Dcpp.TreeCheck

open Chunks HashTree MerkleTree TigerTree TreeLeaves MerkleCheck

variable {V : Type} {H : TreeHasher V}

/-- Block `i` of the file lies in the bytes `w` written from `start` on; the last block
ends with the file. -/
def Written (T : TrustedTree H) (start : Nat) (w : List UInt8) (i : Nat) : Prop :=
  i < calcBlocks T.fileSize T.blockSize ∧ start ≤ i * T.blockSize ∧
    min ((i + 1) * T.blockSize) T.fileSize ≤ start + w.length

/-- What was written of block `i` hashes to leaf `i` of the trusted tree. -/
def Matches (T : TrustedTree H) (start : Nat) (w : List UInt8) (i : Nat) : Prop :=
  T.leaves[i]? = some (tigerRoot H (block T.blockSize w (i - start / T.blockSize)))

def Bad (T : TrustedTree H) (start : Nat) (w : List UInt8) (i : Nat) : Prop :=
  Written T start w i ∧ ¬Matches T start w i

/-- The root tells leaf `i` apart, or its block is complete. -/
def Seen (T : TrustedTree H) (i : Nat) : Prop := i < 2 ^ 32 ∨ (i + 1) * T.blockSize ≤ T.fileSize

/-- Nothing was written at the start of a file that is not empty. -/
def Vacant (T : TrustedTree H) (start : Nat) (w : List UInt8) : Prop :=
  start = 0 ∧ w = [] ∧ 0 < T.fileSize

/-- The tree after the flush has another leaf `i` than the trusted tree. -/
def Mismatch (T : TrustedTree H) (n : Nat) (w : List UInt8) (i : Nat) : Prop :=
  n ≤ i ∧ i < calcBlocks (n * T.blockSize + w.length) T.blockSize ∧ ¬Matches T (n * T.blockSize) w i

section Leaves

variable {T : TrustedTree H} {n : Nat} {w : List UInt8}

theorem le_leaves_length (hfile : n * T.blockSize + w.length ≤ T.fileSize) : n ≤ T.leaves.length := by
  have hB := T.blockSize_pos
  rw [T.leaves_length, calcBlocks]
  have : n ≤ (T.fileSize + T.blockSize - 1) / T.blockSize := (Nat.le_div_iff_mul_le hB).mpr (by omega)
  omega

theorem serves_of_le (hfile : n * T.blockSize + w.length ≤ T.fileSize) :
    Serves T.blockSize w.length := T.serves.imp id fun h => by omega

theorem finalLeaves_length (hn : n ≤ T.leaves.length) :
    (finalLeaves H (T.leaves.take n) T.blockSize w).length =
      calcBlocks (n * T.blockSize + w.length) T.blockSize := by
  have hB := T.blockSize_pos
  have htake : (T.leaves.take n).length = n := List.length_take_of_le hn
  have hnil : T.leaves.take n = [] ↔ n = 0 := by rw [← List.length_eq_zero_iff, htake]
  rw [finalLeaves, List.length_append, htake, List.length_map]
  by_cases hempty : T.leaves.take n = [] ∧ w = []
  · obtain ⟨h, rfl⟩ := hempty
    rw [hnil] at h
    subst h
    have h1 : calcBlocks 0 T.blockSize = 1 := calcBlocks_of_le hB (Nat.zero_le _)
    rw [if_pos ⟨hnil.mpr rfl, rfl⟩, Nat.zero_mul]
    exact h1.symm
  · have hpos : 0 < n * T.blockSize + w.length := by
      by_contra hc
      obtain h0 | h0 := Nat.mul_eq_zero.mp (show n * T.blockSize = 0 by omega)
      · exact hempty ⟨hnil.mpr h0, List.length_eq_zero_iff.mp (by omega)⟩
      · omega
    rw [if_neg hempty, chunks_length hB, calcBlocks_of_pos hB hpos,
      show n * T.blockSize + w.length + T.blockSize - 1 =
        T.blockSize * n + (w.length + T.blockSize - 1) by rw [Nat.mul_comm]; omega,
      Nat.mul_add_div hB]

theorem finalLeaves_before (hn : n ≤ T.leaves.length) {i : Nat} (hi : i < n) :
    (finalLeaves H (T.leaves.take n) T.blockSize w)[i]? = T.leaves[i]? := by
  rw [finalLeaves, List.getElem?_append_left (by rw [List.length_take_of_le hn]; exact hi),
    List.getElem?_take_of_lt hi]

theorem finalLeaves_after (hn : n ≤ T.leaves.length) {i : Nat} (hni : n ≤ i)
    (hi : i < (finalLeaves H (T.leaves.take n) T.blockSize w).length) :
    (finalLeaves H (T.leaves.take n) T.blockSize w)[i]? =
      some (tigerRoot H (block T.blockSize w (i - n))) := by
  have hlen : (T.leaves.take n).length = n := List.length_take_of_le hn
  rw [finalLeaves] at hi ⊢
  rw [List.length_append, List.length_map, hlen] at hi
  rw [List.getElem?_append_right (by rw [hlen]; exact hni), hlen, List.getElem?_map]
  by_cases hempty : T.leaves.take n = [] ∧ w = []
  · rw [if_pos hempty] at hi ⊢
    have h0 : i - n = 0 := by
      simp at hi
      omega
    rw [h0, hempty.2]
    simp [block]
  · rw [if_neg hempty] at hi ⊢
    rw [chunks_getElem? T.blockSize_pos _ _ (by omega)]
    rfl

theorem written_iff (hfile : n * T.blockSize + w.length ≤ T.fileSize)
    (hend : T.blockSize ∣ n * T.blockSize + w.length ∨ n * T.blockSize + w.length = T.fileSize)
    (hv : ¬Vacant T (n * T.blockSize) w) (i : Nat) :
    Written T (n * T.blockSize) w i ↔
      n ≤ i ∧ i < calcBlocks (n * T.blockSize + w.length) T.blockSize := by
  have hB := T.blockSize_pos
  have hni : n * T.blockSize ≤ i * T.blockSize ↔ n ≤ i := Nat.mul_le_mul_right_iff hB
  rw [Written, hni]
  obtain heq | hlt := eq_or_lt_of_le hfile
  · rw [heq]
    have : min ((i + 1) * T.blockSize) T.fileSize ≤ T.fileSize := min_le_right _ _
    tauto
  · obtain ⟨q, hq⟩ := hend.resolve_right hlt.ne
    rw [hq] at hlt ⊢
    have hq0 : 0 < q := by
      by_contra hc
      obtain rfl : q = 0 := by omega
      exact hv ⟨by omega, List.length_eq_zero_iff.mp (by omega), by omega⟩
    have hqN : q < calcBlocks T.fileSize T.blockSize := by
      rw [calcBlocks_of_pos hB (by omega)]
      have := (Nat.le_div_iff_mul_le hB).mpr (show (q + 1) * T.blockSize ≤
        T.fileSize + T.blockSize - 1 by rw [Nat.succ_mul, Nat.mul_comm]; omega)
      omega
    have hmin : min ((i + 1) * T.blockSize) T.fileSize ≤ T.blockSize * q ↔ i < q := by
      rw [min_le_iff, Nat.mul_comm T.blockSize, Nat.mul_le_mul_right_iff hB]
      rw [Nat.mul_comm] at hlt
      omega
    rw [calcBlocks_mul hB hq0, hmin]
    omega

theorem matches_iff (hn : n ≤ T.leaves.length) {i : Nat} (hni : n ≤ i)
    (hi : i < (finalLeaves H (T.leaves.take n) T.blockSize w).length) :
    Matches T (n * T.blockSize) w i ↔
      T.leaves[i]? = (finalLeaves H (T.leaves.take n) T.blockSize w)[i]? := by
  rw [finalLeaves_after hn hni hi, Matches, Nat.mul_div_cancel _ T.blockSize_pos]

theorem prefix_leaves_iff (hn : n ≤ T.leaves.length) {leaves : List V}
    (hl : leaves <+: finalLeaves H (T.leaves.take n) T.blockSize w) :
    leaves <+: T.leaves ↔ ∀ i, n ≤ i → i < leaves.length → Matches T (n * T.blockSize) w i := by
  have hget : ∀ (i : Nat) (hi : i < leaves.length),
      (finalLeaves H (T.leaves.take n) T.blockSize w)[i]? = some leaves[i] :=
    List.prefix_iff_getElem?.mp hl
  rw [List.prefix_iff_getElem?]
  constructor
  · intro h i hni hi
    rw [matches_iff hn hni (hi.trans_le hl.length_le), h i hi, hget i hi]
  · intro h i hi
    obtain hin | hni := lt_or_ge i n
    · rw [← finalLeaves_before (w := w) hn hin, hget i hi]
    · rw [(matches_iff hn hni (hi.trans_le hl.length_le)).mp (h i hni hi), hget i hi]

variable [Inhabited V]

theorem shown_complete (hs : Serves T.blockSize w.length) (hn : n ≤ T.leaves.length) {i : Nat}
    (hi : i < (shown T n w).length) :
    (i + 1) * T.blockSize ≤ n * T.blockSize + w.length := by
  obtain ⟨c, hc, -, -, hlen⟩ := shown_eq T n hs
  rw [hlen, List.length_take_of_le hn] at hi
  have h1 := Nat.mul_le_mul_right T.blockSize (show i + 1 ≤ n + c by omega)
  rw [Nat.add_mul n c] at h1
  omega

theorem complete_shown (hs : Serves T.blockSize w.length) (hn : n ≤ T.leaves.length)
    (hk : ∃ k, T.blockSize = baseBlockSize * 2 ^ k) {i : Nat} (hni : n ≤ i)
    (hi : (i + 1) * T.blockSize ≤ n * T.blockSize + w.length) : i < (shown T n w).length := by
  obtain ⟨c, -, hc, -, hlen⟩ := shown_eq T n hs
  rw [hlen, List.length_take_of_le hn]
  have h1 := hc hk (i + 1 - n) (by rw [Nat.sub_mul]; omega)
  omega

/-- The flush compares leaf by leaf, up to what the root tells apart. -/
theorem flushPasses_iff (hinj : ∀ a b c d, H.combine a b = H.combine c d → a = c ∧ b = d)
    (hfile : n * T.blockSize + w.length ≤ T.fileSize) :
    FlushPasses T n w ↔
      if calcBlocks (n * T.blockSize + w.length) T.blockSize = T.leaves.length then
        ∀ i, n ≤ i → i < calcBlocks (n * T.blockSize + w.length) T.blockSize → i < 2 ^ 32 →
          Matches T (n * T.blockSize) w i
      else ∀ i, n ≤ i → i < calcBlocks (n * T.blockSize + w.length) T.blockSize →
        Matches T (n * T.blockSize) w i := by
  have hn := le_leaves_length hfile
  have hlen := finalLeaves_length (w := w) hn
  rw [FlushPasses, hlen, T.root_eq]
  by_cases hall : calcBlocks (n * T.blockSize + w.length) T.blockSize = T.leaves.length
  · rw [if_pos hall, if_pos hall]
    have hroot : rootOf H.combine (wrapped (finalLeaves H (T.leaves.take n) T.blockSize w)) =
        rootOf H.combine (wrapped T.leaves) ↔
          wrapped (finalLeaves H (T.leaves.take n) T.blockSize w) = wrapped T.leaves := by
      refine ⟨fun h => rootOf_injective H.combine hinj ?_ h, fun h => by rw [h]⟩
      rw [wrapped_length, wrapped_length, hlen, hall]
    rw [hroot, wrapped_eq_iff (hlen.trans hall), hlen]
    constructor
    · intro h i hni hi h32
      rw [matches_iff hn hni (by rw [hlen]; exact hi), h i hi h32]
    · intro h i hi h32
      obtain hin | hni := lt_or_ge i n
      · exact finalLeaves_before hn hin
      · exact ((matches_iff hn hni (by rw [hlen]; exact hi)).mp (h i hni hi h32)).symm
  · rw [if_neg hall, if_neg hall, prefix_leaves_iff hn (List.prefix_refl _), hlen]

/-- Something is rejected if and only if a mismatch can be seen. -/
theorem rejected_iff (hinj : ∀ a b c d, H.combine a b = H.combine c d → a = c ∧ b = d)
    (hfile : n * T.blockSize + w.length ≤ T.fileSize)
    (hend : T.blockSize ∣ n * T.blockSize + w.length ∨ n * T.blockSize + w.length = T.fileSize) :
    ¬shown T n w <+: T.leaves ∨ ¬FlushPasses T n w ↔ ∃ i, Mismatch T n w i ∧ Seen T i := by
  have hB := T.blockSize_pos
  have hn := le_leaves_length hfile
  have hs := serves_of_le hfile
  have hlen := finalLeaves_length (w := w) hn
  have hN := calcBlocks_mono (B := T.blockSize) hfile
  have hshown := shown_le_final T n hs
  have hflush := flushPasses_iff hinj hfile
  have hshown' := prefix_leaves_iff hn hshown
  rw [← T.leaves_length] at hN
  constructor
  · rintro (hbad | hbad)
    · rw [hshown'] at hbad
      push Not at hbad
      obtain ⟨i, hni, hi, hm⟩ := hbad
      refine ⟨i, ⟨hni, ?_, hm⟩, Or.inr ((shown_complete hs hn hi).trans hfile)⟩
      rw [← hlen]
      exact hi.trans_le hshown.length_le
    · rw [hflush] at hbad
      by_cases hall : calcBlocks (n * T.blockSize + w.length) T.blockSize = T.leaves.length
      · rw [if_pos hall] at hbad
        push Not at hbad
        obtain ⟨i, hni, hi, h32, hm⟩ := hbad
        exact ⟨i, ⟨hni, hi, hm⟩, Or.inl h32⟩
      · rw [if_neg hall] at hbad
        push Not at hbad
        obtain ⟨i, hni, hi, hm⟩ := hbad
        have hi' : i + 1 < calcBlocks T.fileSize T.blockSize := by
          rw [← T.leaves_length]
          omega
        have hfs : 0 < T.fileSize := by
          by_contra hc
          rw [calcBlocks_of_le hB (by omega)] at hi'
          omega
        exact ⟨i, ⟨hni, hi, hm⟩, Or.inr (mul_lt_of_lt_calcBlocks hB hfs hi').le⟩
  · rintro ⟨i, ⟨hni, hi, hm⟩, hseen⟩
    by_contra hc
    rw [not_or, not_not, not_not, hshown', hflush] at hc
    obtain ⟨hpass, hpass'⟩ := hc
    by_cases hall : calcBlocks (n * T.blockSize + w.length) T.blockSize = T.leaves.length
    · rw [if_pos hall] at hpass'
      have h32 : ¬i < 2 ^ 32 := fun h => hm (hpass' i hni hi h)
      have hfit := hseen.resolve_left h32
      have hk := T.serves.resolve_right fun hle => h32 (by
        have h1 := calcBlocks_of_le hB hle
        rw [← T.leaves_length] at h1
        omega)
      refine hm (hpass i hni (complete_shown hs hn hk hni ?_))
      obtain ⟨q, hq⟩ | heq := hend
      · rw [hq] at hi ⊢
        obtain rfl | hq0 := Nat.eq_zero_or_pos q
        · rw [Nat.mul_zero, calcBlocks_of_le hB (Nat.zero_le _)] at hi
          omega
        · rw [calcBlocks_mul hB hq0] at hi
          rw [Nat.mul_comm T.blockSize]
          exact Nat.mul_le_mul_right _ hi
      · rw [heq]
        exact hfit
    · rw [if_neg hall] at hpass'
      exact hm (hpass' i hni hi)

end Leaves

variable {S : Type} [Inhabited V] [DecidableEq V]

/-- The state of the checker shows these leaves of `cur`. -/
def Shows (T : TrustedTree H) (leaves : List V) (m : MerkleCheck V) : Prop :=
  m.real = T.toMerkleTree ∧ m.cur.blockSize = T.blockSize ∧ m.cur.leaves = leaves

/-- The calls of a client: writes that pass, and then a write that does not or the flush. -/
theorem run_cases {T : TrustedTree H} {n : Nat} (hn : n ≤ T.leaves.length) {s : OutputStream S}
    (hs : s.Returns) (calls : List (List UInt8)) {done : List UInt8} {m : MerkleCheck V} {st : S}
    (h : Tracks T n done m) (hm : Sound m) (hdone : shown T n done <+: T.leaves)
    (hserves : Serves T.blockSize (done ++ calls.flatten).length) :
    ∃ front w last,
      (merkleCheckOutputStream H s).run (m, st) done calls = front ++ [(w, last)] ∧
      (∀ e ∈ front, ∃ m st, e.2 = .returned (m, st) ∧ Shows T (shown T n e.1) m ∧
        shown T n e.1 <+: T.leaves ∧ e.1 <+: done ++ calls.flatten) ∧
      ((w <+: done ++ calls.flatten ∧ ¬shown T n w <+: T.leaves ∧
          ∃ m st, last = .threw "TTH inconsistency" (m, st) ∧ Shows T (shown T n w) m) ∨
        (w = done ++ calls.flatten ∧ shown T n w <+: T.leaves ∧
          ∃ m st, Shows T (finalLeaves H (T.leaves.take n) T.blockSize w) m ∧
            (FlushPasses T n w → last = .returned (m, st)) ∧
            (¬FlushPasses T n w → last = .threw "TTH inconsistency" (m, st)))) := by
  induction calls generalizing done m st with
  | nil =>
    simp only [List.flatten_nil, List.append_nil] at hserves ⊢
    obtain ⟨m', hreal, hB, hleaves, hpass, hfail⟩ := flushTree_spec hn hserves h hm
    obtain ⟨st', hst⟩ := hs.2 st
    refine ⟨[], done, _, rfl, by simp, Or.inr ⟨rfl, hdone, ?_⟩⟩
    by_cases hp : FlushPasses T n done
    · refine ⟨m', st', ⟨hreal, hB, hleaves⟩, fun _ => ?_, fun hnp => absurd hp hnp⟩
      simp only [merkleCheckOutputStream, hpass hp, Outcome.map_returned, Outcome.andThen_returned, hst]
    · refine ⟨m', st, ⟨hreal, hB, hleaves⟩, fun hp' => absurd hp' hp, fun _ => ?_⟩
      simp only [merkleCheckOutputStream, hfail hp, Outcome.map_threw, Outcome.andThen_threw]
  | cons b calls ih =>
    simp only [List.flatten_cons, ← List.append_assoc] at hserves ⊢
    obtain ⟨m', htracks, hleaves, hcheck⟩ := checkTrees_commitBytes h hm b
    have hB : m'.cur.blockSize = T.blockSize := by
      rw [htracks.cur_eq, addData_blockSize]
      rfl
    obtain ⟨st', hst⟩ := hs.1 st b
    rw [OutputStream.run]
    by_cases hp : shown T n (done ++ b) <+: T.leaves
    · rw [if_pos hp] at hcheck
      have hwrite : (merkleCheckOutputStream H s).write (m, st) b = .returned (m', st') := by
        simp only [merkleCheckOutputStream, hcheck.1, Outcome.map_returned,
          Outcome.andThen_returned, hst]
      obtain ⟨front, w, last, hrun, hfront, hlast⟩ := @ih (done ++ b) m' st' htracks hcheck.2 hp hserves
      rw [hwrite]
      refine ⟨(done ++ b, .returned (m', st')) :: front, w, last, ?_, ?_, hlast⟩
      · simp only [hrun, List.cons_append]
      · rintro e he
        obtain rfl | he := List.mem_cons.mp he
        · exact ⟨m', st', rfl, ⟨htracks.real, hB, hleaves⟩, hp, List.prefix_append _ _⟩
        · exact hfront e he
    · rw [if_neg hp] at hcheck
      have hwrite : (merkleCheckOutputStream H s).write (m, st) b =
          .threw "TTH inconsistency" (m', st) := by
        simp only [merkleCheckOutputStream, hcheck, Outcome.map_threw, Outcome.andThen_threw]
      rw [hwrite]
      exact ⟨[], done ++ b, _, rfl, by simp, Or.inl ⟨List.prefix_append _ _, hp, m', st, rfl,
        htracks.real, hB, hleaves⟩⟩

/-- Some call of the run raises an error. -/
def Rejects (run : List (List UInt8 × Outcome (MerkleCheck V × S))) : Prop :=
  ∃ e ∈ run, ∃ aError st, e.2 = .threw aError st

/-- No byte that `verifiedBytes` counts belongs to a block whose hash differs. -/
def Vouches (T : TrustedTree H) (start : Nat) (w : List UInt8) (m : MerkleCheck V) : Prop :=
  ∀ p, start ≤ p → p < m.verifiedBytes → Matches T start w (p / T.blockSize)

/-- `Vouches` at the beginning and after each call, also after one that raised an error. -/
def AlwaysVouches (T : TrustedTree H) (start : Nat) (st : S)
    (run : List (List UInt8 × Outcome (MerkleCheck V × S))) : Prop :=
  ∀ e ∈ ([], .returned (new T.toMerkleTree start, st)) :: run,
    ∀ m st', e.2.state? = some (m, st') → Vouches T start e.1 m

/-- `run_cases` from a new checker. -/
theorem new_run_cases {T : TrustedTree H} {n : Nat} {s : OutputStream S} (hs : s.Returns) (st : S)
    (calls : List (List UInt8)) (hfile : n * T.blockSize + calls.flatten.length ≤ T.fileSize) :
    ∃ front w last,
      (merkleCheckOutputStream H s).run (new T.toMerkleTree (n * T.blockSize), st) [] calls =
        front ++ [(w, last)] ∧
      (∀ e ∈ front, ∃ m st, e.2 = .returned (m, st) ∧ Shows T (shown T n e.1) m ∧
        shown T n e.1 <+: T.leaves ∧ e.1 <+: calls.flatten) ∧
      ((w <+: calls.flatten ∧ ¬shown T n w <+: T.leaves ∧
          ∃ m st, last = .threw "TTH inconsistency" (m, st) ∧ Shows T (shown T n w) m) ∨
        (w = calls.flatten ∧ shown T n w <+: T.leaves ∧
          ∃ m st, Shows T (finalLeaves H (T.leaves.take n) T.blockSize w) m ∧
            (FlushPasses T n w → last = .returned (m, st)) ∧
            (¬FlushPasses T n w → last = .threw "TTH inconsistency" (m, st)))) := by
  have hn := le_leaves_length hfile
  obtain ⟨htracks, hver⟩ := new_tracks T hn
  have hsound : Sound (new T.toMerkleTree (n * T.blockSize)) := by
    rw [Sound, hver, List.take_zero]
    exact ⟨Nat.zero_le _, List.nil_prefix⟩
  refine run_cases hn hs calls htracks hsound ?_ (serves_of_le hfile)
  rw [shown_nil]
  exact List.take_prefix _ _

theorem rejects_iff {T : TrustedTree H} {n : Nat} {s : OutputStream S} (hs : s.Returns) (st : S)
    (calls : List (List UInt8)) (hfile : n * T.blockSize + calls.flatten.length ≤ T.fileSize) :
    Rejects ((merkleCheckOutputStream H s).run (new T.toMerkleTree (n * T.blockSize), st) [] calls) ↔
      ¬shown T n calls.flatten <+: T.leaves ∨ ¬FlushPasses T n calls.flatten := by
  obtain ⟨front, w, last, hrun, hfront, hlast⟩ := new_run_cases hs st calls hfile
  have hiff : Rejects (front ++ [(w, last)]) ↔ ∃ aError st, last = .threw aError st := by
    rw [Rejects]
    constructor
    · rintro ⟨e, he, aError, st, h⟩
      obtain he | he := List.mem_append.mp he
      · obtain ⟨m, st', hret, -⟩ := hfront e he
        rw [hret] at h
        cases h
      · obtain rfl : e = (w, last) := by simpa using he
        exact ⟨aError, st, h⟩
    · rintro ⟨aError, st, h⟩
      exact ⟨(w, last), by simp, aError, st, h⟩
  rw [hrun, hiff]
  obtain ⟨hw, hbad, m, st, rfl, -⟩ | ⟨rfl, hgood, m, st, -, hpass, hfail⟩ := hlast
  · have hbad' : ¬shown T n calls.flatten <+: T.leaves :=
      fun h => hbad ((shown_mono T n hw).trans h)
    simp [hbad']
  · by_cases hp : FlushPasses T n calls.flatten
    · simp [hpass hp, hgood, hp]
    · simp [hfail hp, hp]

omit [Inhabited V] [DecidableEq V] in
theorem shows_vouches_iff {T : TrustedTree H} {n : Nat} {w : List UInt8}
    (hfile : n * T.blockSize + w.length ≤ T.fileSize) {leaves : List V} {m : MerkleCheck V}
    (hm : Shows T leaves m) (hl : leaves <+: finalLeaves H (T.leaves.take n) T.blockSize w) :
    Vouches T (n * T.blockSize) w m ↔ T.fileSize = 0 ∨ leaves <+: T.leaves := by
  have hB := T.blockSize_pos
  have hn := le_leaves_length hfile
  have hN := calcBlocks_mono (B := T.blockSize) hfile
  have hlen := hl.length_le
  rw [finalLeaves_length hn] at hlen
  obtain ⟨hreal, hmB, hmleaves⟩ := hm
  rw [Vouches, verifiedBytes, hreal, hmB, hmleaves, prefix_leaves_iff hn hl]
  constructor
  · intro h
    obtain hfs | hfs := Nat.eq_zero_or_pos T.fileSize
    · exact Or.inl hfs
    · refine Or.inr fun i hni hi => ?_
      have hi' := mul_lt_of_lt_calcBlocks hB hfs (show i < calcBlocks T.fileSize T.blockSize by omega)
      have hlt : i * T.blockSize < T.blockSize * leaves.length := by
        rw [Nat.mul_comm]
        exact Nat.mul_lt_mul_of_pos_left hi hB
      have := h (i * T.blockSize) (Nat.mul_le_mul_right _ hni) (lt_min hi' hlt)
      rwa [Nat.mul_div_cancel _ hB] at this
  · rintro (hfs | h) p hp hlt
    · rw [hfs, Nat.zero_min] at hlt
      omega
    · refine h (p / T.blockSize) ((Nat.le_div_iff_mul_le hB).mpr hp) ?_
      rw [Nat.div_lt_iff_lt_mul hB, Nat.mul_comm]
      exact hlt.trans_le (min_le_right _ _)

theorem alwaysVouches_iff {T : TrustedTree H} {n : Nat} {s : OutputStream S} (hs : s.Returns) (st : S)
    (calls : List (List UInt8)) (hfile : n * T.blockSize + calls.flatten.length ≤ T.fileSize) :
    AlwaysVouches T (n * T.blockSize) st
      ((merkleCheckOutputStream H s).run (new T.toMerkleTree (n * T.blockSize), st) [] calls) ↔
      T.fileSize = 0 ∨ finalLeaves H (T.leaves.take n) T.blockSize calls.flatten <+: T.leaves := by
  have hn := le_leaves_length hfile
  have hfile' : ∀ {w : List UInt8}, w <+: calls.flatten → n * T.blockSize + w.length ≤ T.fileSize := by
    intro w hw
    have := hw.length_le
    omega
  have hgood : ∀ {w : List UInt8} {m : MerkleCheck V}, w <+: calls.flatten →
      Shows T (shown T n w) m → (Vouches T (n * T.blockSize) w m ↔
        T.fileSize = 0 ∨ shown T n w <+: T.leaves) := fun hw hm =>
    shows_vouches_iff (hfile' hw) hm (shown_le_final T n (serves_of_le (hfile' hw)))
  have hnew : Shows T (shown T n []) (new T.toMerkleTree (n * T.blockSize)) := by
    have htracks := (new_tracks T hn).1
    refine ⟨htracks.real, ?_, ?_⟩
    · rw [htracks.cur_eq, addData_blockSize]
      rfl
    · rw [htracks.cur_eq]
      rfl
  have hnil : shown T n [] <+: T.leaves := by
    rw [shown_nil]
    exact List.take_prefix _ _
  obtain ⟨front, w, last, hrun, hfront, hlast⟩ := new_run_cases hs st calls hfile
  have hiff : AlwaysVouches T (n * T.blockSize) st (front ++ [(w, last)]) ↔
      ∀ m st', last.state? = some (m, st') → Vouches T (n * T.blockSize) w m := by
    constructor
    · intro h
      exact h (w, last) (by simp)
    · intro h e he m st' hst
      obtain rfl | he := List.mem_cons.mp he
      · obtain ⟨rfl, rfl⟩ : new T.toMerkleTree (n * T.blockSize) = m ∧ st = st' := by
          simpa [Outcome.state?] using hst
        exact (hgood List.nil_prefix hnew).mpr (Or.inr hnil)
      · obtain he | he := List.mem_append.mp he
        · obtain ⟨m', st'', hret, hm, hp, hw⟩ := hfront e he
          obtain ⟨rfl, rfl⟩ : m' = m ∧ st'' = st' := by simpa [hret, Outcome.state?] using hst
          exact (hgood hw hm).mpr (Or.inr hp)
        · obtain rfl : e = (w, last) := by simpa using he
          exact h m st' hst
  rw [hrun, hiff]
  have hs' := serves_of_le hfile
  obtain ⟨hw, hbad, m, st, rfl, hm⟩ | ⟨rfl, -, m, st, hm, hpass, hfail⟩ := hlast
  · have hfinal : ¬finalLeaves H (T.leaves.take n) T.blockSize calls.flatten <+: T.leaves :=
      fun h => hbad (((shown_mono T n hw).trans (shown_le_final T n hs')).trans h)
    simp [Outcome.state?, hgood hw hm, hbad, hfinal]
  · have hstate : last.state? = some (m, st) := by
      by_cases hp : FlushPasses T n calls.flatten
      · rw [hpass hp]
        rfl
      · rw [hfail hp]
        rfl
    simp [hstate, shows_vouches_iff hfile hm (List.prefix_refl _)]

theorem not_undefined {T : TrustedTree H} {n : Nat} {s : OutputStream S} (hs : s.Returns) (st : S)
    (calls : List (List UInt8)) (hfile : n * T.blockSize + calls.flatten.length ≤ T.fileSize) :
    ∀ e ∈ (merkleCheckOutputStream H s).run (new T.toMerkleTree (n * T.blockSize), st) [] calls,
      e.2 ≠ .undefined := by
  obtain ⟨front, w, last, hrun, hfront, hlast⟩ := new_run_cases hs st calls hfile
  rw [hrun]
  intro e he hu
  obtain he | he := List.mem_append.mp he
  · obtain ⟨m, st', hret, -⟩ := hfront e he
    rw [hret] at hu
    cases hu
  · obtain rfl : e = (w, last) := by simpa using he
    obtain ⟨-, -, m, st, rfl, -⟩ | ⟨-, -, m, st, -, hpass, hfail⟩ := hlast
    · cases hu
    · by_cases hp : FlushPasses T n w
      · rw [hpass hp] at hu
        cases hu
      · rw [hfail hp] at hu
        cases hu

omit [Inhabited V] [DecidableEq V] in
/-- A mismatch is a bad block, or what the flush makes of no data at all. -/
theorem mismatch_iff {T : TrustedTree H} {n : Nat} {w : List UInt8}
    (hfile : n * T.blockSize + w.length ≤ T.fileSize)
    (hend : T.blockSize ∣ n * T.blockSize + w.length ∨ n * T.blockSize + w.length = T.fileSize)
    (i : Nat) : Mismatch T n w i ↔ Bad T (n * T.blockSize) w i ∨
      i = 0 ∧ Vacant T (n * T.blockSize) w ∧ ¬Matches T (n * T.blockSize) w 0 := by
  have hB := T.blockSize_pos
  rw [Mismatch, Bad]
  by_cases hv : Vacant T (n * T.blockSize) w
  · have hw : ¬Written T (n * T.blockSize) w i := by
      rintro ⟨-, -, hmin⟩
      obtain ⟨h0, rfl, hfs⟩ := hv
      rw [h0, min_le_iff, Nat.succ_mul] at hmin
      simp only [List.length_nil] at hmin
      omega
    obtain ⟨h0, hnil, -⟩ := id hv
    have hn0 : n = 0 := (Nat.mul_eq_zero.mp h0).resolve_right hB.ne'
    have h1 : calcBlocks (n * T.blockSize + w.length) T.blockSize = 1 := by
      rw [h0, hnil]
      exact calcBlocks_of_le hB (Nat.zero_le _)
    rw [h1]
    constructor
    · rintro ⟨-, hi, hm⟩
      obtain rfl : i = 0 := by omega
      exact Or.inr ⟨rfl, hv, hm⟩
    · rintro (⟨hw', -⟩ | ⟨rfl, -, hm⟩)
      · exact absurd hw' hw
      · exact ⟨by omega, Nat.one_pos, hm⟩
  · rw [written_iff hfile hend hv]
    tauto

/-- An error is raised exactly for the bad blocks if and only if the run is not a flush
of nothing at the start of the file whose first leaf is not that of an empty block, and
no bad block hides behind the 32 bits of a leaf index. What `verifiedBytes` counts is
right at any moment if and only if there is no bad block and no such flush. -/
theorem check_iff (T : TrustedTree H)
    (hinj : ∀ a b c d, H.combine a b = H.combine c d → a = c ∧ b = d) (s : OutputStream S)
    (hs : s.Returns) (st : S) (start : Nat) (calls : List (List UInt8))
    (hstart : T.blockSize ∣ start) (hfile : start + calls.flatten.length ≤ T.fileSize)
    (hend : T.blockSize ∣ start + calls.flatten.length ∨
      start + calls.flatten.length = T.fileSize) :
    let w := calls.flatten
    let run := (merkleCheckOutputStream H s).run (new T.toMerkleTree start, st) [] calls
    ((Rejects run ↔ ∃ i, Bad T start w i) ↔
      ¬(Vacant T start w ∧ ¬Matches T start w 0) ∧
        ((∃ i, Bad T start w i) → ∃ i, Bad T start w i ∧ Seen T i)) ∧
    (AlwaysVouches T start st run ↔
      T.fileSize = 0 ∨ ¬(Vacant T start w ∧ ¬Matches T start w 0) ∧ ∀ i, ¬Bad T start w i) ∧
    ∀ e ∈ run, e.2 ≠ .undefined := by
  obtain ⟨n, rfl⟩ := hstart
  rw [Nat.mul_comm] at hfile hend ⊢
  have hn := le_leaves_length hfile
  have hdef := not_undefined hs st calls hfile
  dsimp only
  rw [rejects_iff hs st calls hfile, rejected_iff hinj hfile hend, alwaysVouches_iff hs st calls hfile,
    prefix_leaves_iff hn (List.prefix_refl _), finalLeaves_length hn]
  generalize calls.flatten = w at hfile hend ⊢
  have hmismatch : (∀ i, n ≤ i → i < calcBlocks (n * T.blockSize + w.length) T.blockSize →
      Matches T (n * T.blockSize) w i) ↔ ∀ i, ¬Mismatch T n w i := by
    refine forall_congr' fun i => ?_
    rw [Mismatch]
    tauto
  rw [hmismatch]
  simp only [mismatch_iff hfile hend]
  have hnone : Vacant T (n * T.blockSize) w → ∀ i, ¬Bad T (n * T.blockSize) w i := by
    rintro ⟨h0, rfl, hfs⟩ i ⟨⟨-, -, hmin⟩, -⟩
    rw [h0, min_le_iff, Nat.succ_mul] at hmin
    simp only [List.length_nil] at hmin
    have := T.blockSize_pos
    omega
  refine ⟨⟨fun h => ⟨?_, ?_⟩, ?_⟩, or_congr_right ⟨fun h => ⟨?_, ?_⟩, ?_⟩, hdef⟩
  · rintro ⟨hv, hm⟩
    obtain ⟨i, hi⟩ := h.mp ⟨0, Or.inr ⟨rfl, hv, hm⟩, Or.inl (Nat.two_pow_pos 32)⟩
    exact hnone hv i hi
  · intro hb
    obtain ⟨i, hi | ⟨rfl, hv, hm⟩, hseen⟩ := h.mpr hb
    · exact ⟨i, hi, hseen⟩
    · obtain ⟨j, hj⟩ := hb
      exact absurd hj (hnone hv j)
  · rintro ⟨hv, hseen⟩
    constructor
    · rintro ⟨i, hi | ⟨rfl, hv'⟩, -⟩
      · exact ⟨i, hi⟩
      · exact absurd hv' hv
    · intro hb
      obtain ⟨i, hi, hsi⟩ := hseen hb
      exact ⟨i, Or.inl hi, hsi⟩
  · intro hv
    exact h 0 (Or.inr ⟨rfl, hv⟩)
  · intro i hi
    exact h i (Or.inl hi)
  · rintro ⟨hv, hb⟩ i (hi | ⟨rfl, hv'⟩)
    · exact hb i hi
    · exact hv hv'

/-- The hash that never forgets: a value is the tree it was made of. -/
inductive HashTerm where
  | base (data : List UInt8)
  | node (a b : HashTerm)
deriving DecidableEq, Inhabited

def termHasher : TreeHasher HashTerm := ⟨.base, .node⟩

theorem termHasher_injective (a b c d : HashTerm) (h : termHasher.combine a b = termHasher.combine c d) :
    a = c ∧ b = d := by
  simpa [termHasher] using h

theorem check_iff_single :
    let T := TrustedTree.single termHasher 3 (by decide) (.base [1, 2, 3])
    let run := (merkleCheckOutputStream termHasher stringOutputStream).run
      (new T.toMerkleTree 0, []) [] [[1], [2, 3]]
    ((Rejects run ↔ ∃ i, Bad T 0 [1, 2, 3] i) ↔
      ¬(Vacant T 0 [1, 2, 3] ∧ ¬Matches T 0 [1, 2, 3] 0) ∧
        ((∃ i, Bad T 0 [1, 2, 3] i) → ∃ i, Bad T 0 [1, 2, 3] i ∧ Seen T i)) ∧
    (AlwaysVouches T 0 [] run ↔
      T.fileSize = 0 ∨ ¬(Vacant T 0 [1, 2, 3] ∧ ¬Matches T 0 [1, 2, 3] 0) ∧
        ∀ i, ¬Bad T 0 [1, 2, 3] i) ∧
    ∀ e ∈ run, e.2 ≠ .undefined :=
  check_iff (TrustedTree.single termHasher 3 (by decide) (.base [1, 2, 3])) termHasher_injective
    stringOutputStream stringOutputStream_returns [] 0 [[1], [2, 3]] (by simp) (by decide)
    (Or.inr rfl)

/-- A flush with no data at the start of a file of one byte raises an error. -/
theorem not_check_vacant :
    let T := TrustedTree.single termHasher 1 (by decide) (.base [7])
    let run := (merkleCheckOutputStream termHasher stringOutputStream).run
      (new T.toMerkleTree 0, []) [] []
    ¬(Rejects run ↔ ∃ i, Bad T 0 [] i) := by
  intro T run h
  have hrejects : Rejects run := by
    have hrun := rejects_iff (T := T) (n := 0) stringOutputStream_returns [] [] (by decide)
    refine hrun.mpr (Or.inr ?_)
    simp [FlushPasses, finalLeaves, T, TrustedTree.single, ofRoot, wrapped, tigerRoot_of_le,
      termHasher]
  obtain ⟨i, ⟨-, -, hmin⟩, -⟩ := h.mp hrejects
  simp [T, TrustedTree.single, ofRoot] at hmin

end Dcpp.TreeCheck
