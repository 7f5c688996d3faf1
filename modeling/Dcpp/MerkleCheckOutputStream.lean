import Dcpp.TreeLeaves
import Dcpp.Streams

namespace Dcpp

/-- The members of a `MerkleCheckOutputStream` apart from the stream `s` below it. -/
structure MerkleCheck (V : Type) where
  real : MerkleTree V
  cur : MerkleTree V
  verified : Nat
  /-- The first `bufPos` bytes of the source's `buf`. -/
  buf : List UInt8
deriving DecidableEq

namespace MerkleCheck

open Chunks HashTree MerkleTree TigerTree

variable {V : Type}

/-- The constructor, with the leaves before `start` taken over. -/
def new [Inhabited V] (aTree : MerkleTree V) (start : Nat) : MerkleCheck V :=
  let cur := { ofBlockSize aTree.blockSize with fileSize := start }
  let nBlocks := start / aTree.blockSize
  if aTree.leaves.length < nBlocks then ⟨aTree, cur, 0, []⟩
  else ⟨aTree, { cur with leaves := aTree.leaves.take nBlocks }, 0, []⟩

variable (H : TreeHasher V)

/-- The first part of `commitBytes`: fills up a started `buf` with `bytes` bytes of `b`. -/
def fillBuf (m : MerkleCheck V) (b : List UInt8) (bytes : Nat) : MerkleCheck V :=
  if m.buf = [] then m
  else
    let buf := m.buf ++ b.take bytes
    if buf.length = baseBlockSize then { m with cur := update H m.cur buf, buf := [] }
    else { m with buf := buf }

def commitBytes (m : MerkleCheck V) (b : List UInt8) : MerkleCheck V :=
  let pos := if m.buf = [] then 0 else min (baseBlockSize - m.buf.length) b.length
  let m := fillBuf H m b pos
  if pos < b.length then
    let left := b.length - pos
    let part := left - left % baseBlockSize
    { m with
      cur := if 0 < part then update H m.cur ((b.drop pos).take part) else m.cur
      buf := (b.drop pos).drop part }
  else m

variable [DecidableEq V]

def checkTrees (m : MerkleCheck V) : Outcome (MerkleCheck V) :=
  if m.verified < m.cur.leaves.length then
    if m.real.leaves.length < m.cur.leaves.length ∨
        ¬m.cur.leaves[m.verified]? = m.real.leaves[m.verified]? then
      .threw "TTH inconsistency" m
    else checkTrees { m with verified := m.verified + 1 }
  else .returned m
termination_by m.cur.leaves.length - m.verified

/-- `flush` up to the call of `s->flush()`. -/
def flushTree (m : MerkleCheck V) : Outcome (MerkleCheck V) :=
  let cur := if m.buf = [] then m.cur else update H m.cur m.buf
  match finalize H cur with
  | none => .undefined
  | some cur =>
    let m := { m with cur := cur, buf := [] }
    if m.cur.leaves.length = m.real.leaves.length then
      if m.cur.root ≠ m.real.root then .threw "TTH inconsistency" m else .returned m
    else checkTrees m

def verifiedBytes (m : MerkleCheck V) : Nat :=
  min m.real.fileSize (m.cur.blockSize * m.cur.leaves.length)

end MerkleCheck

/-- A `MerkleCheckOutputStream` in front of the stream `s`. -/
def merkleCheckOutputStream {V S : Type} [DecidableEq V] (H : TreeHasher V) (s : OutputStream S) :
    OutputStream (MerkleCheck V × S) where
  write st b := ((MerkleCheck.checkTrees (MerkleCheck.commitBytes H st.1 b)).map (·, st.2)).andThen
    fun st => (s.write st.2 b).map (st.1, ·)
  flush st := ((MerkleCheck.flushTree H st.1).map (·, st.2)).andThen
    fun st => (s.flush st.2).map (st.1, ·)

theorem merkleCheckOutputStream_writeKeeps {V S : Type} [DecidableEq V] {H : TreeHasher V}
    {s : OutputStream S} {p : S → Prop} (h : s.WriteKeeps p) :
    (merkleCheckOutputStream H s).WriteKeeps fun st => p st.2 := by
  intro st b st' hp hst
  simp only [merkleCheckOutputStream] at hst
  exact Outcome.forward_keeps (f := fun t => s.write t b) hp (fun t ht => h st.2 b t hp ht) hst

theorem merkleCheckOutputStream_flushKeeps {V S : Type} [DecidableEq V] {H : TreeHasher V}
    {s : OutputStream S} {p : S → Prop} (h : s.FlushKeeps p) :
    (merkleCheckOutputStream H s).FlushKeeps fun st => p st.2 := by
  intro st st' hp hst
  simp only [merkleCheckOutputStream] at hst
  exact Outcome.forward_keeps (f := s.flush) hp (fun t ht => h st.2 t hp ht) hst

namespace MerkleCheck

open Chunks HashTree MerkleTree TigerTree TreeLeaves

variable {V : Type}

/-- A tree to check against: its root is that of its leaves, one for each block of the
file, and its block size is one that serves the file. -/
structure TrustedTree (H : TreeHasher V) extends MerkleTree V where
  blockSize_pos : 0 < blockSize
  leaves_length : leaves.length = calcBlocks fileSize blockSize
  calcRoot_eq : calcRoot H toMerkleTree = some toMerkleTree
  serves : Serves blockSize fileSize

/-- The tree that consists of the root only, with the size of the file as block size. -/
def TrustedTree.single (H : TreeHasher V) (aFileSize : Nat) (h : 0 < aFileSize) (aRoot : V) :
    TrustedTree H where
  toMerkleTree := ofRoot aFileSize aFileSize aRoot
  blockSize_pos := h
  leaves_length := (calcBlocks_of_le h le_rfl).symm
  calcRoot_eq := by
    rw [calcRoot, getHash]
    simp [ofRoot]
  serves := Or.inr le_rfl

variable [Inhabited V] {H : TreeHasher V}

theorem TrustedTree.root_eq (T : TrustedTree H) : T.root = rootOf H.combine (wrapped T.leaves) := by
  have h := MerkleTree.calcRoot_eq (H := H) T.blockSize_pos T.leaves_length.ge
  rw [T.calcRoot_eq, ← T.leaves_length, List.take_of_length_le (by simp)] at h
  exact congrArg MerkleTree.root (Option.some.inj h)

/-- The tree over the leaves of a file, with a power of two of base blocks as block size. -/
def TrustedTree.ofLeaves (H : TreeHasher V) (k aFileSize : Nat) (leaves : List V)
    (h : leaves.length = calcBlocks aFileSize (baseBlockSize * 2 ^ k)) : TrustedTree H where
  toMerkleTree := ⟨[], leaves, rootOf H.combine (wrapped leaves), aFileSize, baseBlockSize * 2 ^ k⟩
  blockSize_pos := Nat.mul_pos (by decide) (Nat.two_pow_pos k)
  leaves_length := h
  calcRoot_eq := by
    rw [MerkleTree.calcRoot_eq (Nat.mul_pos (by decide) (Nat.two_pow_pos k)) h.ge, ← h,
      List.take_of_length_le (by simp)]
  serves := Or.inl ⟨k, rfl⟩

/-- The tree `cur` of a new checker that starts after `n` blocks. -/
def startTree (T : MerkleTree V) (n : Nat) : MerkleTree V :=
  { ofBlockSize T.blockSize with leaves := T.leaves.take n, fileSize := n * T.blockSize }

/-- The whole base blocks of the bytes written so far; `commitBytes` keeps the others. -/
def committed (w : List UInt8) : List UInt8 := w.take (w.length / baseBlockSize * baseBlockSize)

theorem committed_dvd (w : List UInt8) : baseBlockSize ∣ (committed w).length := by
  rw [committed, List.length_take_of_le (Nat.div_mul_le_self _ _)]
  exact Nat.dvd_mul_left _ _

theorem committed_append {c : List UInt8} (hc : baseBlockSize ∣ c.length) {r : List UInt8}
    (hr : r.length < baseBlockSize) : committed (c ++ r) = c := by
  obtain ⟨q, hq⟩ := hc
  have hlen : (c ++ r).length / baseBlockSize * baseBlockSize = c.length := by
    rw [List.length_append, hq, Nat.mul_add_div (by decide), Nat.div_eq_of_lt hr, Nat.add_zero,
      Nat.mul_comm]
  rw [committed, hlen, List.take_left]

/-- The checker after the bytes `w`, with the whole base blocks in `cur`. -/
structure Tracks (T : TrustedTree H) (n : Nat) (w : List UInt8) (m : MerkleCheck V) : Prop where
  real : m.real = T.toMerkleTree
  cur : ∃ c, w = c ++ m.buf ∧ baseBlockSize ∣ c.length ∧
    m.cur = addData H (startTree T.toMerkleTree n) c
  buf : m.buf.length < baseBlockSize

theorem Tracks.cur_eq {T : TrustedTree H} {n : Nat} {w : List UInt8} {m : MerkleCheck V}
    (h : Tracks T n w m) : m.cur = addData H (startTree T.toMerkleTree n) (committed w) := by
  obtain ⟨c, hw, hc, hcur⟩ := h.cur
  rw [hcur, hw, committed_append hc h.buf]

theorem new_tracks (T : TrustedTree H) {n : Nat} (hn : n ≤ T.leaves.length) :
    Tracks T n [] (new T.toMerkleTree (n * T.blockSize)) ∧
      (new T.toMerkleTree (n * T.blockSize)).verified = 0 := by
  have hdiv : n * T.blockSize / T.blockSize = n := Nat.mul_div_cancel _ T.blockSize_pos
  rw [new, hdiv, if_neg (by omega)]
  exact ⟨⟨rfl, ⟨[], rfl, by simp, by rw [addData_nil]; rfl⟩, (by decide : 0 < baseBlockSize)⟩, rfl⟩

theorem fillBuf_tracks {T : TrustedTree H} {n : Nat} {w : List UInt8} {m : MerkleCheck V}
    (h : Tracks T n w m) (b : List UInt8) {pos : Nat}
    (hpos : pos = if m.buf = [] then 0 else min (baseBlockSize - m.buf.length) b.length) :
    Tracks T n (w ++ b.take pos) (fillBuf H m b pos) ∧ (pos < b.length → (fillBuf H m b pos).buf = []) ∧
      (fillBuf H m b pos).verified = m.verified := by
  have hbuf := h.buf
  obtain ⟨c, hw, hc, hcur⟩ := h.cur
  rw [fillBuf]
  by_cases hnil : m.buf = []
  · rw [if_pos hnil] at hpos ⊢
    subst hpos
    rw [List.take_zero, List.append_nil]
    exact ⟨h, fun _ => hnil, rfl⟩
  · rw [if_neg hnil] at hpos ⊢
    have hlen : (m.buf ++ b.take pos).length = m.buf.length + pos := by
      rw [List.length_append, List.length_take_of_le (by omega)]
    by_cases hfull : (m.buf ++ b.take pos).length = baseBlockSize
    · have hne : m.buf ++ b.take pos ≠ [] := by simp [hnil]
      dsimp only
      rw [if_pos hfull]
      refine ⟨⟨h.real, ⟨c ++ (m.buf ++ b.take pos), by simp [hw], ?_, ?_⟩, by simp [baseBlockSize]⟩,
        fun _ => rfl, rfl⟩
      · rw [List.length_append, hfull]
        exact Nat.dvd_add hc (dvd_refl _)
      · rw [update_eq _ hne, hcur, addData_append _ hc]
    · dsimp only
      rw [if_neg hfull]
      refine ⟨⟨h.real, ⟨c, by rw [hw, List.append_assoc], hc, hcur⟩, by dsimp only; omega⟩, ?_, rfl⟩
      intro hlt
      omega

theorem commitBytes_tracks {T : TrustedTree H} {n : Nat} {w : List UInt8} {m : MerkleCheck V}
    (h : Tracks T n w m) (b : List UInt8) :
    Tracks T n (w ++ b) (commitBytes H m b) ∧ (commitBytes H m b).verified = m.verified := by
  obtain ⟨hfill, hnil, hver⟩ := fillBuf_tracks h b rfl
  rw [commitBytes]
  dsimp only
  generalize (if m.buf = [] then 0 else min (baseBlockSize - m.buf.length) b.length) = pos at hfill hnil hver ⊢
  generalize fillBuf H m b pos = m' at hfill hnil hver ⊢
  by_cases hlt : pos < b.length
  · rw [if_pos hlt]
    have hmod := Nat.mod_lt (b.length - pos) (show baseBlockSize > 0 by decide)
    have hle := Nat.mod_le (b.length - pos) baseBlockSize
    have hdrop : (b.drop pos).length = b.length - pos := List.length_drop
    obtain ⟨c, hw, hc, hcur⟩ := hfill.cur
    rw [hnil hlt, List.append_nil] at hw
    generalize hpart : b.length - pos - (b.length - pos) % baseBlockSize = part
    have hdvd : baseBlockSize ∣ ((b.drop pos).take part).length := by
      rw [List.length_take_of_le (by omega), ← hpart]
      exact Nat.dvd_sub_mod _
    refine ⟨⟨hfill.real, ⟨c ++ (b.drop pos).take part, ?_, ?_, ?_⟩, ?_⟩, hver⟩
    · dsimp only
      rw [List.append_assoc, List.take_append_drop, ← hw, List.append_assoc, List.take_append_drop]
    · rw [List.length_append]
      exact Nat.dvd_add hc hdvd
    · dsimp only
      by_cases h0 : 0 < part
      · have hne : (b.drop pos).take part ≠ [] := by
          rw [← List.length_pos_iff, List.length_take_of_le (by omega)]
          exact h0
        rw [if_pos h0, update_eq _ hne, hcur, addData_append _ hc]
      · rw [if_neg h0, show part = 0 by omega, List.take_zero, List.append_nil, hcur]
    · dsimp only
      rw [List.length_drop]
      omega
  · rw [if_neg hlt]
    rw [List.take_of_length_le (by omega)] at hfill
    exact ⟨hfill, hver⟩

/-- The leaves of `cur` after the bytes `w`. -/
def shown (T : TrustedTree H) (n : Nat) (w : List UInt8) : List V :=
  (addData H (startTree T.toMerkleTree n) (committed w)).leaves

theorem committed_split {v w : List UInt8} (h : v <+: w) :
    ∃ d, committed w = committed v ++ d := by
  have hle : v.length / baseBlockSize * baseBlockSize ≤ w.length / baseBlockSize * baseBlockSize :=
    Nat.mul_le_mul_right _ (Nat.div_le_div_right h.length_le)
  have hv : committed v = w.take (v.length / baseBlockSize * baseBlockSize) := by
    obtain ⟨d, rfl⟩ := h
    rw [committed, List.take_append_of_le_length (Nat.div_mul_le_self _ _)]
  refine ⟨(w.take (w.length / baseBlockSize * baseBlockSize)).drop
    (v.length / baseBlockSize * baseBlockSize), ?_⟩
  conv_rhs =>
    rw [hv, ← Nat.min_eq_left hle, ← List.take_take, Nat.min_eq_left hle]
  rw [List.take_append_drop]
  rfl

theorem shown_mono (T : TrustedTree H) (n : Nat) {v w : List UInt8} (h : v <+: w) :
    shown T n v <+: shown T n w := by
  obtain ⟨d, hd⟩ := committed_split h
  rw [shown, shown, hd, addData_append _ (committed_dvd v)]
  exact addData_extends _ d

theorem shown_nil (T : TrustedTree H) (n : Nat) : shown T n [] = T.leaves.take n := by
  rw [shown, show committed [] = [] from rfl, addData_nil]
  rfl

theorem shown_le_final (T : TrustedTree H) (n : Nat) {w : List UInt8}
    (hs : Serves T.blockSize w.length) :
    shown T n w <+: finalLeaves H (T.leaves.take n) T.blockSize w := by
  have hstart : (startTree T.toMerkleTree n).leaves = T.leaves.take n := rfl
  rw [finalLeaves]
  by_cases hempty : T.leaves.take n = [] ∧ w = []
  · obtain ⟨h, rfl⟩ := hempty
    rw [shown_nil, h]
    exact List.nil_prefix
  · obtain ⟨d, hd⟩ := committed_split (List.prefix_refl w)
    have hsettle := addData_settle (H := H) (t := startTree T.toMerkleTree n) rfl hs
    rw [hstart] at hsettle
    rw [if_neg hempty, ← show (startTree T.toMerkleTree n).blockSize = T.blockSize from rfl, ← hsettle]
    refine List.IsPrefix.trans ?_ (List.prefix_append _ _)
    have hw : committed w ++ w.drop (w.length / baseBlockSize * baseBlockSize) = w :=
      List.take_append_drop _ _
    conv_rhs => rw [← hw, addData_append _ (committed_dvd w)]
    exact addData_extends _ _

/-- The leaves shown are those before the start and those of complete blocks, of all complete
blocks where the block size is a power of two of base blocks. -/
theorem shown_eq (T : TrustedTree H) (n : Nat) {w : List UInt8} (hs : Serves T.blockSize w.length) :
    ∃ c, c * T.blockSize ≤ w.length ∧
      ((∃ k, T.blockSize = baseBlockSize * 2 ^ k) → ∀ q, q * T.blockSize ≤ w.length → q ≤ c) ∧
      shown T n w =
        T.leaves.take n ++ ((chunks T.blockSize (committed w)).take c).map (tigerRoot H) ∧
      (shown T n w).length = (T.leaves.take n).length + c := by
  have hle : (committed w).length ≤ w.length := List.length_take_le' _ _
  have hs' : Serves T.blockSize (committed w).length := hs.imp id hle.trans
  obtain ⟨c, hc, hall, hleaves⟩ := addData_leaves (H := H) (t := startTree T.toMerkleTree n) rfl
    (committed_dvd w) hs'
  rw [show (startTree T.toMerkleTree n).blockSize = T.blockSize from rfl] at hc hall hleaves
  refine ⟨c, hc.trans hle, fun hk q hq => ?_, hleaves, ?_⟩
  · obtain rfl := hall hk
    obtain ⟨k, hk⟩ := hk
    refine (Nat.le_div_iff_mul_le T.blockSize_pos).mpr ?_
    have hdvd : baseBlockSize ∣ q * T.blockSize := by
      rw [hk]
      exact (Nat.dvd_mul_right _ _).mul_left q
    obtain ⟨r, hr⟩ := hdvd
    rw [committed, List.length_take_of_le (Nat.div_mul_le_self _ _), hr, Nat.mul_comm]
    refine Nat.mul_le_mul_right _ ((Nat.le_div_iff_mul_le (by decide)).mpr ?_)
    rw [Nat.mul_comm, ← hr]
    exact hq
  · rw [shown, hleaves, List.length_append, List.length_map, List.length_take_of_le]
    · rfl
    · rw [chunks_length T.blockSize_pos]
      refine (Nat.le_div_iff_mul_le T.blockSize_pos).mpr ?_
      have hpos := T.blockSize_pos
      omega

/-- The leaves that `checkTrees` has passed are those of the trusted tree. -/
def Sound (m : MerkleCheck V) : Prop :=
  m.verified ≤ m.cur.leaves.length ∧ m.cur.leaves.take m.verified <+: m.real.leaves

theorem commitBytes_sound {T : TrustedTree H} {n : Nat} {w : List UInt8} {m : MerkleCheck V}
    (h : Tracks T n w m) (hm : Sound m) (b : List UInt8) : Sound (commitBytes H m b) := by
  obtain ⟨htracks, hver⟩ := commitBytes_tracks h b
  have hp : m.cur.leaves <+: (commitBytes H m b).cur.leaves := by
    rw [h.cur_eq, htracks.cur_eq]
    exact shown_mono T n (List.prefix_append w b)
  rw [Sound, hver, htracks.real, ← h.real]
  refine ⟨hm.1.trans hp.length_le, ?_⟩
  obtain ⟨d, hd⟩ := hp
  rw [← hd, List.take_append_of_le_length hm.1]
  exact hm.2

variable [DecidableEq V]

omit [Inhabited V] in
theorem checkTrees_spec (m : MerkleCheck V) (hm : Sound m) :
    (m.cur.leaves <+: m.real.leaves →
      checkTrees m = .returned { m with verified := m.cur.leaves.length }) ∧
    (¬m.cur.leaves <+: m.real.leaves →
      ∃ v, checkTrees m = .threw "TTH inconsistency" { m with verified := v }) := by
  induction m using checkTrees.induct with
  | case1 m hlt hbad =>
    have hnot : ¬m.cur.leaves <+: m.real.leaves := by
      intro hp
      obtain hlen | hne := hbad
      · have := hp.length_le
        omega
      · exact hne (by rw [List.prefix_iff_getElem?.mp hp _ hlt, List.getElem?_eq_getElem hlt])
    refine ⟨fun h => absurd h hnot, fun _ => ⟨m.verified, ?_⟩⟩
    rw [checkTrees, if_pos hlt, if_pos hbad]
  | case2 m hlt hgood ih =>
    rw [not_or, not_not] at hgood
    rw [checkTrees, if_pos hlt, if_neg (by rw [not_or, not_not]; exact hgood)]
    refine ih ⟨hlt, ?_⟩
    rw [List.prefix_iff_getElem?]
    intro i hi
    have hi' : i < m.verified + 1 := (List.length_take_le _ _).trans_lt' hi
    rw [List.getElem_take]
    obtain h | rfl := Nat.lt_succ_iff_lt_or_eq.mp hi'
    · have hi'' : i < (m.cur.leaves.take m.verified).length := by
        rw [List.length_take_of_le hm.1]
        exact h
      rw [List.prefix_iff_getElem?.mp hm.2 i hi'', List.getElem_take]
    · rw [← hgood.2, List.getElem?_eq_getElem hlt]
  | case3 m hge =>
    have hlen : m.verified = m.cur.leaves.length := by
      have := hm.1
      omega
    have hp := hm.2
    rw [hlen, List.take_length] at hp
    refine ⟨fun _ => ?_, fun h => absurd hp h⟩
    rw [checkTrees, if_neg hge, ← hlen]

/-- A `write` passes if and only if the leaves shown so far are trusted ones. -/
theorem checkTrees_commitBytes {T : TrustedTree H} {n : Nat} {w : List UInt8} {m : MerkleCheck V}
    (h : Tracks T n w m) (hm : Sound m) (b : List UInt8) :
    ∃ m', Tracks T n (w ++ b) m' ∧ m'.cur.leaves = shown T n (w ++ b) ∧
      if shown T n (w ++ b) <+: T.leaves then
        checkTrees (commitBytes H m b) = .returned m' ∧ Sound m'
      else checkTrees (commitBytes H m b) = .threw "TTH inconsistency" m' := by
  have htracks := (commitBytes_tracks h b).1
  have hleaves : (commitBytes H m b).cur.leaves = shown T n (w ++ b) := by
    rw [htracks.cur_eq, shown]
  have hiff : (commitBytes H m b).cur.leaves <+: (commitBytes H m b).real.leaves ↔
      shown T n (w ++ b) <+: T.leaves := by rw [hleaves, htracks.real]
  obtain ⟨hpass, hfail⟩ := checkTrees_spec _ (commitBytes_sound h hm b)
  by_cases hp : shown T n (w ++ b) <+: T.leaves
  · simp only [if_pos hp]
    refine ⟨{ commitBytes H m b with verified := (commitBytes H m b).cur.leaves.length }, ?_, hleaves,
      hpass (hiff.mpr hp), le_rfl, ?_⟩
    · exact ⟨htracks.real, htracks.cur, htracks.buf⟩
    · rw [List.take_length]
      exact hiff.mpr hp
  · simp only [if_neg hp]
    obtain ⟨v, hv⟩ := hfail (fun h' => hp (hiff.mp h'))
    exact ⟨{ commitBytes H m b with verified := v }, ⟨htracks.real, htracks.cur, htracks.buf⟩,
      hleaves, hv⟩

/-- What `flush` compares: the root where all leaves of the file are there, and the
leaves otherwise. -/
def FlushPasses (T : TrustedTree H) (n : Nat) (w : List UInt8) : Prop :=
  let leaves := finalLeaves H (T.leaves.take n) T.blockSize w
  if leaves.length = T.leaves.length then rootOf H.combine (wrapped leaves) = T.root
  else leaves <+: T.leaves

theorem flushTree_spec {T : TrustedTree H} {n : Nat} (hn : n ≤ T.leaves.length) {w : List UInt8}
    (hs : Serves T.blockSize w.length) {m : MerkleCheck V} (h : Tracks T n w m) (hm : Sound m) :
    ∃ m', m'.real = T.toMerkleTree ∧ m'.cur.blockSize = T.blockSize ∧
      m'.cur.leaves = finalLeaves H (T.leaves.take n) T.blockSize w ∧
      (FlushPasses T n w → flushTree H m = .returned m') ∧
      (¬FlushPasses T n w → flushTree H m = .threw "TTH inconsistency" m') := by
  obtain ⟨c, hw, hc, hcur⟩ := h.cur
  have hcur' : (if m.buf = [] then m.cur else update H m.cur m.buf) =
      addData H (startTree T.toMerkleTree n) w := by
    by_cases hnil : m.buf = []
    · rw [if_pos hnil, hcur, hw, hnil, List.append_nil]
    · rw [if_neg hnil, update_eq _ hnil, hcur, hw, addData_append _ hc]
  have hstart : (startTree T.toMerkleTree n).leaves = T.leaves.take n := rfl
  obtain ⟨t, ht, hleaves, hroot, hB⟩ := finalize_addData (H := H)
    (t := startTree T.toMerkleTree n) T.blockSize_pos rfl hs
    (by rw [hstart, List.length_take_of_le hn]; rfl)
  rw [hstart, show (startTree T.toMerkleTree n).blockSize = T.blockSize from rfl] at hleaves hroot
  have hsound : Sound { m with cur := t, buf := [] } := by
    have hp : m.cur.leaves <+: t.leaves := by
      rw [h.cur_eq, hleaves]
      exact shown_le_final T n hs
    refine ⟨hm.1.trans hp.length_le, ?_⟩
    obtain ⟨d, hd⟩ := hp
    rw [← hd, List.take_append_of_le_length hm.1]
    exact hm.2
  obtain ⟨hpass, hfail⟩ := checkTrees_spec _ hsound
  have hflush : flushTree H m = if t.leaves.length = T.leaves.length then
      if t.root ≠ T.root then .threw "TTH inconsistency" { m with cur := t, buf := [] }
      else .returned { m with cur := t, buf := [] }
      else checkTrees { m with cur := t, buf := [] } := by
    rw [flushTree, hcur', ht, ← h.real]
  have hiff : FlushPasses T n w ↔ if t.leaves.length = T.leaves.length then t.root = T.root
      else t.leaves <+: T.leaves := by
    rw [FlushPasses, hleaves, hroot]
  by_cases hlen : t.leaves.length = T.leaves.length
  · rw [if_pos hlen] at hflush hiff
    refine ⟨{ m with cur := t, buf := [] }, h.real, hB, hleaves, fun hp => ?_, fun hp => ?_⟩
    · rw [hflush, if_neg (not_not.mpr (hiff.mp hp))]
    · rw [hflush, if_pos (fun hr => hp (hiff.mpr hr))]
  · rw [if_neg hlen] at hflush hiff
    rw [hflush, hiff]
    have hreal : t.leaves <+: T.leaves ↔ t.leaves <+: m.real.leaves := by rw [h.real]
    by_cases hp : t.leaves <+: T.leaves
    · exact ⟨{ m with cur := t, buf := [], verified := t.leaves.length }, h.real, hB, hleaves,
        fun _ => hpass (hreal.mp hp), fun hn => absurd hp hn⟩
    · obtain ⟨v, hv⟩ := hfail (fun h' => hp (hreal.mpr h'))
      exact ⟨{ m with cur := t, buf := [], verified := v }, h.real, hB, hleaves,
        fun hy => absurd hy hp, fun _ => hv⟩

end MerkleCheck

end Dcpp
