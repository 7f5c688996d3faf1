import Dcpp.Library.Chunks

-- A stream that is taken in blocks of one size, and a function that is chained over the blocks.
namespace Dcpp.Blocks

open Chunks

section Stream

variable {α : Type*} {n : Nat}

/-- The whole blocks of a stream. -/
def whole (n : Nat) (l : List α) : List (List α) := chunks n (l.take (l.length - l.length % n))

/-- What comes after the whole blocks. -/
def rest (n : Nat) (l : List α) : List α := l.drop (l.length - l.length % n)

theorem rest_length (n : Nat) (l : List α) : (rest n l).length = l.length % n := by
  have := Nat.mod_le l.length n
  rw [rest, List.length_drop]
  omega

theorem whole_append_rest (hn : 0 < n) (l : List α) : (whole n l).flatten ++ rest n l = l := by
  rw [whole, rest, chunks_flatten hn, List.take_append_drop]

theorem flatten_length {bs : List (List α)} (h : ∀ b ∈ bs, b.length = n) : bs.flatten.length = n * bs.length := by
  induction bs with
  | nil => rfl
  | cons b bs ih =>
    rw [List.flatten_cons, List.length_append, h b List.mem_cons_self, ih fun c hc => h c (List.mem_cons_of_mem b hc),
      List.length_cons, Nat.mul_succ, Nat.add_comm]

/-- Blocks of the right size with less than a block behind them are the whole blocks of the stream, and its rest. -/
theorem whole_rest_eq {bs : List (List α)} {r : List α} (hbs : ∀ b ∈ bs, b.length = n) (hr : r.length < n) :
    whole n (bs.flatten ++ r) = bs ∧ rest n (bs.flatten ++ r) = r := by
  have hmod : (bs.flatten ++ r).length % n = r.length := by
    rw [List.length_append, flatten_length hbs, Nat.mul_add_mod, Nat.mod_eq_of_lt hr]
  have hcut : (bs.flatten ++ r).length - r.length = bs.flatten.length := by
    rw [List.length_append, Nat.add_sub_cancel]
  rw [whole, rest, hmod, hcut, List.take_left, List.drop_left]
  exact ⟨chunks_flatten_of_length (Nat.zero_lt_of_lt hr) hbs, rfl⟩

theorem length_of_mem_whole (hn : 0 < n) {l b : List α} (h : b ∈ whole n l) : b.length = n := by
  have hdvd : n ∣ (l.take (l.length - l.length % n)).length := by
    rw [List.length_take, Nat.min_eq_left (Nat.sub_le _ _)]
    exact Nat.dvd_sub_mod _
  rw [whole] at h
  generalize l.take (l.length - l.length % n) = m at h hdvd
  induction m using chunks.induct n with
  | case1 m hm =>
    rw [chunks, dif_pos hm] at h
    exact absurd h List.not_mem_nil
  | case2 m hm ih =>
    rw [not_or] at hm
    have hle : n ≤ m.length := Nat.le_of_dvd (List.length_pos_iff.mpr hm.1) hdvd
    rw [chunks_of_ne_nil hn hm.1] at h
    obtain rfl | h := List.mem_cons.mp h
    · rw [List.length_take, Nat.min_eq_left hle]
    · apply ih h
      rw [List.length_drop]
      exact Nat.dvd_sub hdvd (dvd_refl n)

/-- A stream that goes on: the rest of the first part comes before the second part. -/
theorem whole_rest_append (hn : 0 < n) (l m : List α) :
    whole n (l ++ m) = whole n l ++ whole n (rest n l ++ m) ∧ rest n (l ++ m) = rest n (rest n l ++ m) := by
  have hl := whole_append_rest hn l
  have hm := whole_append_rest hn (rest n l ++ m)
  have hlm : l ++ m = (whole n l ++ whole n (rest n l ++ m)).flatten ++ rest n (rest n l ++ m) := by
    rw [List.flatten_append, List.append_assoc, hm, ← List.append_assoc, hl]
  have hlt : (rest n (rest n l ++ m)).length < n := by
    rw [rest_length]
    exact Nat.mod_lt _ hn
  have hbs : ∀ b ∈ whole n l ++ whole n (rest n l ++ m), b.length = n := by
    intro b hb
    obtain hb | hb := List.mem_append.mp hb
    · exact length_of_mem_whole hn hb
    · exact length_of_mem_whole hn hb
  obtain ⟨h, h'⟩ := whole_rest_eq hbs hlt
  exact ⟨by rw [hlm, h], by rw [hlm, h']⟩

theorem whole_of_lt {l : List α} (h : l.length < n) : whole n l = [] ∧ rest n l = l :=
  @whole_rest_eq α n [] l (fun _ hb => absurd hb List.not_mem_nil) h

/-- The first block of a stream that begins with one. -/
theorem whole_rest_cons (hn : 0 < n) {b : List α} (hb : b.length = n) (l : List α) :
    whole n (b ++ l) = b :: whole n l ∧ rest n (b ++ l) = rest n l := by
  have hbs : ∀ c ∈ [b], c.length = n := List.forall_mem_singleton.mpr hb
  obtain ⟨h, h'⟩ := @whole_rest_eq α n [b] [] hbs hn
  rw [List.append_nil, List.flatten_singleton] at h h'
  obtain ⟨hw, hr⟩ := whole_rest_append hn b l
  rw [h, h', List.nil_append] at hw
  rw [h', List.nil_append] at hr
  exact ⟨hw, hr⟩

end Stream

section Chain

variable {β σ : Type*} (f : σ → β → σ)

/-- The calls of `f` when it is chained over some blocks: each block with the state before it. -/
def calls : σ → List β → List (σ × β)
  | _, [] => []
  | s, b :: bs => (s, b) :: calls (f s b) bs

theorem calls_append (s : σ) (bs cs : List β) : calls f s (bs ++ cs) = calls f s bs ++ calls f (bs.foldl f s) cs := by
  induction bs generalizing s with
  | nil => rfl
  | cons b bs ih => rw [List.cons_append, calls, calls, ih, List.cons_append, List.foldl_cons]

/-- Two calls in these lists that are not the same have the same result. -/
def Collide (xs ys : List (σ × β)) : Prop := ∃ x ∈ xs, ∃ y ∈ ys, x ≠ y ∧ f x.1 x.2 = f y.1 y.2

variable {f}

theorem Collide.mono {xs xs' ys ys' : List (σ × β)} (h : Collide f xs ys) (hx : xs ⊆ xs') (hy : ys ⊆ ys') :
    Collide f xs' ys' := by
  obtain ⟨x, hxs, y, hys, hxy⟩ := h
  exact ⟨x, hx hxs, y, hy hys, hxy⟩

/-- Chains of one length that end in the same state began in the same way, or two of their calls collide. -/
theorem collide_of_length {s t : σ} {bs cs : List β} (hlen : bs.length = cs.length)
    (h : bs.foldl f s = cs.foldl f t) (hne : ¬(s = t ∧ bs = cs)) : Collide f (calls f s bs) (calls f t cs) := by
  induction bs generalizing s t cs with
  | nil =>
    obtain rfl := List.length_eq_zero_iff.mp hlen.symm
    exact absurd ⟨h, rfl⟩ hne
  | cons b bs ih =>
    cases cs with
    | nil => cases hlen
    | cons c cs =>
      have hlen' : bs.length = cs.length := Nat.succ.inj hlen
      by_cases hsame : f s b = f t c ∧ bs = cs
      · refine ⟨(s, b), List.mem_cons_self, (t, c), List.mem_cons_self, ?_, hsame.1⟩
        intro heq
        obtain ⟨rfl, rfl⟩ := Prod.mk.inj heq
        exact hne ⟨rfl, by rw [hsame.2]⟩
      · exact (ih hlen' h hsame).mono (List.subset_cons_self _ _) (List.subset_cons_self _ _)

/-- Chains that end with different blocks in the same state: their last calls collide. -/
theorem collide_of_last {s t : σ} {bs cs : List β} {b c : β} (h : (bs ++ [b]).foldl f s = (cs ++ [c]).foldl f t)
    (hne : b ≠ c) : Collide f (calls f s (bs ++ [b])) (calls f t (cs ++ [c])) := by
  rw [List.foldl_append, List.foldl_append] at h
  refine ⟨(bs.foldl f s, b), ?_, (cs.foldl f t, c), ?_, fun heq => hne (Prod.mk.inj heq).2, h⟩
  · rw [calls_append]
    exact List.mem_append_right _ List.mem_cons_self
  · rw [calls_append]
    exact List.mem_append_right _ List.mem_cons_self

end Chain

end Dcpp.Blocks
