import Mathlib.Data.List.Basic

-- Marks with ranges in a text.
namespace Dcpp.Placement

variable {α β : Type*} (start stop : β → Nat) (shown : β → List α)

/-- What is shown of the mark stands in its range. -/
def Stands (text : List α) (b : β) : Prop :=
  start b < stop b ∧ stop b ≤ text.length ∧ (text.take (stop b)).drop (start b) = shown b

/-- The marks stand one behind the other from `lo` on. -/
def Placed (text : List α) : Nat → List β → Prop
  | _, [] => True
  | lo, b :: bs => (lo ≤ start b ∧ Stands start stop shown text b) ∧ Placed text (stop b) bs

variable {start stop shown} {text : List α}

theorem Placed.mono {lo lo' : Nat} {bs : List β} (h : Placed start stop shown text lo bs) (hlo : lo' ≤ lo) :
    Placed start stop shown text lo' bs := by
  cases bs with
  | nil => exact trivial
  | cons b bs =>
    obtain ⟨⟨hstart, hrest⟩, hbs⟩ := h
    exact ⟨⟨Nat.le_trans hlo hstart, hrest⟩, hbs⟩

theorem Placed.from {lo lo' : Nat} {bs : List β} (h : Placed start stop shown text lo bs) (hlo : ∀ b ∈ bs, lo' ≤ start b) :
    Placed start stop shown text lo' bs := by
  cases bs with
  | nil => exact trivial
  | cons b bs => exact ⟨⟨hlo b List.mem_cons_self, h.1.2⟩, h.2⟩

theorem Placed.mem {lo : Nat} {bs : List β} (h : Placed start stop shown text lo bs) {b : β} (hb : b ∈ bs) :
    lo ≤ start b ∧ Stands start stop shown text b := by
  induction bs generalizing lo with
  | nil => exact absurd hb List.not_mem_nil
  | cons c bs ih =>
    obtain ⟨⟨hstart, hc⟩, hbs⟩ := h
    rcases List.mem_cons.mp hb with rfl | hb
    · exact ⟨hstart, hc⟩
    · obtain ⟨hle, hstands⟩ := ih hbs hb
      have := hc.1
      exact ⟨by omega, hstands⟩

theorem Placed.pairwise {lo : Nat} {bs : List β} (h : Placed start stop shown text lo bs) :
    bs.Pairwise fun a b => stop a ≤ start b := by
  induction bs generalizing lo with
  | nil => exact List.Pairwise.nil
  | cons c bs ih =>
    apply List.Pairwise.cons
    · intro b hb
      exact (h.2.mem hb).1
    · exact ih h.2

/-- Marks behind a place follow marks in front of it. -/
theorem Placed.append {lo mid : Nat} {bs cs : List β} (hbs : Placed start stop shown text lo bs)
    (hmid : ∀ b ∈ bs, stop b ≤ mid) (hle : lo ≤ mid) (hcs : Placed start stop shown text mid cs) :
    Placed start stop shown text lo (bs ++ cs) := by
  induction bs generalizing lo with
  | nil => exact hcs.mono hle
  | cons b bs ih =>
    refine ⟨hbs.1, ih hbs.2 ?_ (hmid b List.mem_cons_self)⟩
    intro c hc
    exact hmid c (List.mem_cons_of_mem b hc)

/-- Only the text up to the end of the marks counts. -/
theorem Placed.congr {text' : List α} {n lo : Nat} {bs : List β} (h : Placed start stop shown text lo bs)
    (hn : ∀ b ∈ bs, stop b ≤ n) (hlen : n ≤ text'.length) (htext : text'.take n = text.take n) :
    Placed start stop shown text' lo bs := by
  induction bs generalizing lo with
  | nil => exact trivial
  | cons b bs ih =>
    obtain ⟨⟨hstart, hlt, hle, hshown⟩, hbs⟩ := h
    have hb := hn b List.mem_cons_self
    refine ⟨⟨hstart, hlt, by omega, ?_⟩, ih hbs fun c hc => hn c (List.mem_cons_of_mem b hc)⟩
    calc (text'.take (stop b)).drop (start b)
        = ((text'.take n).take (stop b)).drop (start b) := by rw [List.take_take, Nat.min_eq_left hb]
      _ = (text.take (stop b)).drop (start b) := by rw [htext, List.take_take, Nat.min_eq_left hb]
      _ = shown b := hshown

/-- A mark whose text is put behind a text. -/
theorem placed_behind {u v w : List α} {b : β} (hstart : start b = u.length) (hstop : stop b = u.length + v.length)
    (hv : v ≠ []) (hshown : shown b = v) : Placed start stop shown (u ++ v ++ w) u.length [b] := by
  have hlen := List.length_pos_of_ne_nil hv
  refine ⟨⟨Nat.le_of_eq hstart.symm, by omega, ?_, ?_⟩, trivial⟩
  · rw [hstop, List.length_append, List.length_append]
    omega
  · rw [hstop, hstart, hshown, ← List.length_append, List.take_left, List.drop_left]

end Dcpp.Placement
