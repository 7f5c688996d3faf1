import Mathlib.Data.List.Infix
import Mathlib.Tactic.Common

-- Strings with parts of one length taken out, from the left on.
namespace Dcpp.Erase

variable {α : Type*}

/-- The second list is the first without the `n` elements at `first`, and without those at the first place of what comes
behind them, and so on. -/
inductive Erased (first : List α → Option Nat) (n : Nat) : List α → List α → Prop
  | done {s : List α} (h : first s = none) : Erased first n s s
  | next {s r : List α} {i : Nat} (h : first s = some i) (hr : Erased first n (s.drop (i + n)) r) :
    Erased first n s (s.take i ++ r)

variable {first : List α → Option Nat} {n : Nat} {s r r' : List α}

/-- What is left keeps its order. -/
theorem Erased.sublist (h : Erased first n s r) : r.Sublist s := by
  induction h with
  | done => exact List.Sublist.refl _
  | @next s r i _ _ ih =>
    have hdrop : (s.drop (i + n)).Sublist (s.drop i) := by
      rw [← List.drop_drop]
      exact List.drop_sublist n (s.drop i)
    have happend := (List.Sublist.refl (s.take i)).append (ih.trans hdrop)
    rwa [List.take_append_drop] at happend

theorem Erased.unique (h : Erased first n s r) (h' : Erased first n s r') : r = r' := by
  induction h generalizing r' with
  | done hn =>
    cases h' with
    | done => rfl
    | next hs => cases hn.symm.trans hs
  | next hs _ ih =>
    cases h' with
    | done hn => cases hn.symm.trans hs
    | next hs' hr' =>
      cases hs.symm.trans hs'
      rw [ih hr']

/-- Single elements with a property. -/
theorem erased_findIdx?_iff (p : α → Bool) : Erased (List.findIdx? p) 1 s r ↔ r = s.filter fun a => !p a := by
  have hfilter : ∀ s : List α, Erased (List.findIdx? p) 1 s (s.filter fun a => !p a) := by
    intro s
    induction s with
    | nil => exact .done rfl
    | cons a s ih =>
      cases ha : p a with
      | true =>
        rw [List.filter_cons_of_neg (by simp [ha])]
        exact .next (i := 0) (by simp [List.findIdx?_cons, ha]) ih
      | false =>
        rw [List.filter_cons_of_pos (by simp [ha])]
        generalize s.filter (fun a => !p a) = r at ih
        cases ih with
        | done h => exact .done (by rw [List.findIdx?_cons, ha, h]; rfl)
        | @next _ r i h hr => exact .next (i := i + 1) (by rw [List.findIdx?_cons, ha, h]; rfl) hr
  exact ⟨fun h => h.unique (hfilter s), fun h => h ▸ hfilter s⟩

end Dcpp.Erase
