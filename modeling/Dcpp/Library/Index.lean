import Mathlib.Data.List.Basic
import Mathlib.Logic.Function.Basic
import Mathlib.Tactic.Common

namespace Dcpp.Index

variable {K V : Type*} [DecidableEq K]

/-- An index lists, under every key, exactly the wanted values, each of them once. -/
structure Agrees (ix : K → List V) (wanted : K → V → Prop) : Prop where
  nodup : ∀ k, (ix k).Nodup
  mem_iff : ∀ k v, v ∈ ix k ↔ wanted k v

variable {ix : K → List V} {wanted wanted' : K → V → Prop}

omit [DecidableEq K] in
theorem Agrees.congr (h : Agrees ix wanted) (hw : ∀ k v, wanted k v ↔ wanted' k v) :
    Agrees ix wanted' :=
  ⟨h.nodup, fun k v => (h.mem_iff k v).trans (hw k v)⟩

/-- The place under a key at which a value is put does not matter. -/
theorem Agrees.add (h : Agrees ix wanted) {k : K} {v : V} (hv : ¬wanted k v) {l : List V}
    (hl : l = v :: ix k ∨ l = ix k ++ [v]) :
    Agrees (Function.update ix k l) fun k' v' => wanted k' v' ∨ k' = k ∧ v' = v := by
  have hnot : v ∉ ix k := fun hm => hv ((h.mem_iff k v).mp hm)
  have hmem : ∀ v', v' ∈ l ↔ v' ∈ ix k ∨ v' = v := by
    intro v'
    obtain rfl | rfl := hl
    · rw [List.mem_cons, or_comm]
    · rw [List.mem_append, List.mem_singleton]
  constructor
  · intro k'
    by_cases hk : k' = k
    · subst hk
      rw [Function.update_self]
      obtain rfl | rfl := hl
      · exact List.nodup_cons.mpr ⟨hnot, h.nodup k'⟩
      · refine List.nodup_append.mpr ⟨h.nodup k', by simp, ?_⟩
        intro a ha b hb
        rw [List.mem_singleton.mp hb]
        exact fun hab => hnot (hab ▸ ha)
    · rw [Function.update_of_ne hk]
      exact h.nodup k'
  · intro k' v'
    by_cases hk : k' = k
    · subst hk
      rw [Function.update_self, hmem, h.mem_iff]
      simp
    · rw [Function.update_of_ne hk, h.mem_iff]
      simp [hk]

variable [DecidableEq V]

theorem Agrees.erase (h : Agrees ix wanted) (k : K) (v : V) :
    Agrees (Function.update ix k ((ix k).erase v)) fun k' v' => wanted k' v' ∧ ¬(k' = k ∧ v' = v) := by
  constructor
  · intro k'
    by_cases hk : k' = k
    · subst hk
      rw [Function.update_self]
      exact (h.nodup k').erase v
    · rw [Function.update_of_ne hk]
      exact h.nodup k'
  · intro k' v'
    by_cases hk : k' = k
    · subst hk
      rw [Function.update_self, (h.nodup k').mem_erase_iff, h.mem_iff]
      simp [and_comm]
    · rw [Function.update_of_ne hk, h.mem_iff]
      simp [hk]

end Dcpp.Index
