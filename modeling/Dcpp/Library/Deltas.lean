import Mathlib.Data.List.Nodup
import Mathlib.Logic.Function.Basic
import Mathlib.Tactic.Common

-- A map of which a copy is kept up to date with the entries that change.
namespace Dcpp.Deltas

variable {K V : Type*} [DecidableEq K] [DecidableEq V] (empty : V)

/-- The empty value stands for no entry. -/
def entry (v : V) : Option V := if v = empty then none else some v

def put (m : K → Option V) (d : K × V) : K → Option V := Function.update m d.1 (entry empty d.2)

def puts (m : K → Option V) (ds : List (K × V)) : K → Option V := ds.foldl (put empty) m

/-- What is sent for one value: nothing, if it is there. -/
def delta (m : K → Option V) (d : K × V) : List (K × V) := if m d.1 = entry empty d.2 then [] else [d]

/-- What is sent for some values, each of which is put before the next. -/
def deltas (m : K → Option V) : List (K × V) → List (K × V)
  | [] => []
  | d :: ds => delta empty m d ++ deltas (put empty m d) ds

theorem puts_append (m : K → Option V) (ds ds' : List (K × V)) :
    puts empty m (ds ++ ds') = puts empty (puts empty m ds) ds' := List.foldl_append

theorem puts_delta (m : K → Option V) (d : K × V) : puts empty m (delta empty m d) = put empty m d := by
  rw [delta]
  split
  next h => exact (h ▸ Function.update_eq_self d.1 m).symm
  next => rfl

/-- A copy that gets what is sent stays the same as the map. -/
theorem puts_deltas (m : K → Option V) (ds : List (K × V)) : puts empty m (deltas empty m ds) = puts empty m ds := by
  induction ds generalizing m with
  | nil => rfl
  | cons d ds ih =>
    rw [deltas, puts_append, puts_delta, ih]
    rfl

theorem mem_of_mem_deltas {m : K → Option V} {ds : List (K × V)} {d : K × V} (h : d ∈ deltas empty m ds) : d ∈ ds := by
  induction ds generalizing m with
  | nil => exact h
  | cons d' ds ih =>
    rw [deltas, List.mem_append, delta] at h
    obtain h | h := h
    · split at h
      next => cases h
      next => exact List.mem_cons.mpr (Or.inl (List.mem_singleton.mp h))
    · exact List.mem_cons_of_mem _ (ih h)

theorem entry_ne_some (v : V) : entry empty v ≠ some empty := by
  rw [entry]
  split
  next => nofun
  next h => exact fun heq => h (Option.some.inj heq)

/-- No key has the empty value. -/
theorem put_ne_some {m : K → Option V} (h : ∀ k, m k ≠ some empty) (d : K × V) (k : K) :
    put empty m d k ≠ some empty := by
  rw [put, Function.update_apply]
  split
  next => exact entry_ne_some empty d.2
  next => exact h k

theorem puts_of_notMem (m : K → Option V) {ds : List (K × V)} {k : K} (h : k ∉ ds.map Prod.fst) :
    puts empty m ds k = m k := by
  induction ds generalizing m with
  | nil => rfl
  | cons d ds ih =>
    rw [List.map_cons, List.mem_cons, not_or] at h
    exact (ih _ h.2).trans (Function.update_of_ne h.1 _ m)

/-- Each of some values with different keys is there after they are put. -/
theorem puts_of_mem (m : K → Option V) {ds : List (K × V)} (hnodup : (ds.map Prod.fst).Nodup) {d : K × V}
    (h : d ∈ ds) : puts empty m ds d.1 = entry empty d.2 := by
  induction ds generalizing m with
  | nil => cases h
  | cons d' ds ih =>
    rw [List.map_cons, List.nodup_cons] at hnodup
    obtain rfl | h := List.mem_cons.mp h
    · exact (puts_of_notMem empty _ hnodup.1).trans (Function.update_self d.1 _ m)
    · exact ih _ hnodup.2 h

/-- The map with exactly some values. -/
def ofValues (ds : List (K × V)) : K → Option V := puts empty (fun _ => none) ds

/-- What was there before does not matter if it has no other keys. -/
theorem puts_eq_ofValues {m : K → Option V} {ds : List (K × V)} (hnodup : (ds.map Prod.fst).Nodup)
    (h : ∀ k, k ∉ ds.map Prod.fst → m k = none) : puts empty m ds = ofValues empty ds := by
  funext k
  by_cases hk : k ∈ ds.map Prod.fst
  · obtain ⟨d, hd, rfl⟩ := List.mem_map.mp hk
    rw [puts_of_mem empty m hnodup hd, ofValues, puts_of_mem empty _ hnodup hd]
  · rw [puts_of_notMem empty m hk, ofValues, puts_of_notMem empty _ hk, h k hk]

/-- Into an empty map everything is sent. -/
theorem deltas_of_none {m : K → Option V} {ds : List (K × V)} (hnodup : (ds.map Prod.fst).Nodup)
    (h : ∀ d ∈ ds, m d.1 = none) : deltas empty m ds = ds.filter fun d => d.2 ≠ empty := by
  induction ds generalizing m with
  | nil => rfl
  | cons d ds ih =>
    rw [List.map_cons, List.nodup_cons] at hnodup
    have hds : ∀ d' ∈ ds, put empty m d d'.1 = none := by
      intro d' hd'
      have hne : d'.1 ≠ d.1 := fun heq => hnodup.1 (heq ▸ List.mem_map_of_mem hd')
      exact (Function.update_of_ne hne _ m).trans (h d' (List.mem_cons_of_mem _ hd'))
    rw [deltas, ih hnodup.2 hds, delta, h d List.mem_cons_self, entry]
    by_cases hd : d.2 = empty
    · rw [if_pos hd, if_pos rfl, List.filter_cons_of_neg (by simpa using hd), List.nil_append]
    · rw [if_neg hd, if_neg (by simp), List.filter_cons_of_pos (by simpa using hd), List.singleton_append]

end Dcpp.Deltas
