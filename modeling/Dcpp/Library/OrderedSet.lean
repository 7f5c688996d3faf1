import Mathlib.Data.List.Pairwise
import Mathlib.Data.List.Sort
import Mathlib.Order.RelClasses
import Mathlib.Tactic.Common

-- Sets whose elements are ordered by a key, as the lists of them in that order. Keys that a strict weak
-- order does not tell apart tie, and a set has one element of those.
namespace Dcpp.OrderedSet

variable {α β : Type*} (lt : β → β → Prop)

def Tie (k k' : β) : Prop := ¬lt k k' ∧ ¬lt k' k

instance [DecidableRel lt] (k k' : β) : Decidable (Tie lt k k') := inferInstanceAs (Decidable (_ ∧ _))

section

variable {lt} {a b c : β}

theorem Tie.symm (h : Tie lt a b) : Tie lt b a := ⟨h.2, h.1⟩

variable [IsStrictWeakOrder β lt]

theorem Tie.refl (a : β) : Tie lt a a := ⟨irrefl a, irrefl a⟩

theorem Tie.trans (hab : Tie lt a b) (hbc : Tie lt b c) : Tie lt a c :=
  IsStrictWeakOrder.incomp_trans a b c hab hbc

theorem Tie.lt_left (h : Tie lt a b) (hac : lt a c) : lt b c := by
  by_contra hbc
  by_cases hcb : lt c b
  · exact h.1 (IsTrans.trans _ _ _ hac hcb)
  · exact (h.trans ⟨hbc, hcb⟩).1 hac

theorem Tie.lt_right (h : Tie lt a b) (hca : lt c a) : lt c b := by
  by_contra hcb
  by_cases hbc : lt b c
  · exact h.2 (IsTrans.trans _ _ _ hbc hca)
  · exact (h.trans ⟨hbc, hcb⟩).2 hca

theorem Tie.tie_right_iff (h : Tie lt a b) : Tie lt c a ↔ Tie lt c b :=
  ⟨fun hca => hca.trans h, fun hcb => hcb.trans h.symm⟩

end

variable [DecidableRel lt] (key : α → β)

/-- The element whose key ties with `k`. -/
def find (k : β) (s : List α) : Option α := s.find? fun x => Tie lt (key x) k

def before (k : β) (s : List α) : List α := s.filter fun x => lt (key x) k

def after (k : β) (s : List α) : List α := s.filter fun x => lt k (key x)

/-- The set with an element whose key ties with `k`, which the element there gives way to. -/
def put (k : β) (x : α) (s : List α) : List α := before lt key k s ++ x :: after lt key k s

def Sorted (s : List α) : Prop := s.Pairwise fun x y => lt (key x) (key y)

/-- The set with an element, which an element there whose key ties with its key keeps out. -/
def insert (x : α) (s : List α) : List α :=
  if (find lt key (key x) s).isSome then s else put lt key (key x) x s

/-- The set with elements that are inserted one after the other. -/
def insertAll (xs s : List α) : List α :=
  xs.foldl (fun s x => insert lt key x s) s

/-- No two of the keys tie. -/
def Apart (xs : List α) : Prop := xs.Pairwise fun x y => ¬Tie lt (key x) (key y)

variable {lt key} {k k' : β} {x y : α} {s s' xs : List α}

theorem find_mem (h : find lt key k s = some x) : x ∈ s := List.mem_of_find?_eq_some h

theorem find_tie (h : find lt key k s = some x) : Tie lt (key x) k := by
  simpa using List.find?_some h

theorem find_filter {p : α → Bool} (h : ∀ x ∈ s, Tie lt (key x) k → p x = true) :
    find lt key k (s.filter p) = find lt key k s := by
  induction s with
  | nil => rfl
  | cons y s ih =>
    have ih := ih fun x hx => h x (List.mem_cons_of_mem _ hx)
    rw [find] at ih ⊢
    rw [find, List.find?_cons, List.filter_cons]
    cases hp : p y with
    | true => rw [if_pos rfl, List.find?_cons, ih, find]
    | false =>
      have hy : ¬Tie lt (key y) k := fun ht => by
        rw [h y List.mem_cons_self ht] at hp
        cases hp
      rw [if_neg Bool.false_ne_true, decide_eq_false hy, ih, find]

theorem find_eq_none_of_forall (h : ∀ x ∈ s, ¬Tie lt (key x) k) : find lt key k s = none :=
  List.find?_eq_none.mpr fun x hx => by simpa using h x hx

theorem mem_put : y ∈ put lt key k x s ↔ y = x ∨ y ∈ s ∧ ¬Tie lt (key y) k := by
  have hiff : ¬Tie lt (key y) k ↔ lt (key y) k ∨ lt k (key y) := by
    rw [Tie, not_and_or, not_not, not_not]
  simp only [put, before, after, List.mem_append, List.mem_cons, List.mem_filter, decide_eq_true_eq, hiff]
  tauto

theorem insertAll_append (xs xs' s : List α) :
    insertAll lt key (xs ++ xs') s = insertAll lt key xs' (insertAll lt key xs s) := List.foldl_append

theorem insert_cases (lt : β → β → Prop) [DecidableRel lt] (key : α → β) (x : α) (s : List α) :
    (∃ y ∈ s, Tie lt (key y) (key x)) ∧ insert lt key x s = s ∨
      (∀ y ∈ s, ¬Tie lt (key y) (key x)) ∧ insert lt key x s = put lt key (key x) x s := by
  rw [insert]
  cases hfind : find lt key (key x) s with
  | none =>
    refine Or.inr ⟨fun y hy htie => ?_, rfl⟩
    exact List.find?_eq_none.mp hfind y hy (decide_eq_true htie)
  | some y => exact Or.inl ⟨⟨y, find_mem hfind, find_tie hfind⟩, rfl⟩

theorem mem_insert_of_mem (h : y ∈ s) (x : α) : y ∈ insert lt key x s := by
  obtain ⟨-, heq⟩ | ⟨hno, heq⟩ := insert_cases lt key x s
  · rwa [heq]
  · rw [heq]
    exact mem_put.mpr (Or.inr ⟨h, hno y h⟩)

theorem mem_of_mem_insert (h : y ∈ insert lt key x s) : y = x ∨ y ∈ s := by
  obtain ⟨-, heq⟩ | ⟨-, heq⟩ := insert_cases lt key x s
  · rw [heq] at h
    exact Or.inr h
  · rw [heq] at h
    exact (mem_put.mp h).imp_right And.left

theorem mem_insertAll_of_mem (h : y ∈ s) (xs : List α) : y ∈ insertAll lt key xs s := by
  induction xs generalizing s with
  | nil => exact h
  | cons x xs ih => exact ih (mem_insert_of_mem h x)

theorem mem_of_mem_insertAll (h : y ∈ insertAll lt key xs s) : y ∈ xs ∨ y ∈ s := by
  induction xs generalizing s with
  | nil => exact Or.inr h
  | cons x xs ih =>
    obtain hxs | hs := ih h
    · exact Or.inl (List.mem_cons_of_mem x hxs)
    · obtain rfl | hs := mem_of_mem_insert hs
      · exact Or.inl List.mem_cons_self
      · exact Or.inr hs

variable [IsStrictWeakOrder β lt]

theorem find_congr (h : Tie lt k k') (s : List α) : find lt key k s = find lt key k' s := by
  rw [find, find]
  congr 1
  funext x
  exact decide_eq_decide.mpr h.tie_right_iff

/-- The element that was put is the one there; elsewhere the set is as it was. -/
theorem find_put (hx : Tie lt (key x) k) (k' : β) (s : List α) :
    find lt key k' (put lt key k x s) = if Tie lt k k' then some x else find lt key k' s := by
  have happ : find lt key k' (put lt key k x s) =
      (find lt key k' (before lt key k s)).or (find lt key k' (x :: after lt key k s)) := List.find?_append
  have hcons : find lt key k' (x :: after lt key k s) =
      if Tie lt (key x) k' then some x else find lt key k' (after lt key k s) := by
    rw [find, List.find?_cons]
    by_cases h : Tie lt (key x) k'
    · rw [decide_eq_true h, if_pos h]
    · rw [decide_eq_false h, if_neg h, find]
  rw [happ, hcons]
  by_cases h : Tie lt k k'
  · rw [if_pos h, if_pos (hx.trans h), find_eq_none_of_forall]
    · rfl
    · intro y hy hyk
      exact (hyk.trans h.symm).1 (of_decide_eq_true (List.mem_filter.mp hy).2)
  · rw [if_neg h, if_neg fun hxk => h (hx.symm.trans hxk)]
    by_cases hlt : lt k' k
    · have hb : find lt key k' (before lt key k s) = find lt key k' s :=
        find_filter fun y _ hy => decide_eq_true (hy.symm.lt_left hlt)
      have ha : find lt key k' (after lt key k s) = none := find_eq_none_of_forall fun y hy hyk =>
        asymm (hyk.lt_right (of_decide_eq_true (List.mem_filter.mp hy).2)) hlt
      rw [hb, ha, Option.or_none]
    · have hgt : lt k k' := by
        by_contra hkk
        exact h ⟨hkk, hlt⟩
      have hb : find lt key k' (before lt key k s) = none := find_eq_none_of_forall fun y hy hyk =>
        asymm (hyk.lt_left (of_decide_eq_true (List.mem_filter.mp hy).2)) hgt
      have ha : find lt key k' (after lt key k s) = find lt key k' s :=
        find_filter fun y _ hy => decide_eq_true (hy.symm.lt_right hgt)
      rw [hb, ha, Option.none_or]

theorem put_put (hy : Tie lt (key y) k) (x : α) (s : List α) :
    put lt key k x (put lt key k y s) = put lt key k x s := by
  have hb : before lt key k (put lt key k y s) = before lt key k s := by
    have ha : ∀ z ∈ after lt key k s, ¬decide (lt (key z) k) = true := fun z hz hlt =>
      asymm (of_decide_eq_true (List.mem_filter.mp hz).2) (of_decide_eq_true hlt)
    rw [before, put, List.filter_append, List.filter_cons_of_neg (by simpa using hy.1),
      List.filter_eq_nil_iff.mpr ha, List.append_nil, before, List.filter_filter]
    simp only [Bool.and_self]
  have ha : after lt key k (put lt key k y s) = after lt key k s := by
    have hb : ∀ z ∈ before lt key k s, ¬decide (lt k (key z)) = true := fun z hz hlt =>
      asymm (of_decide_eq_true (List.mem_filter.mp hz).2) (of_decide_eq_true hlt)
    rw [after, put, List.filter_append, List.filter_cons_of_neg (by simpa using hy.2),
      List.filter_eq_nil_iff.mpr hb, List.nil_append, after, List.filter_filter]
    simp only [Bool.and_self]
  rw [put, hb, ha, put]

theorem Sorted.put (h : Sorted lt key s) (hx : Tie lt (key x) k) : Sorted lt key (put lt key k x s) := by
  have hb : ∀ y ∈ before lt key k s, lt (key y) k := fun y hy =>
    of_decide_eq_true (List.mem_filter.mp hy).2
  have ha : ∀ y ∈ after lt key k s, lt k (key y) := fun y hy =>
    of_decide_eq_true (List.mem_filter.mp hy).2
  refine List.pairwise_append.mpr ⟨h.sublist List.filter_sublist, List.pairwise_cons.mpr ⟨?_, ?_⟩, ?_⟩
  · exact fun y hy => hx.symm.lt_left (ha y hy)
  · exact h.sublist List.filter_sublist
  · intro y hy z hz
    rcases List.mem_cons.mp hz with rfl | hz
    · exact hx.symm.lt_right (hb y hy)
    · exact IsTrans.trans _ _ _ (hb y hy) (ha z hz)

/-- An element is found by its key. -/
theorem Sorted.find_of_mem (h : Sorted lt key s) (hx : x ∈ s) : find lt key (key x) s = some x := by
  induction s with
  | nil => cases hx
  | cons y s ih =>
    obtain ⟨hy, hs⟩ := List.pairwise_cons.mp h
    rw [find, List.find?_cons]
    rcases List.mem_cons.mp hx with rfl | hx
    · rw [decide_eq_true (Tie.refl _)]
    · rw [decide_eq_false fun ht : Tie lt (key y) (key x) => ht.1 (hy x hx)]
      exact ih hs hx

/-- Sets in which the same elements are found are the same. -/
theorem Sorted.ext (h : Sorted lt key s) (h' : Sorted lt key s')
    (hfind : ∀ k, find lt key k s = find lt key k s') : s = s' := by
  have : Std.Irrefl fun x y : α => lt (key x) (key y) := ⟨fun x => irrefl (key x)⟩
  have : Std.Antisymm fun x y : α => lt (key x) (key y) := ⟨fun x y hxy hyx => absurd hyx (asymm hxy)⟩
  refine List.Pairwise.eq_of_mem_iff h h' fun x => ⟨fun hx => ?_, fun hx => ?_⟩
  · exact find_mem (hfind (key x) ▸ h.find_of_mem hx)
  · exact find_mem ((hfind (key x)).trans (h'.find_of_mem hx))

theorem Sorted.insert (h : Sorted lt key s) (x : α) : Sorted lt key (insert lt key x s) := by
  obtain ⟨-, heq⟩ | ⟨-, heq⟩ := insert_cases lt key x s
  · rwa [heq]
  · rw [heq]
    exact h.put (Tie.refl _)

theorem Sorted.insertAll (h : Sorted lt key s) (xs : List α) : Sorted lt key (insertAll lt key xs s) := by
  induction xs generalizing s with
  | nil => exact h
  | cons x xs ih => exact ih (h.insert x)

theorem put_perm (h : ∀ y ∈ s, ¬Tie lt (key y) k) (x : α) : (put lt key k x s).Perm (x :: s) := by
  have hafter : after lt key k s = s.filter fun y => !decide (lt (key y) k) := by
    apply List.filter_congr
    intro y hy
    by_cases hlt : lt (key y) k
    · rw [decide_eq_true hlt, decide_eq_false (asymm hlt)]
      rfl
    · have hgt : lt k (key y) := by
        by_contra hno
        exact h y hy ⟨hlt, hno⟩
      rw [decide_eq_true hgt, decide_eq_false hlt]
      rfl
  rw [put, hafter]
  exact List.perm_middle.trans (List.Perm.cons x (List.filter_append_perm _ s))

/-- Elements whose keys are apart all find their place. -/
theorem insertAll_perm (h : Apart lt key xs) (hs : ∀ x ∈ xs, ∀ y ∈ s, ¬Tie lt (key y) (key x)) :
    (insertAll lt key xs s).Perm (xs ++ s) := by
  induction xs generalizing s with
  | nil => exact List.Perm.refl _
  | cons x xs ih =>
    obtain ⟨hx, hxs⟩ := List.pairwise_cons.mp h
    obtain ⟨⟨y, hy, htie⟩, -⟩ | ⟨hno, heq⟩ := insert_cases lt key x s
    · exact absurd htie (hs x List.mem_cons_self y hy)
    · have hput : ∀ x' ∈ xs, ∀ y ∈ put lt key (key x) x s, ¬Tie lt (key y) (key x') := by
        intro x' hx' y hy
        obtain rfl | ⟨hy, -⟩ := mem_put.mp hy
        · exact hx x' hx'
        · exact hs x' (List.mem_cons_of_mem x hx') y hy
      have hrest := ih hxs hput
      rw [insertAll, List.foldl_cons, heq]
      exact hrest.trans (((put_perm hno x).append_left xs).trans List.perm_middle)

omit [DecidableRel lt] [IsStrictWeakOrder β lt] in
theorem Sorted.apart (h : Sorted lt key s) : Apart lt key s := h.imp fun hlt htie => htie.1 hlt

instance : Std.Symm fun x y : α => ¬Tie lt (key x) (key y) := ⟨fun _ _ hno htie => hno htie.symm⟩

omit [DecidableRel lt] [IsStrictWeakOrder β lt] in
theorem Apart.of_perm (h : Apart lt key xs) (hperm : xs.Perm s) : Apart lt key s :=
  (hperm.pairwise_iff fun hno htie => hno htie.symm).mp h

/-- Elements all find their place in an empty set if and only if their keys are apart. -/
theorem insertAll_nil_perm_iff : (insertAll lt key xs []).Perm xs ↔ Apart lt key xs := by
  refine ⟨fun h => (Sorted.insertAll List.Pairwise.nil xs).apart.of_perm h, fun h => ?_⟩
  have hperm := insertAll_perm (s := []) h fun _ _ _ hy => absurd hy List.not_mem_nil
  rwa [List.append_nil] at hperm

/-- A list in order is the set of its elements. -/
theorem insertAll_of_sorted (h : Sorted lt key (s ++ xs)) : insertAll lt key xs s = s ++ xs := by
  induction xs generalizing s with
  | nil => exact (List.append_nil s).symm
  | cons x xs ih =>
    have hlt : ∀ y ∈ s, lt (key y) (key x) := fun y hy =>
      (List.pairwise_append.mp h).2.2 y hy x List.mem_cons_self
    have hbefore : before lt key (key x) s = s := List.filter_eq_self.mpr fun y hy => decide_eq_true (hlt y hy)
    have hafter : after lt key (key x) s = [] :=
      List.filter_eq_nil_iff.mpr fun y hy hgt => asymm (hlt y hy) (of_decide_eq_true hgt)
    have hinsert : insert lt key x s = s ++ [x] := by
      obtain ⟨⟨y, hy, htie⟩, -⟩ | ⟨-, heq⟩ := insert_cases lt key x s
      · exact absurd (hlt y hy) htie.1
      · rw [heq, put, hbefore, hafter]
    have hrest := ih (List.append_cons s x xs ▸ h)
    rw [← List.append_cons] at hrest
    rw [insertAll, List.foldl_cons, hinsert]
    exact hrest

end Dcpp.OrderedSet
