import Mathlib.Data.List.Forall2
import Mathlib.Data.List.Nodup
import Mathlib.Tactic.Common

-- Lists whose entries are found, changed and erased by a key.
namespace Dcpp.Keyed

variable {α K : Type*}

/-- The first entry that `p` holds of is changed. -/
def modifyFirst (p : α → Bool) (f : α → α) : List α → List α
  | [] => []
  | x :: l => if p x then f x :: l else x :: modifyFirst p f l

/-- The first element is put in the place of the one that is found. -/
theorem modifyFirst_of_find? {p : α → Bool} {l : List α} {x : α} (h : l.find? p = some x) (f : α → α) :
    ∃ l₁ l₂, l = l₁ ++ x :: l₂ ∧ modifyFirst p f l = l₁ ++ f x :: l₂ := by
  induction l with
  | nil => cases h
  | cons y l ih =>
    rw [List.find?_cons] at h
    rw [modifyFirst]
    cases hy : p y with
    | true =>
      rw [hy] at h
      obtain rfl := Option.some.inj h
      exact ⟨[], l, rfl, rfl⟩
    | false =>
      rw [hy] at h
      obtain ⟨l₁, l₂, rfl, hm⟩ := ih h
      refine ⟨y :: l₁, l₂, rfl, ?_⟩
      rw [if_neg Bool.false_ne_true, hm]
      rfl

theorem forall₂_modifyFirst {R : α → α → Prop} {p : α → Bool} {f : α → α} (hrefl : ∀ x, R x x)
    (hf : ∀ x, p x = true → R x (f x)) (l : List α) : List.Forall₂ R l (modifyFirst p f l) := by
  induction l with
  | nil => exact List.Forall₂.nil
  | cons x l ih =>
    rw [modifyFirst]
    split
    next hp => exact List.Forall₂.cons (hf x hp) (List.forall₂_same.mpr fun y _ => hrefl y)
    next => exact List.Forall₂.cons (hrefl x) ih

theorem modifyFirst_append {p : α → Bool} {f : α → α} {l : List α} (hl : ∀ x ∈ l, p x = false)
    (l' : List α) : modifyFirst p f (l ++ l') = l ++ modifyFirst p f l' := by
  induction l with
  | nil => rfl
  | cons x l ih =>
    obtain ⟨hx, hl⟩ := List.forall_mem_cons.mp hl
    rw [List.cons_append, modifyFirst, hx, if_neg Bool.false_ne_true, ih hl, List.cons_append]

/-- An entry after the change is one from before, or one that was changed. -/
theorem mem_modifyFirst {p : α → Bool} {f : α → α} {l : List α} {y : α} (hy : y ∈ modifyFirst p f l) :
    y ∈ l ∨ ∃ x ∈ l, y = f x := by
  induction l with
  | nil => exact Or.inl hy
  | cons z l ih =>
    rw [modifyFirst] at hy
    split at hy
    next hp =>
      obtain rfl | hy := List.mem_cons.mp hy
      · exact Or.inr ⟨z, List.mem_cons_self, rfl⟩
      · exact Or.inl (List.mem_cons_of_mem _ hy)
    next hp =>
      obtain rfl | hy := List.mem_cons.mp hy
      · exact Or.inl List.mem_cons_self
      · obtain hy | ⟨x, hx, rfl⟩ := ih hy
        · exact Or.inl (List.mem_cons_of_mem _ hy)
        · exact Or.inr ⟨x, List.mem_cons_of_mem _ hx, rfl⟩

/-- Changing one entry changes a count by that entry. -/
theorem countP_modifyFirst {p : α → Bool} {f : α → α} {l : List α} {x : α}
    (hx : l.find? p = some x) (q : α → Bool) :
    (modifyFirst p f l).countP q + (if q x then 1 else 0) =
      l.countP q + if q (f x) then 1 else 0 := by
  induction l with
  | nil => cases hx
  | cons y l ih =>
    by_cases hp : p y
    · rw [List.find?_cons_of_pos hp] at hx
      obtain rfl := Option.some.inj hx
      rw [modifyFirst, if_pos hp, List.countP_cons, List.countP_cons]
      omega
    · rw [List.find?_cons_of_neg hp] at hx
      rw [modifyFirst, if_neg hp, List.countP_cons, List.countP_cons]
      have := ih hx
      omega

/-- Changing the entry at an index changes a count by that entry. -/
theorem countP_set {l : List α} {i : Nat} {x : α} (hx : l[i]? = some x) (q : α → Bool) (y : α) :
    (l.set i y).countP q + (q x).toNat = l.countP q + (q y).toNat := by
  induction l generalizing i with
  | nil => cases hx
  | cons z l ih =>
    cases i with
    | zero =>
      obtain rfl := Option.some.inj hx
      rw [List.set_cons_zero, List.countP_cons, List.countP_cons]
      cases q y <;> cases q z <;> simp
    | succ i =>
      have := ih hx
      rw [List.set_cons_succ, List.countP_cons, List.countP_cons]
      omega

/-- Without the entry at an index a count is lower by that entry. -/
theorem countP_eraseIdx {l : List α} {i : Nat} {x : α} (hx : l[i]? = some x) (q : α → Bool) :
    (l.eraseIdx i).countP q + (q x).toNat = l.countP q := by
  induction l generalizing i with
  | nil => cases hx
  | cons y l ih =>
    cases i with
    | zero =>
      obtain rfl := Option.some.inj hx
      rw [List.eraseIdx_cons_zero, List.countP_cons]
      cases q y <;> rfl
    | succ i =>
      have := ih hx
      rw [List.eraseIdx_cons_succ, List.countP_cons, List.countP_cons]
      omega

theorem map_modifyFirst {p : α → Bool} {f : α → α} {key : α → K}
    (hf : ∀ x, p x = true → key (f x) = key x) (l : List α) :
    (modifyFirst p f l).map key = l.map key := by
  induction l with
  | nil => rfl
  | cons x l ih =>
    rw [modifyFirst]
    split
    next hp => rw [List.map_cons, hf x hp, List.map_cons]
    next => rw [List.map_cons, ih, List.map_cons]

theorem find?_forall₂ {R : α → α → Prop} {p : α → Bool} (hp : ∀ x y, R x y → p x = p y)
    {l l' : List α} (h : List.Forall₂ R l l') : Option.Rel R (l.find? p) (l'.find? p) := by
  induction h with
  | nil => exact Option.Rel.none
  | @cons x y l l' hxy _ ih =>
    by_cases hx : p x
    · rw [List.find?_cons_of_pos hx, List.find?_cons_of_pos (hp x y hxy ▸ hx)]
      exact Option.Rel.some hxy
    · rw [List.find?_cons_of_neg hx, List.find?_cons_of_neg (hp x y hxy ▸ hx)]
      exact ih

/-- The entry that is found is found among those that are kept, when it is kept. -/
theorem find?_filter_of_pos {p q : α → Bool} {l : List α} {x : α} (h : l.find? q = some x) (hp : p x = true) :
    (l.filter p).find? q = some x := by
  induction l with
  | nil => cases h
  | cons y l ih =>
    rw [List.find?_cons] at h
    cases hq : q y with
    | true =>
      rw [hq] at h
      obtain rfl := Option.some.inj h
      rw [List.filter_cons_of_pos hp]
      exact List.find?_cons_of_pos hq
    | false =>
      rw [hq] at h
      have hqy : ¬q y = true := by rw [hq]; exact Bool.false_ne_true
      rw [List.filter_cons]
      split
      next => rw [List.find?_cons_of_neg hqy, ih h]
      next => exact ih h

theorem countP_forall₂ {R : α → α → Prop} {p : α → Bool} (hp : ∀ x y, R x y → p x = p y)
    {l l' : List α} (h : List.Forall₂ R l l') : l.countP p = l'.countP p := by
  induction h with
  | nil => rfl
  | @cons x y l l' hxy _ ih => rw [List.countP_cons, List.countP_cons, hp x y hxy, ih]

theorem map_forall₂ {R : α → α → Prop} {f : α → K} (hf : ∀ x y, R x y → f x = f y)
    {l l' : List α} (h : List.Forall₂ R l l') : l.map f = l'.map f := by
  induction h with
  | nil => rfl
  | @cons x y l l' hxy _ ih => rw [List.map_cons, List.map_cons, hf x y hxy, ih]

/-- What holds of an entry holds of the one that takes its place. -/
theorem mem_forall₂ {R : α → α → Prop} {P : α → Prop} (hp : ∀ x y, R x y → P x → P y) {l l' : List α}
    (h : List.Forall₂ R l l') (hl : ∀ x ∈ l, P x) : ∀ y ∈ l', P y := by
  induction h with
  | nil => exact hl
  | @cons x y l l' hxy _ ih =>
    obtain ⟨hx, hl⟩ := List.forall_mem_cons.mp hl
    exact List.forall_mem_cons.mpr ⟨hp x y hxy hx, ih hl⟩

variable [DecidableEq K]

theorem mem_of_find?_key {key : α → K} {k : K} {l : List α} {x : α}
    (h : (l.find? fun y => key y = k) = some x) : x ∈ l ∧ key x = k :=
  ⟨List.mem_of_find?_eq_some h, of_decide_eq_true (List.find?_some (p := fun y => decide (key y = k)) h)⟩

/-- With different keys, every entry is found under its key. -/
theorem find?_key {key : α → K} {l : List α} (h : (l.map key).Nodup) {x : α} (hx : x ∈ l) :
    (l.find? fun y => key y = key x) = some x := by
  induction l with
  | nil => cases hx
  | cons y l ih =>
    rw [List.map_cons, List.nodup_cons] at h
    obtain rfl | hx := List.mem_cons.mp hx
    · exact List.find?_cons_of_pos (decide_eq_true rfl)
    · have hne : key y ≠ key x := fun hk => h.1 (hk ▸ List.mem_map_of_mem hx)
      rw [List.find?_cons_of_neg (by simpa using hne)]
      exact ih h.2 hx

theorem find?_modifyFirst_self {key : α → K} {f : α → α} (hf : ∀ x, key (f x) = key x) (k : K)
    (l : List α) : (modifyFirst (fun x => decide (key x = k)) f l).find? (fun x => key x = k) =
      (l.find? fun x => key x = k).map f := by
  induction l with
  | nil => rfl
  | cons x l ih =>
    by_cases hx : key x = k
    · simp [modifyFirst, hx, hf]
    · simp [modifyFirst, hx, ih]

theorem find?_modifyFirst_of_ne {key : α → K} {f : α → α} (hf : ∀ x, key (f x) = key x) {k k' : K}
    (hne : k' ≠ k) (l : List α) :
    (modifyFirst (fun x => decide (key x = k)) f l).find? (fun x => key x = k') =
      l.find? fun x => key x = k' := by
  induction l with
  | nil => rfl
  | cons x l ih =>
    by_cases hx : key x = k
    · simp [modifyFirst, hx, hf, hne.symm]
    · by_cases hx' : key x = k'
      · simp [modifyFirst, hx', hne]
      · simp [modifyFirst, hx, hx', ih]

/-- All entries with a key are erased. -/
def erase (key : α → K) (k : K) (l : List α) : List α := l.filter fun x => key x ≠ k

theorem mem_erase {key : α → K} {k : K} {l : List α} {x : α} :
    x ∈ erase key k l ↔ x ∈ l ∧ key x ≠ k := by
  rw [erase, List.mem_filter, decide_eq_true_iff]

theorem find?_erase_self (key : α → K) (k : K) (l : List α) :
    (erase key k l).find? (fun x => key x = k) = none := by
  apply List.find?_eq_none.mpr
  intro x hx hk
  exact (mem_erase.mp hx).2 (of_decide_eq_true hk)

theorem find?_erase_of_ne (key : α → K) {k k' : K} (hne : k' ≠ k) (l : List α) :
    (erase key k l).find? (fun x => key x = k') = l.find? fun x => key x = k' := by
  rw [erase, List.find?_filter]
  congr 1
  funext x
  by_cases hx : key x = k' <;> simp [hx, hne]

theorem nodup_erase {key : α → K} {l : List α} (h : (l.map key).Nodup) (k : K) :
    ((erase key k l).map key).Nodup :=
  h.sublist (List.filter_sublist.map key)

/-- With different keys, erasing lowers a count by the one entry that is erased. -/
theorem countP_erase {key : α → K} {l : List α} (h : (l.map key).Nodup) {x : α} (hx : x ∈ l)
    (q : α → Bool) : (erase key (key x) l).countP q + (if q x then 1 else 0) = l.countP q := by
  induction l with
  | nil => cases hx
  | cons y l ih =>
    rw [List.map_cons, List.nodup_cons] at h
    obtain ⟨hy, hnd⟩ := h
    obtain rfl | hx := List.mem_cons.mp hx
    · have hall : erase key (key x) l = l := by
        refine List.filter_eq_self.mpr fun z hz => decide_eq_true fun hk => hy ?_
        rw [← hk]
        exact List.mem_map_of_mem hz
      have hcons : erase key (key x) (x :: l) = erase key (key x) l :=
        List.filter_cons_of_neg (by simp)
      rw [hcons, hall, List.countP_cons]
    · have hne : key y ≠ key x := fun hk => hy (hk ▸ List.mem_map_of_mem hx)
      have hcons : erase key (key x) (y :: l) = y :: erase key (key x) l :=
        List.filter_cons_of_pos (decide_eq_true hne)
      rw [hcons, List.countP_cons, List.countP_cons]
      have := ih hnd hx
      omega

/-- An element takes the place of the one with its key, or comes last. -/
def assign (key : α → K) (x : α) : List α → List α
  | [] => [x]
  | y :: l => if key y = key x then x :: l else y :: assign key x l

theorem find?_assign_self (key : α → K) (x : α) (l : List α) :
    (assign key x l).find? (fun y => key y = key x) = some x := by
  induction l with
  | nil => exact List.find?_cons_of_pos (decide_eq_true rfl)
  | cons y l ih =>
    rw [assign]
    split
    next => exact List.find?_cons_of_pos (decide_eq_true rfl)
    next hy => rw [List.find?_cons_of_neg (by simpa using hy), ih]

theorem find?_assign_of_ne (key : α → K) {k : K} {x : α} (hne : key x ≠ k) (l : List α) :
    (assign key x l).find? (fun y => key y = k) = l.find? fun y => key y = k := by
  induction l with
  | nil => exact List.find?_cons_of_neg (by simpa using hne)
  | cons y l ih =>
    rw [assign]
    split
    next hy =>
      have hyk : key y ≠ k := hy ▸ hne
      rw [List.find?_cons_of_neg (by simpa using hne), List.find?_cons_of_neg (by simpa using hyk)]
    next => rw [List.find?_cons, List.find?_cons, ih]

theorem mem_assign {key : α → K} {x y : α} {l : List α} (h : y ∈ assign key x l) : y = x ∨ y ∈ l := by
  induction l with
  | nil => exact Or.inl (List.mem_singleton.mp h)
  | cons z l ih =>
    rw [assign] at h
    split at h
    next =>
      obtain rfl | h := List.mem_cons.mp h
      · exact Or.inl rfl
      · exact Or.inr (List.mem_cons_of_mem _ h)
    next =>
      obtain rfl | h := List.mem_cons.mp h
      · exact Or.inr List.mem_cons_self
      · exact (ih h).imp_right (List.mem_cons_of_mem _)

theorem assign_append {key : α → K} {x y : α} {l : List α} (h : ∀ z ∈ l, key z ≠ key x) (hy : key y = key x) :
    assign key x (l ++ [y]) = l ++ [x] := by
  induction l with
  | nil => exact if_pos hy
  | cons z l ih =>
    obtain ⟨hz, hl⟩ := List.forall_mem_cons.mp h
    rw [List.cons_append, assign, if_neg hz, ih hl, List.cons_append]

theorem assign_new {key : α → K} {x : α} {l : List α} (h : ∀ z ∈ l, key z ≠ key x) : assign key x l = l ++ [x] := by
  induction l with
  | nil => rfl
  | cons z l ih =>
    obtain ⟨hz, hl⟩ := List.forall_mem_cons.mp h
    rw [assign, if_neg hz, ih hl, List.cons_append]

/-- Elements with different keys come one after the other. -/
theorem foldl_assign {key : α → K} {l l' : List α} (h : ((l ++ l').map key).Nodup) :
    l'.foldl (fun a x => assign key x a) l = l ++ l' := by
  induction l' generalizing l with
  | nil => exact (List.append_nil l).symm
  | cons x l' ih =>
    have hnew : ∀ z ∈ l, key z ≠ key x := by
      rw [List.map_append, List.nodup_append] at h
      exact fun z hz => h.2.2 _ (List.mem_map_of_mem hz) _ List.mem_cons_self
    rw [List.append_cons] at h ⊢
    rw [List.foldl_cons, assign_new hnew, ih h]

/-- What is kept of the entries is found under the same keys. -/
theorem find?_filterMap {β : Type*} {key : α → K} {key' : β → K} {g : α → Option β}
    (hg : ∀ x y, g x = some y → key' y = key x) {l : List α} (h : (l.map key).Nodup) (k : K) :
    ((l.filterMap g).find? fun y => key' y = k) = (l.find? fun x => key x = k).bind g := by
  induction l with
  | nil => rfl
  | cons x l ih =>
    rw [List.map_cons, List.nodup_cons] at h
    have hrest : key x = k → ((l.filterMap g).find? fun y => key' y = k) = none := by
      intro hk
      rw [ih h.2, List.find?_eq_none.mpr fun z hz heq => h.1 ?_, Option.bind_none]
      rw [hk, ← of_decide_eq_true heq]
      exact List.mem_map_of_mem hz
    have hkey (y : β) (hgx : g x = some y) : decide (key' y = k) = decide (key x = k) := by rw [hg x y hgx]
    by_cases hk : key x = k
    · have hfind : ((x :: l).find? fun x => key x = k) = some x := List.find?_cons_of_pos (decide_eq_true hk)
      rw [hfind, Option.bind_some]
      cases hgx : g x with
      | none => rw [List.filterMap_cons_none hgx, hrest hk]
      | some y =>
        rw [List.filterMap_cons_some hgx]
        exact List.find?_cons_of_pos (by rw [hkey y hgx, decide_eq_true hk])
    · have hfind : ((x :: l).find? fun x => key x = k) = l.find? fun x => key x = k :=
        List.find?_cons_of_neg (by simpa using hk)
      rw [hfind, ← ih h.2]
      cases hgx : g x with
      | none => rw [List.filterMap_cons_none hgx]
      | some y =>
        rw [List.filterMap_cons_some hgx]
        exact List.find?_cons_of_neg (by rw [hkey y hgx]; simpa using hk)

end Dcpp.Keyed
