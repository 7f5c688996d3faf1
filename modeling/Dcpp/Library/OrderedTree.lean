import Dcpp.Library.OrderedSet
import Dcpp.Library.Tree

-- Trees in which the children of a node are a set ordered by a key of their labels. A path is the keys on
-- the way from the root, and what ties with it is the same path.
namespace Dcpp.OrderedTree

open OrderedSet

variable {α β : Type*} (lt : β → β → Prop) [DecidableRel lt] (key : α → β)

def child (k : β) (t : Tree α) : Option (Tree α) := find lt (fun c : Tree α => key c.label) k t.children

def look : List β → Tree α → Option (Tree α)
  | [], t => some t
  | k :: ks, t => (child lt key k t).bind (look ks)

def labelAt (q : List β) (t : Tree α) : Option α := (look lt key q t).map Tree.label

def putChild (k : β) (c t : Tree α) : Tree α := .node t.label (put lt (fun c : Tree α => key c.label) k c t.children)

/-- The tree with a change at the end of a path, on which the nodes that were missing are new. -/
def alterAt (new : β → α) (g : Tree α → Tree α) : List β → Tree α → Tree α
  | [], t => g t
  | k :: ks, t => putChild lt key k (alterAt new g ks ((child lt key k t).getD (.node (new k) []))) t

/-- `alterAt` with a change of the label. -/
def visit (new : β → α) (o : α → α) : List β → Tree α → Tree α :=
  alterAt lt key new fun t => .node (o t.label) t.children

/-- Every set in the tree is in order, and every label is as `P` asks for. -/
def WellOrdered (P : α → Prop) : Tree α → Prop :=
  Tree.All fun l cs => P l ∧ Sorted lt (fun c : Tree α => key c.label) cs

/-- The path `q` is one on the way along `p`. -/
def OnWay : List β → List β → Prop
  | [], _ => True
  | _ :: _, [] => False
  | k' :: q, k :: p => Tie lt k k' ∧ OnWay q p

instance OnWay.decide : (q p : List β) → Decidable (OnWay lt q p)
  | [], _ => isTrue trivial
  | _ :: _, [] => isFalse id
  | k' :: q, k :: p =>
    have := OnWay.decide q p
    inferInstanceAs (Decidable (Tie lt k k' ∧ OnWay lt q p))

/-- The path `q` is `p`. -/
def SamePath (q p : List β) : Prop := OnWay lt q p ∧ q.length = p.length

instance (q p : List β) : Decidable (SamePath lt q p) := inferInstanceAs (Decidable (_ ∧ _))

/-- Visits one after the other. -/
def visitAll (new : β → α) (vs : List (List β × (α → α))) (t : Tree α) : Tree α :=
  vs.foldl (fun t v => visit lt key new v.2 v.1 t) t

/-- The node that visits make at `q` if there is none. -/
def newAt (new : β → α) (q : List β) (ps : List (List β)) : Option α :=
  ps.findSome? fun p => if OnWay lt q p then (p.take q.length).getLast?.map new else none

/-- What visits make of the label at `q`. -/
def changeAt (q : List β) (vs : List (List β × (α → α))) (l : α) : α :=
  vs.foldl (fun l v => if SamePath lt q v.1 then v.2 l else l) l

/-- What a visit along `p` makes of the label at `q`. -/
def touch (new : β → α) (o : α → α) (p q : List β) (l : Option α) : Option α :=
  if OnWay lt q p then (l.or ((p.take q.length).getLast?.map new)).map (if q.length = p.length then o else id)
  else l

variable {lt key} {new : β → α} {P : α → Prop}

omit [DecidableRel lt] in
theorem onWay_cons {k k' : β} {p q : List β} : OnWay lt (k' :: q) (k :: p) ↔ Tie lt k k' ∧ OnWay lt q p := Iff.rfl

@[simp] theorem labelAt_nil (t : Tree α) : labelAt lt key [] t = some t.label := rfl

theorem labelAt_cons (k : β) (q : List β) (t : Tree α) :
    labelAt lt key (k :: q) t = (child lt key k t).bind (labelAt lt key q) := by
  rw [labelAt, look, Option.map_bind]
  rfl

theorem child_tie {k : β} {c t : Tree α} (h : child lt key k t = some c) : Tie lt (key c.label) k :=
  (find_tie h :)

@[simp] theorem label_putChild (k : β) (c t : Tree α) : (putChild lt key k c t).label = t.label := rfl

theorem key_alterAt {g : Tree α → Tree α} (hg : ∀ t, key (g t).label = key t.label) (p : List β) (t : Tree α) :
    key (alterAt lt key new g p t).label = key t.label := by
  cases p with
  | nil => exact hg t
  | cons k p => rfl

theorem alterAt_append (g : Tree α → Tree α) (p q : List β) (t : Tree α) :
    alterAt lt key new g (p ++ q) t = alterAt lt key new (alterAt lt key new g q) p t := by
  induction p generalizing t with
  | nil => rfl
  | cons k p ih => rw [List.cons_append, alterAt, ih, alterAt]

theorem WellOrdered.child {k : β} {c t : Tree α} (h : WellOrdered lt key P t)
    (hc : OrderedTree.child lt key k t = some c) : WellOrdered lt key P c := by
  obtain ⟨_, hcs⟩ := h
  exact hcs c (find_mem hc)

/-- The label that a visit finds below the child it goes into is the one it finds from the parent. -/
theorem labelAt_child_or {k : β} {p q : List β} (hq : OnWay lt q p) (t : Tree α) :
    (labelAt lt key q ((child lt key k t).getD (.node (new k) []))).or ((p.take q.length).getLast?.map new) =
      ((child lt key k t).bind (labelAt lt key q)).or (((k :: p).take (q.length + 1)).getLast?.map new) := by
  rw [List.take_succ_cons]
  cases q with
  | nil => cases child lt key k t <;> rfl
  | cons k' q =>
    cases p with
    | nil => exact hq.elim
    | cons k₁ p =>
      rw [List.length_cons, List.take_succ_cons, List.getLast?_cons_cons]
      cases child lt key k t <;> rfl

theorem labelAt_child_of_not {k : β} {p q : List β} (hq : ¬OnWay lt q p) (t : Tree α) :
    labelAt lt key q ((child lt key k t).getD (.node (new k) [])) = (child lt key k t).bind (labelAt lt key q) := by
  cases child lt key k t with
  | some c => rfl
  | none =>
    cases q with
    | nil => exact (hq trivial).elim
    | cons k' q => rfl

theorem WellOrdered.label {q : List β} {t : Tree α} (h : WellOrdered lt key P t) {l : α}
    (hl : labelAt lt key q t = some l) : P l := by
  induction q generalizing t with
  | nil =>
    obtain ⟨hp, _⟩ := h
    obtain rfl := Option.some.inj hl
    exact hp.1
  | cons k q ih =>
    rw [labelAt_cons] at hl
    cases hc : OrderedTree.child lt key k t with
    | none =>
      rw [hc] at hl
      cases hl
    | some c =>
      rw [hc] at hl
      exact ih (h.child hc) hl

theorem visitAll_cons (v : List β × (α → α)) (vs : List (List β × (α → α))) (t : Tree α) :
    visitAll lt key new (v :: vs) t = visitAll lt key new vs (visit lt key new v.2 v.1 t) := rfl

theorem visitAll_append (vs vs' : List (List β × (α → α))) (t : Tree α) :
    visitAll lt key new (vs ++ vs') t = visitAll lt key new vs' (visitAll lt key new vs t) := List.foldl_append

theorem changeAt_append (q : List β) (vs vs' : List (List β × (α → α))) (l : α) :
    changeAt lt q (vs ++ vs') l = changeAt lt q vs' (changeAt lt q vs l) := List.foldl_append

theorem newAt_append (q : List β) (ps ps' : List (List β)) :
    newAt lt new q (ps ++ ps') = (newAt lt new q ps).or (newAt lt new q ps') := List.findSome?_append

omit [DecidableRel lt] in
/-- A path that is not the root is made by a visit that passes by. -/
theorem isSome_take {q p : List β} (h : OnWay lt q p) (hq : q ≠ []) :
    ((p.take q.length).getLast?.map new).isSome = true := by
  cases q with
  | nil => exact absurd rfl hq
  | cons k q =>
    cases p with
    | nil => exact h.elim
    | cons k' p =>
      rw [List.length_cons, List.take_succ_cons, Option.isSome_map, List.getLast?_isSome]
      exact List.cons_ne_nil _ _

theorem isSome_newAt {q : List β} {ps : List (List β)} (hq : q ≠ []) {p : List β} (hp : p ∈ ps) (h : OnWay lt q p) :
    (newAt lt new q ps).isSome = true := by
  rw [newAt, List.findSome?_isSome_iff]
  exact ⟨p, hp, by rw [if_pos h]; exact isSome_take h hq⟩

theorem newAt_eq_none {q : List β} {ps : List (List β)} (h : ∀ p ∈ ps, ¬OnWay lt q p) : newAt lt new q ps = none :=
  List.findSome?_eq_none_iff.mpr fun p hp => if_neg (h p hp)

theorem changeAt_eq {q : List β} {vs : List (List β × (α → α))} (h : ∀ v ∈ vs, ¬SamePath lt q v.1) (l : α) :
    changeAt lt q vs l = l := by
  induction vs with
  | nil => rfl
  | cons v vs ih =>
    rw [changeAt, List.foldl_cons, if_neg (h v List.mem_cons_self)]
    exact ih fun v' hv' => h v' (List.mem_cons_of_mem _ hv')

variable [IsStrictWeakOrder β lt]

theorem child_putChild {k : β} {c : Tree α} (hc : Tie lt (key c.label) k) (k' : β) (t : Tree α) :
    child lt key k' (putChild lt key k c t) = if Tie lt k k' then some c else child lt key k' t :=
  find_put (x := c) hc k' t.children

theorem putChild_putChild {k : β} {d : Tree α} (hd : Tie lt (key d.label) k) (c t : Tree α) :
    putChild lt key k c (putChild lt key k d t) = putChild lt key k c t :=
  congrArg (Tree.node t.label) (put_put (y := d) hd c t.children)

section

omit [DecidableRel lt]

theorem OnWay.refl (q : List β) : OnWay lt q q := by
  induction q with
  | nil => trivial
  | cons k q ih => exact ⟨Tie.refl k, ih⟩

theorem SamePath.refl (q : List β) : SamePath lt q q := ⟨OnWay.refl q, rfl⟩

/-- A path on the way along what is below `b₁` and below `b₂` is on the way to both, if neither of them is on the
way to the other. -/
theorem onWay_fork {q b₁ b₂ r₁ r₂ : List β} (h₁ : OnWay lt q (b₁ ++ r₁)) (h₂ : OnWay lt q (b₂ ++ r₂)) :
    OnWay lt b₁ b₂ ∨ OnWay lt b₂ b₁ ∨ OnWay lt q b₁ ∧ OnWay lt q b₂ := by
  induction q generalizing b₁ b₂ with
  | nil => exact Or.inr (Or.inr ⟨trivial, trivial⟩)
  | cons k q ih =>
    cases b₁ with
    | nil => exact Or.inl trivial
    | cons k₁ b₁ =>
      cases b₂ with
      | nil => exact Or.inr (Or.inl trivial)
      | cons k₂ b₂ =>
        rcases ih h₁.2 h₂.2 with h | h | h
        · exact Or.inl ⟨h₂.1.trans h₁.1.symm, h⟩
        · exact Or.inr (Or.inl ⟨h₁.1.trans h₂.1.symm, h⟩)
        · exact Or.inr (Or.inr ⟨⟨h₁.1, h.1⟩, h₂.1, h.2⟩)

theorem SamePath.onWay {q b₁ b₂ : List β} (h₁ : SamePath lt q b₁) (h₂ : OnWay lt q b₂) : OnWay lt b₁ b₂ := by
  obtain ⟨hway, hlen⟩ := h₁
  induction q generalizing b₁ b₂ with
  | nil =>
    rw [List.eq_nil_of_length_eq_zero hlen.symm]
    trivial
  | cons k q ih =>
    cases b₁ with
    | nil => exact hway.elim
    | cons k₁ b₁ =>
      cases b₂ with
      | nil => exact h₂.elim
      | cons k₂ b₂ =>
        exact ⟨h₂.1.trans hway.1.symm, ih h₂.2 hway.2 (Nat.succ.inj hlen)⟩

omit [IsStrictWeakOrder β lt] in
theorem OnWay.length_le {q p : List β} (h : OnWay lt q p) : q.length ≤ p.length := by
  induction q generalizing p with
  | nil => exact Nat.zero_le _
  | cons k q ih =>
    cases p with
    | nil => exact h.elim
    | cons k' p => exact Nat.succ_le_succ (ih h.2)

end

section

variable (hnew : ∀ k, key (new k) = k) {g g₂ : Tree α → Tree α} (hg : ∀ t, key (g t).label = key t.label)
include hnew hg

/-- What is found at a key, or a new node, has that key. -/
theorem tie_alterAt (k : β) (p : List β) (t : Tree α) :
    Tie lt (key (alterAt lt key new g p ((child lt key k t).getD (.node (new k) []))).label) k := by
  rw [key_alterAt hg]
  cases h : child lt key k t with
  | none =>
    rw [Option.getD_none, Tree.label_node, hnew]
    exact Tie.refl k
  | some c => exact child_tie h

/-- Two changes at a path are one. -/
theorem alterAt_alterAt (p : List β) (t : Tree α) :
    alterAt lt key new g₂ p (alterAt lt key new g p t) = alterAt lt key new (fun t => g₂ (g t)) p t := by
  induction p generalizing t with
  | nil => rfl
  | cons k p ih =>
    rw [alterAt, alterAt, child_putChild (tie_alterAt hnew hg k p t), if_pos (Tie.refl k), Option.getD_some, ih,
      putChild_putChild (tie_alterAt hnew hg k p t), alterAt]

end

section

variable (hnew : ∀ k, key (new k) = k) {o : α → α} (ho : ∀ l, key (o l) = key l)

include hnew ho

/-- A visit is seen at every path by itself. -/
theorem labelAt_visit (p q : List β) (t : Tree α) :
    labelAt lt key q (visit lt key new o p t) = touch lt new o p q (labelAt lt key q t) := by
  induction p generalizing q t with
  | nil =>
    cases q with
    | nil => rfl
    | cons k' q => rfl
  | cons k p ih =>
    cases q with
    | nil => rfl
    | cons k' q =>
      have htie : Tie lt (key (alterAt lt key new (fun t => .node (o t.label) t.children) p
          ((child lt key k t).getD (.node (new k) []))).label) k := 
            tie_alterAt hnew (g := fun t => .node (o t.label) t.children) (fun t => ho t.label) k p t
      rw [visit, alterAt, labelAt_cons, child_putChild htie, labelAt_cons]
      by_cases hk : Tie lt k k'
      · have hchild : child lt key k t = child lt key k' t := find_congr hk t.children
        rw [if_pos hk, Option.bind_some, ← hchild]
        refine (ih q _).trans ?_
        rw [touch, touch]
        by_cases hq : OnWay lt q p
        · rw [if_pos hq, if_pos (onWay_cons.mpr ⟨hk, hq⟩), labelAt_child_or hq, List.length_cons, List.length_cons]
          simp only [Nat.add_right_cancel_iff]
        · rw [if_neg hq, if_neg fun h => hq h.2, labelAt_child_of_not hq]
      · rw [if_neg hk, touch, if_neg fun h => hk h.1]

end

section

variable {g : Tree α → Tree α}

theorem WellOrdered.putChild {k : β} {c t : Tree α} (h : WellOrdered lt key P t) (hc : WellOrdered lt key P c)
    (hk : Tie lt (key c.label) k) : WellOrdered lt key P (putChild lt key k c t) := by
  obtain ⟨hp, hcs⟩ := h
  refine Tree.All.node ⟨hp.1, hp.2.put hk⟩ fun d hd => ?_
  rcases mem_put.mp hd with rfl | ⟨hd, _⟩
  · exact hc
  · exact hcs d hd

theorem WellOrdered.alterAt (hnew : ∀ k, key (new k) = k) (hg : ∀ t, key (g t).label = key t.label)
    (hP : ∀ k, P (new k)) (hgo : ∀ t, WellOrdered lt key P t → WellOrdered lt key P (g t)) {p : List β} {t : Tree α}
    (h : WellOrdered lt key P t) : WellOrdered lt key P (alterAt lt key new g p t) := by
  induction p generalizing t with
  | nil => exact hgo t h
  | cons k p ih =>
    refine h.putChild (ih ?_) (tie_alterAt hnew hg k p t)
    cases hc : OrderedTree.child lt key k t with
    | some c => exact h.child hc
    | none => exact Tree.All.node ⟨hP k, List.Pairwise.nil⟩ fun _ hd => nomatch hd

end

/-- Trees with the same labels at the same paths are the same. -/
theorem WellOrdered.ext {t t' : Tree α} (h : WellOrdered lt key P t) (h' : WellOrdered lt key P t')
    (hl : ∀ q, labelAt lt key q t = labelAt lt key q t') : t = t' := by
  induction t using Tree.induction generalizing t' with
  | h l cs ih =>
    obtain ⟨l', cs'⟩ := t'
    obtain ⟨hp, hcs⟩ := h
    obtain ⟨hp', hcs'⟩ := h'
    have hlabel : l = l' := Option.some.inj (hl [])
    have hchildren : cs = cs' := by
      refine hp.2.ext hp'.2 fun k => ?_
      have hk : ∀ q, (find lt (fun c : Tree α => key c.label) k cs).bind (labelAt lt key q) =
          (find lt (fun c : Tree α => key c.label) k cs').bind (labelAt lt key q) := fun q => by
        have := hl (k :: q)
        rwa [labelAt_cons, labelAt_cons] at this
      cases hf : find lt (fun c : Tree α => key c.label) k cs with
      | none =>
        cases hf' : find lt (fun c : Tree α => key c.label) k cs' with
        | none => rfl
        | some c' =>
          have := hk []
          rw [hf, hf'] at this
          cases this
      | some c =>
        cases hf' : find lt (fun c : Tree α => key c.label) k cs' with
        | none =>
          have := hk []
          rw [hf, hf'] at this
          cases this
        | some c' =>
          rw [hf, hf'] at hk
          rw [ih c (find_mem hf) (hcs c (find_mem hf)) (hcs' c' (find_mem hf')) hk]
    rw [hlabel, hchildren]

/-- Visits are seen at every path by themselves. -/
theorem labelAt_visitAll (hnew : ∀ k, key (new k) = k) {vs : List (List β × (α → α))}
    (hvs : ∀ v ∈ vs, ∀ l, key (v.2 l) = key l) (q : List β) (t : Tree α) :
    labelAt lt key q (visitAll lt key new vs t) =
      ((labelAt lt key q t).or (newAt lt new q (vs.map Prod.fst))).map (changeAt lt q vs) := by
  induction vs generalizing t with
  | nil =>
    change _ = ((labelAt lt key q t).or none).map id
    rw [Option.or_none, Option.map_id]
    rfl
  | cons v vs ih =>
    rw [visitAll_cons, ih fun v' hv' => hvs v' (List.mem_cons_of_mem _ hv'),
      labelAt_visit hnew (hvs v List.mem_cons_self), touch, List.map_cons]
    by_cases h : OnWay lt q v.1
    · have hsome : ((labelAt lt key q t).or ((v.1.take q.length).getLast?.map new)).isSome = true := by
        cases q with
        | nil => rfl
        | cons k q => rw [Option.isSome_or, isSome_take h (List.cons_ne_nil _ _), Bool.or_true]
      obtain ⟨l, hl⟩ := Option.isSome_iff_exists.mp hsome
      have hnewAt : newAt lt new q (v.1 :: vs.map Prod.fst) =
          ((v.1.take q.length).getLast?.map new).or (newAt lt new q (vs.map Prod.fst)) := by
        rw [newAt, List.findSome?_cons, if_pos h]
        cases (v.1.take q.length).getLast?.map new <;> rfl
      rw [if_pos h, hnewAt, ← Option.or_assoc, hl, Option.map_some, Option.some_or, Option.some_or, Option.map_some,
        Option.map_some, changeAt, changeAt, List.foldl_cons]
      by_cases hlen : q.length = v.1.length
      · rw [if_pos hlen, if_pos (show SamePath lt q v.1 from ⟨h, hlen⟩)]
      · rw [if_neg hlen, if_neg fun hs : SamePath lt q v.1 => hlen hs.2]
        rfl
    · have hnewAt : newAt lt new q (v.1 :: vs.map Prod.fst) = newAt lt new q (vs.map Prod.fst) := by
        rw [newAt, List.findSome?_cons, if_neg h]
        rfl
      have hchange : changeAt lt q (v :: vs) = changeAt lt q vs := by
        funext l
        rw [changeAt, List.foldl_cons, if_neg fun hs : SamePath lt q v.1 => h hs.1]
        rfl
      rw [if_neg h, hnewAt, hchange]

/-- Visits below a path are a change at that path. -/
theorem alterAt_visitAll (hnew : ∀ k, key (new k) = k) {vs : List (List β × (α → α))}
    (hvs : ∀ v ∈ vs, ∀ l, key (v.2 l) = key l) {g : Tree α → Tree α} (hg : ∀ t, key (g t).label = key t.label)
    (p : List β) (t : Tree α) :
    alterAt lt key new (fun t => visitAll lt key new vs (g t)) p t =
      visitAll lt key new (vs.map fun v => (p ++ v.1, v.2)) (alterAt lt key new g p t) := by
  induction vs generalizing g with
  | nil => rfl
  | cons v vs ih =>
    have hv : ∀ t : Tree α, key (visit lt key new v.2 v.1 t).label = key t.label :=
      key_alterAt (fun t => hvs v List.mem_cons_self t.label) v.1
    rw [List.map_cons, visitAll_cons, visit, alterAt_append, alterAt_alterAt hnew hg]
    exact ih (fun v' hv' => hvs v' (List.mem_cons_of_mem _ hv')) fun t => (hv (g t)).trans (hg t)

theorem WellOrdered.visitAll (hnew : ∀ k, key (new k) = k) (hP : ∀ k, P (new k))
    {vs : List (List β × (α → α))} (hvs : ∀ v ∈ vs, ∀ l, key (v.2 l) = key l) (hPvs : ∀ v ∈ vs, ∀ l, P l → P (v.2 l))
    {t : Tree α} (h : WellOrdered lt key P t) : WellOrdered lt key P (visitAll lt key new vs t) := by
  induction vs generalizing t with
  | nil => exact h
  | cons v vs ih =>
    refine ih (fun v' hv' => hvs v' (List.mem_cons_of_mem _ hv')) (fun v' hv' => hPvs v' (List.mem_cons_of_mem _ hv')) ?_
    refine h.alterAt (g := fun t => .node (v.2 t.label) t.children) hnew
      (fun t => hvs v List.mem_cons_self t.label) hP fun t ht => ?_
    obtain ⟨⟨hp, hs⟩, hcs⟩ := ht
    exact Tree.All.node ⟨hPvs v List.mem_cons_self _ hp, hs⟩ hcs

end Dcpp.OrderedTree
