import Mathlib.Data.List.Basic
import Mathlib.Tactic.Common

namespace Dcpp

/-- Trees whose nodes have a label and their children in order. -/
inductive Tree (α : Type*) where
  | node (label : α) (children : List (Tree α))

namespace Tree

variable {α : Type*}

def label : Tree α → α
  | node l _ => l

def children : Tree α → List (Tree α)
  | node _ cs => cs

@[simp] theorem label_node (l : α) (cs : List (Tree α)) : (node l cs).label = l := rfl
@[simp] theorem children_node (l : α) (cs : List (Tree α)) : (node l cs).children = cs := rfl

/-- What every node has when its children have it holds of every tree. -/
theorem induction {P : Tree α → Prop} (h : ∀ l cs, (∀ c ∈ cs, P c) → P (node l cs)) (t : Tree α) : P t := by
  refine @Tree.rec α P (fun cs => ∀ c ∈ cs, P c) h ?_ ?_ t
  · intro c hc
    cases hc
  · intro c cs hc hcs c' hc'
    cases hc' with
    | head => exact hc
    | tail _ hmem => exact hcs c' hmem

mutual

def depth : Tree α → Nat
  | node _ cs => depths cs + 1

def depths : List (Tree α) → Nat
  | [] => 0
  | c :: cs => max (depth c) (depths cs)

end

theorem depth_le_depths {c : Tree α} {cs : List (Tree α)} (h : c ∈ cs) : c.depth ≤ depths cs := by
  induction cs with
  | nil => cases h
  | cons c' cs ih =>
    rw [depths]
    cases h with
    | head => exact Nat.le_max_left _ _
    | tail _ hmem => exact Nat.le_trans (ih hmem) (Nat.le_max_right _ _)

/-- Every node has the property, which may look at the children. -/
inductive All (p : α → List (Tree α) → Prop) : Tree α → Prop where
  | node {l : α} {cs : List (Tree α)} : p l cs → (∀ c ∈ cs, All p c) → All p (node l cs)

/-- The tree with one more child, which comes last. -/
def add (t c : Tree α) : Tree α := node t.label (t.children ++ [c])

@[simp] theorem add_node (l : α) (cs : List (Tree α)) (c : Tree α) : (node l cs).add c = node l (cs ++ [c]) := rfl

/-- A node of a tree that is being built, and those above it, which do not have it yet. -/
structure Place (α : Type*) where
  cur : Tree α
  above : List (Tree α)

namespace Place

def add (p : Place α) (c : Tree α) : Place α := { p with cur := p.cur.add c }

def enter (p : Place α) (c : Tree α) : Place α := ⟨c, p.cur :: p.above⟩

def leave (p : Place α) : Option (Place α) :=
  match p.above with
  | [] => none
  | t :: above => some ⟨t.add p.cur, above⟩

/-- The whole tree. -/
def root (p : Place α) : Tree α := p.above.foldl (fun c t => t.add c) p.cur

end Place

end Tree

end Dcpp
