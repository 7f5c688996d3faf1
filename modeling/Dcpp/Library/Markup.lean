import Mathlib.Data.List.Basic
import Mathlib.Tactic.Common

-- Texts with labelled elements: their nesting, and what stands inside of them.
namespace Dcpp.Markup

variable {L C : Type*}

inductive Token (L C : Type*) where
  | opening (l : L)
  | closing (l : L)
  | text (t : List C)

/-- What is left without the tags. -/
def plain (ts : List (Token L C)) : List C :=
  ts.flatMap fun
    | .text t => t
    | _ => []

@[simp] theorem plain_append (ts us : List (Token L C)) : plain (ts ++ us) = plain ts ++ plain us := by
  simp [plain]

section

variable [DecidableEq L]

/-- The elements that are open behind the tokens, the last one first; there is none where a tag closes another one. -/
def nest : List L → List (Token L C) → Option (List L)
  | stack, [] => some stack
  | stack, .text _ :: ts => nest stack ts
  | stack, .opening l :: ts => nest (l :: stack) ts
  | [], .closing _ :: _ => none
  | l :: stack, .closing l' :: ts => if l = l' then nest stack ts else none

/-- Every closing tag closes the last element that is open, and none is left open. -/
def WellNested (ts : List (Token L C)) : Prop := nest [] ts = some []

/-- The text inside the elements with a label, behind tokens that have left some elements open. -/
def inside (l : L) : List L → List (Token L C) → List C
  | _, [] => []
  | stack, .text t :: ts => (if l ∈ stack then t else []) ++ inside l stack ts
  | stack, .opening l' :: ts => inside l (l' :: stack) ts
  | stack, .closing _ :: ts => inside l stack.tail ts

theorem nest_append (stack : List L) (ts us : List (Token L C)) :
    nest stack (ts ++ us) = (nest stack ts).bind fun stack => nest stack us := by
  fun_induction nest stack ts with
  | case1 => rfl
  | case2 stack t ts ih => simpa only [List.cons_append, nest] using ih
  | case3 stack l ts ih => simpa only [List.cons_append, nest] using ih
  | case4 => rfl
  | case5 stack ts l ih => simpa only [List.cons_append, nest, if_true] using ih
  | case6 l stack l' ts h => simp only [List.cons_append, nest, h, if_false, Option.bind_none]

theorem inside_append {l : L} {stack stack' : List L} {ts : List (Token L C)} (h : nest stack ts = some stack')
    (us : List (Token L C)) : inside l stack (ts ++ us) = inside l stack ts ++ inside l stack' us := by
  fun_induction nest stack ts with
  | case1 => rw [Option.some.inj h]; rfl
  | case2 stack t ts ih => simp only [List.cons_append, inside, ih h, List.append_assoc]
  | case3 stack l' ts ih => simp only [List.cons_append, inside, ih h]
  | case4 => cases h
  | case5 stack ts l' ih => simp only [List.cons_append, inside, List.tail_cons, ih h]
  | case6 => cases h

theorem nest_openings (stack ls : List L) :
    nest stack (ls.map .opening : List (Token L C)) = some (ls.reverse ++ stack) := by
  induction ls generalizing stack with
  | nil => rfl
  | cons l ls ih => simp [nest, ih]

theorem nest_closings (stack ls : List L) :
    nest (ls ++ stack) (ls.map .closing : List (Token L C)) = some stack := by
  induction ls with
  | nil => rfl
  | cons l ls ih => simpa [nest] using ih

theorem inside_openings (l : L) (stack ls : List L) : inside l stack (ls.map .opening : List (Token L C)) = [] := by
  induction ls generalizing stack with
  | nil => rfl
  | cons l' ls ih => exact ih _

theorem inside_closings (l : L) (stack ls : List L) : inside l stack (ls.map .closing : List (Token L C)) = [] := by
  induction ls generalizing stack with
  | nil => rfl
  | cons l' ls ih => exact ih _

end

theorem plain_openings (ls : List L) : plain (ls.map .opening : List (Token L C)) = [] := by
  simp [plain]

theorem plain_closings (ls : List L) : plain (ls.map .closing : List (Token L C)) = [] := by
  simp [plain]

end Dcpp.Markup
