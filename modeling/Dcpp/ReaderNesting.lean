import Mathlib.Data.List.Induction
import Dcpp.ReaderProgress

namespace Dcpp.SimpleXMLReader

open Incremental

/-- A callback with the names of the open elements, the innermost first; `outside` tells whether data
may stand outside of every element. -/
def nest (outside : Bool) (names : List Bytes) : CallBack → Option (List Bytes)
  | .startTag name _ simple =>
    if names.length ≥ MAX_NESTING then none else some (if simple then names else name :: names)
  | .data _ => if outside || !names.isEmpty then some names else none
  | .endTag name =>
    match names with
    | top :: names => if top = name then some names else none
    | [] => none

/-- The elements that are open after some callbacks; none when they are not nested well. -/
def nested (outside : Bool) (calls : List CallBack) : Option (List Bytes) := calls.foldlM (nest outside) []

theorem nested_append_singleton (outside : Bool) (calls : List CallBack) (c : CallBack) :
    nested outside (calls ++ [c]) = (nested outside calls).bind fun names => nest outside names c := by
  rw [nested, List.foldlM_append]
  change (nested outside calls).bind (fun names => (nest outside names c).bind some) = _
  congr 1
  funext names
  exact Option.bind_fun_some _

/-- What is nested well was nested well before. -/
theorem nested_prefix {outside : Bool} {calls calls' : List CallBack} (hp : calls <+: calls')
    {names : List Bytes} (h : nested outside calls' = some names) : ∃ names', nested outside calls = some names' := by
  obtain ⟨rest, rfl⟩ := hp
  rw [nested, List.foldlM_append] at h
  obtain ⟨names', hnames, _⟩ := Option.bind_eq_some_iff.mp h
  exact ⟨names', hnames⟩

/-- The depth never exceeds the limit. -/
theorem nested_length {outside : Bool} {calls : List CallBack} {names : List Bytes}
    (h : nested outside calls = some names) : names.length ≤ MAX_NESTING := by
  induction calls using List.reverseRecOn generalizing names with
  | nil =>
    obtain rfl := Option.some.inj h
    exact Nat.zero_le _
  | append_singleton calls c ih =>
    rw [nested_append_singleton] at h
    obtain ⟨names', hnames, hc⟩ := Option.bind_eq_some_iff.mp h
    have hle := ih hnames
    cases c with
    | startTag name attribs simple =>
      rw [nest] at hc
      split at hc
      next => cases hc
      next hlt =>
        obtain rfl := Option.some.inj hc
        split
        next => exact hle
        next => exact Nat.lt_of_not_ge hlt
    | data =>
      rw [nest] at hc
      split at hc
      next =>
        obtain rfl := Option.some.inj hc
        exact hle
      next => cases hc
    | endTag name =>
      cases names' with
      | nil => cases hc
      | cons top names' =>
        rw [nest] at hc
        split at hc
        next =>
          obtain rfl := Option.some.inj hc
          exact Nat.le_of_succ_le hle
        next => cases hc

/-- The elements of the reader are those that are open, and the one that is being read. -/
structure Reader.Nested (r : Reader) : Prop where
  opened : ∃ names, nested true r.calls = some names ∧
    if named r.state then ∃ top, r.elements = top :: names else r.elements = names
  nesting : r.elements.length ≤ MAX_NESTING
  ends : r.state = .ELEMENT_END_END → r.elements ≠ []
  names : ∀ name ∈ r.elements, name ≠ [] ∧ ∀ c ∈ name, isNameChar c = true
  running : r.state ≠ .END

theorem start_nested : start.Nested where
  opened := ⟨[], rfl, rfl⟩
  nesting := Nat.zero_le _
  ends := fun h => by cases h
  names := fun _ h => absurd h List.not_mem_nil
  running := by decide

theorem isNameChar_of_start {c : UInt8} (h : isNameStartChar c = true) : isNameChar c = true := by
  rw [isNameChar, h]
  rfl

/-- The name that is being read goes on. -/
theorem names_append {top more : Bytes} {elements : List Bytes}
    (h : ∀ name ∈ top :: elements, name ≠ [] ∧ ∀ c ∈ name, isNameChar c = true)
    (hmore : ∀ c ∈ more, isNameChar c = true) :
    ∀ name ∈ (top ++ more) :: elements, name ≠ [] ∧ ∀ c ∈ name, isNameChar c = true := by
  obtain ⟨htop, hrest⟩ := List.forall_mem_cons.mp h
  refine List.forall_mem_cons.mpr ⟨⟨List.append_ne_nil_of_left_ne_nil htop.1 more, fun c hc => ?_⟩, hrest⟩
  exact (List.mem_append.mp hc).elim (htop.2 c) (hmore c)

theorem Effect.nested {r r' : Reader} (h : Effect r r') (hr : r.Nested) : r'.Nested := by
  obtain ⟨names, hcalls, hnames⟩ := hr.opened
  cases h with
  | same calls elements state ends running =>
    refine ⟨⟨names, ?_, ?_⟩, ?_, fun hs => ?_, ?_, fun hs => hr.running (running hs)⟩
    · rw [calls]
      exact hcalls
    · rw [state, elements]
      exact hnames
    · rw [elements]
      exact hr.nesting
    · rw [elements]
      exact (ends hs).elim hr.ends id
    · rw [elements]
      exact hr.names
  | opened c name nesting calls elements before state =>
    rw [before, if_neg Bool.false_ne_true] at hnames
    have hne : ∀ s, named s = false → r'.state ≠ s := fun s hs heq =>
      absurd (heq ▸ state) (by rw [hs]; exact Bool.false_ne_true)
    refine ⟨⟨names, ?_, ?_⟩, ?_, fun hs => absurd hs (hne _ rfl), ?_, hne _ rfl⟩
    · rw [calls]
      exact hcalls
    · rw [state, elements, hnames]
      exact ⟨[c], rfl⟩
    · rw [elements]
      exact nesting
    · rw [elements]
      refine List.forall_mem_cons.mpr ⟨⟨List.cons_ne_nil c [], fun c' hc => ?_⟩, hr.names⟩
      rw [List.mem_singleton.mp hc]
      exact isNameChar_of_start name
  | renamed top more elements more_names calls old new before state =>
    rw [before, if_pos rfl, old] at hnames
    obtain ⟨_, htop⟩ := hnames
    have hne : ∀ s, named s = false → r'.state ≠ s := fun s hs heq =>
      absurd (heq ▸ state) (by rw [hs]; exact Bool.false_ne_true)
    refine ⟨⟨names, ?_, ?_⟩, ?_, fun hs => absurd hs (hne _ rfl), ?_, hne _ rfl⟩
    · rw [calls]
      exact hcalls
    · rw [state, new, (List.cons.inj htop).2]
      exact ⟨_, rfl⟩
    · have hlen := hr.nesting
      rw [old] at hlen
      rw [new]
      exact hlen
    · rw [new]
      exact names_append (old ▸ hr.names) more_names
  | started top more elements more_names attribs old calls new before state =>
    rw [before, if_pos rfl, old] at hnames
    obtain ⟨_, htop⟩ := hnames
    have hrest := (List.cons.inj htop).2
    have hlen := hr.nesting
    rw [old] at hlen
    refine ⟨⟨(top ++ more) :: names, ?_, ?_⟩, ?_, fun hs => ?_, ?_, ?_⟩
    · rw [calls, nested_append_singleton, hcalls, Option.bind_some, nest, if_neg]
      · rfl
      · rw [← hrest]
        exact Nat.not_le_of_lt hlen
    · rw [state, new, hrest]
      exact if_neg Bool.false_ne_true ▸ rfl
    · rw [new]
      exact hlen
    · rw [state] at hs
      cases hs
    · rw [new]
      exact names_append (old ▸ hr.names) more_names
    · rw [state]
      decide
  | simple attribs calls elements before state =>
    rw [before, if_pos rfl] at hnames
    obtain ⟨top, htop⟩ := hnames
    have hlen := hr.nesting
    rw [htop] at hlen
    refine ⟨⟨names, ?_, ?_⟩, ?_, fun hs => ?_, ?_, ?_⟩
    · rw [calls, nested_append_singleton, hcalls, Option.bind_some, nest, if_neg (Nat.not_le_of_lt hlen)]
      rfl
    · rw [state, elements, htop]
      rfl
    · rw [elements, htop]
      exact Nat.le_of_succ_le hlen
    · rw [state] at hs
      cases hs
    · rw [elements]
      exact fun name hname => hr.names name (List.mem_of_mem_tail hname)
    · rw [state]
      decide
  | ended calls elements before state =>
    rw [before] at hnames
    have hnames : r.elements = names := hnames
    obtain ⟨top, rest, htop⟩ := List.exists_cons_of_ne_nil (hr.ends before)
    refine ⟨⟨rest, ?_, ?_⟩, ?_, fun hs => ?_, ?_, ?_⟩
    · rw [calls, nested_append_singleton, hcalls, Option.bind_some, ← hnames, htop, nest]
      exact if_pos rfl
    · rw [state, elements, htop]
      rfl
    · have hlen := hr.nesting
      rw [htop] at hlen
      rw [elements, htop]
      exact Nat.le_of_succ_le hlen
    · rw [state] at hs
      cases hs
    · rw [elements]
      exact fun name hname => hr.names name (List.mem_of_mem_tail hname)
    · rw [state]
      decide
  | undefined before elements =>
    rw [before, if_pos rfl, elements] at hnames
    obtain ⟨_, htop⟩ := hnames
    cases htop

/-- A round keeps the nesting. -/
theorem machine_nested (cfg : Config) (r : Reader) (buf : Bytes) (r' : Reader) (buf' : Bytes) (hr : r.Nested)
    (h : machine cfg r buf (.next r' buf')) : r'.Nested := by
  obtain ⟨fuel, x, hx, hstep⟩ := h
  have hspec := round_spec cfg hx
  cases hspec with
  | wait _ => cases hstep
  | finish _ => cases hstep
  | error _ _ _ _ => cases hstep
  | next r'' _ heff _ =>
    cases hstep
    exact heff.nested hr
  | data r'' _ value heff _ _ _ =>
    cases hstep
    obtain ⟨⟨names, hcalls, hnames⟩, hlen, hends, hall, hrun⟩ := heff.nested hr
    refine ⟨⟨names, ?_, hnames⟩, hlen, hends, hall, hrun⟩
    rw [nested_append_singleton, hcalls]
    rfl

/-- The reader and its buffer after some rounds, while buffers are parsed one after another. -/
inductive Reached (cfg : Config) : List Bytes → Reader → Bytes → Prop where
  | start : Reached cfg [] start []
  | feed {chunks : List Bytes} {r : Reader} {buf : Bytes} (data : Bytes) :
    Reached cfg chunks r buf → machine cfg r buf .wait → Reached cfg (chunks ++ [data]) r (buf ++ data)
  | next {chunks : List Bytes} {r r' : Reader} {buf buf' : Bytes} :
    Reached cfg chunks r buf → machine cfg r buf (.next r' buf') → Reached cfg chunks r' buf'

theorem Reached.nested {cfg : Config} {chunks : List Bytes} {r : Reader} {buf : Bytes}
    (h : Reached cfg chunks r buf) : r.Nested := by
  induction h with
  | start => exact start_nested
  | feed _ _ _ ih => exact ih
  | next _ hm ih => exact machine_nested cfg _ _ _ _ ih hm

/-- A run of `process` ends in what some of its rounds lead to. -/
theorem nested_of_process {cfg : Config} {fuel : Nat} {r r' : Reader} {buf buf' : Bytes} {more : Bool}
    (h : process cfg fuel r buf = some (.done more r' buf')) (hr : r.Nested) : r'.Nested ∧ more = true := by
  obtain ⟨t, c, hsteps, hend⟩ := (runs_of_process cfg h).steps
  have ht := hsteps.invariant (fun _ _ _ _ => machine_nested cfg _ _ _ _) hr
  cases more with
  | true =>
    obtain ⟨_, heq⟩ | ⟨_, _, heq⟩ := hend
    · cases heq
      exact ⟨ht, rfl⟩
    · cases heq
  | false =>
    obtain ⟨_, heq⟩ | ⟨e, ⟨fuel, x, hx, hstep⟩, heq⟩ := hend
    · cases heq
    · -- the last state is never reached
      cases round_spec cfg hx with
      | wait _ => cases hstep
      | finish hs => exact absurd hs ht.running
      | error _ _ _ _ =>
        cases hstep
        cases heq
      | next _ _ _ _ => cases hstep
      | data _ _ _ _ _ _ _ => cases hstep

theorem Reader.Nested.closed {r : Reader} (hr : r.Nested) (h : r.elements = []) :
    nested true r.calls = some [] := by
  obtain ⟨names, hcalls, hnames⟩ := hr.opened
  rw [h] at hnames
  split at hnames
  next =>
    obtain ⟨_, htop⟩ := hnames
    cases htop
  next => rwa [← hnames] at hcalls

theorem parseStream_closed {cfg : Config} {fuel maxSize bytesRead : Nat} {r r' : Reader} {buf : Bytes}
    {chunks : List Bytes} (h : parseStream cfg fuel maxSize bytesRead r buf chunks = some (.ok r'))
    (hr : r.Nested) : nested true r'.calls = some [] := by
  induction chunks generalizing bytesRead r buf with
  | nil =>
    rw [parseStream] at h
    split at h
    next hel =>
      cases h
      exact hr.closed hel
    next => cases h
  | cons data chunks ih =>
    rw [parseStream] at h
    split at h
    next => cases h
    next =>
      split at h
      next r₁ buf₁ hp => exact ih h (nested_of_process hp hr).1
      next r₁ buf₁ hp => exact absurd (nested_of_process hp hr).2 Bool.false_ne_true
      next => cases h
      next => cases h

/-- A document with a line break after its declaration. -/
def plainDocument : Bytes := str "<?xml version=\"1.0\"?>\n<a/>"

end Dcpp.SimpleXMLReader
