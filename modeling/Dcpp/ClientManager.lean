import Mathlib.Logic.Function.Basic
import Dcpp.Library.Runs

namespace Dcpp.ClientManager

/-- A call, and how far it has come: it is still to enter its section with the lock; `putOnline` is
to test the flag, and then to set it; `putOffline` is to unset it; or it has returned. -/
inductive Call (O : Type) where
  | putOnline (ou : O)
  | testOnline
  | setOnline
  | putOffline (ou : O)
  | unsetOnline
  | returned
deriving DecidableEq

/-- The entries of `onlineUsers` for one CID, the flag `ONLINE` of the user, and the calls. -/
structure State (O ι : Type) where
  onlineUsers : List O
  online : Bool
  calls : ι → Call O

variable {O ι : Type} [DecidableEq O] [DecidableEq ι]

/-- What a call does next. `putOffline` counts the entries before it erases its own. -/
def next (onlineUsers : List O) (online : Bool) : Call O → Option (List O × Bool × Call O)
  | .putOnline ou => some (onlineUsers ++ [ou], online, .testOnline)
  | .testOnline => some (onlineUsers, online, if online then .returned else .setOnline)
  | .setOnline => some (onlineUsers, true, .returned)
  | .putOffline ou =>
    let diff := if ou ∈ onlineUsers then onlineUsers.length else 0
    some (onlineUsers.erase ou, online, if diff = 1 then .unsetOnline else .returned)
  | .unsetOnline => some (onlineUsers, false, .returned)
  | .returned => none

/-- One section, or one access to the flag, of the call `i`. -/
def step (s : State O ι) (i : ι) : Option (State O ι) :=
  (next s.onlineUsers s.online (s.calls i)).map fun r =>
    ⟨r.1, r.2.1, Function.update s.calls i r.2.2⟩

def run (s : State O ι) (schedule : List ι) : Option (State O ι) := Runs.run step s schedule

/-- A flag is only written when it becomes right, or while another call is still to make it right. -/
structure Meets (s : State O ι) (i : ι) : Prop where
  set : s.calls i = .setOnline → s.onlineUsers ≠ [] ∨ ∃ j, s.calls j = .unsetOnline
  unset : s.calls i = .unsetOnline → s.onlineUsers = [] ∨
    ∃ j, s.calls j = .testOnline ∨ s.calls j = .setOnline

/-- A wrong flag is still to be written. -/
structure Inv (s : State O ι) : Prop where
  set : s.onlineUsers ≠ [] → s.online = false → ∃ j, s.calls j = .testOnline ∨ s.calls j = .setOnline
  unset : s.onlineUsers = [] → s.online = true → ∃ j, s.calls j = .unsetOnline

omit [DecidableEq O] in
/-- A call that is not the one that moves stays where it is. -/
theorem kept {s : State O ι} {i : ι} {c : Call O} {P : Call O → Prop} (hi : ¬P (s.calls i))
    (h : ∃ j, P (s.calls j)) : ∃ j, P (Function.update s.calls i c j) := by
  obtain ⟨j, hj⟩ := h
  refine ⟨j, ?_⟩
  rwa [Function.update_of_ne]
  rintro rfl
  exact hi hj

omit [DecidableEq O] in
theorem moved {s : State O ι} {i : ι} {c : Call O} {P : Call O → Prop} (hc : P c) :
    ∃ j, P (Function.update s.calls i c j) := by
  refine ⟨i, ?_⟩
  rwa [Function.update_self]

theorem step_inv {s t : State O ι} {i : ι} (hs : Inv s) (hm : Meets s i) (ht : step s i = some t) :
    Inv t := by
  rw [step] at ht
  obtain ⟨r, hr, rfl⟩ := Option.map_eq_some_iff.mp ht
  cases hc : s.calls i with
  | putOnline ou =>
    rw [hc] at hr
    obtain rfl := Option.some.inj hr
    exact ⟨fun _ _ => moved (P := fun c => c = .testOnline ∨ c = .setOnline) (Or.inl rfl),
      fun hnil => absurd hnil (List.append_ne_nil_of_right_ne_nil _ (List.cons_ne_nil ou []))⟩
  | testOnline =>
    rw [hc] at hr
    obtain rfl := Option.some.inj hr
    refine ⟨fun _ hoff => ?_, fun hnil hon => kept (P := fun c => c = .unsetOnline) ?_ (hs.unset hnil hon)⟩
    · have hoff : s.online = false := hoff
      dsimp only
      rw [hoff, if_neg Bool.false_ne_true]
      exact moved (P := fun c => c = .testOnline ∨ c = .setOnline) (Or.inr rfl)
    · rw [hc]
      exact fun h => by cases h
  | setOnline =>
    rw [hc] at hr
    obtain rfl := Option.some.inj hr
    refine ⟨fun _ hoff => (by cases hoff), fun hnil _ => kept (P := fun c => c = .unsetOnline) ?_ ?_⟩
    · rw [hc]
      exact fun h => by cases h
    · exact (hm.set hc).resolve_left fun hne => hne hnil
  | putOffline ou =>
    rw [hc] at hr
    obtain rfl := Option.some.inj hr
    refine ⟨fun hne hoff => ?_, fun hnil hon => ?_⟩
    · have hne' : s.onlineUsers ≠ [] := fun hnil => hne (by rw [hnil]; rfl)
      refine kept (P := fun c => c = .testOnline ∨ c = .setOnline) ?_ (hs.set hne' hoff)
      rw [hc]
      exact fun h => h.elim (fun h => by cases h) fun h => by cases h
    · -- the last entry is gone, and so this call unsets the flag; or there was none
      have hnil : s.onlineUsers.erase ou = [] := hnil
      by_cases hmem : ou ∈ s.onlineUsers
      · have hlen : s.onlineUsers.length = 1 := by
          have hlen := List.length_erase_of_mem hmem
          rw [hnil, List.length_nil] at hlen
          have hpos := List.length_pos_of_mem hmem
          omega
        dsimp only
        rw [if_pos hmem, if_pos hlen]
        exact moved (P := fun c => c = .unsetOnline) rfl
      · rw [List.erase_of_not_mem hmem] at hnil
        refine kept (P := fun c => c = .unsetOnline) ?_ (hs.unset hnil hon)
        rw [hc]
        exact fun h => by cases h
  | unsetOnline =>
    rw [hc] at hr
    obtain rfl := Option.some.inj hr
    refine ⟨fun hne _ => kept (P := fun c => c = .testOnline ∨ c = .setOnline) ?_ ?_,
      fun _ hon => by cases hon⟩
    · rw [hc]
      exact fun h => h.elim (fun h => by cases h) fun h => by cases h
    · exact (hm.unset hc).resolve_left hne
  | returned =>
    rw [hc] at hr
    cases hr

/-- In every run whose flag writes meet the condition, the flag is right whenever all calls have
returned. -/
theorem run_online_iff {s : State O ι} (hs : s.online = true ↔ s.onlineUsers ≠ []) (schedule : List ι)
    (hm : ∀ (k : Nat) (h : k < schedule.length) t, run s (schedule.take k) = some t → Meets t schedule[k])
    {t : State O ι} (ht : run s schedule = some t) (hr : ∀ i, t.calls i = .returned) :
    t.online = true ↔ t.onlineUsers ≠ [] := by
  have hinv : Inv s := by
    refine ⟨fun hne hoff => ?_, fun hnil hon => absurd hnil (hs.mp hon)⟩
    rw [hs.mpr hne] at hoff
    cases hoff
  have hend : Inv t := Runs.run_preserves (fun s i t hs hm ht => step_inv hs hm ht) hinv hm ht
  constructor
  · intro hon hnil
    obtain ⟨j, hj⟩ := hend.unset hnil hon
    rw [hr j] at hj
    cases hj
  · intro hne
    by_contra hoff
    rw [Bool.not_eq_true] at hoff
    obtain ⟨j, hj⟩ := hend.set hne hoff
    rw [hr j] at hj
    exact hj.elim (fun h => by cases h) fun h => by cases h

/-- The user is online on one hub, goes offline there and comes online on another. -/
def moves : State Nat Bool where
  onlineUsers := [0]
  online := true
  calls := fun i => if i then .putOnline 1 else .putOffline 0

/-- One call after the other. -/
theorem moves_meets (k : Nat) (h : k < [false, false, true, true, true].length) (t : State Nat Bool)
    (ht : run moves ([false, false, true, true, true].take k) = some t) :
    Meets t [false, false, true, true, true][k] := by
  match k, h with
  | 0, _ =>
    obtain rfl := Option.some.inj ht
    exact ⟨(fun h => by cases h), (fun h => by cases h)⟩
  | 1, _ =>
    obtain rfl := Option.some.inj ht
    exact ⟨(fun h => by cases h), fun _ => Or.inl rfl⟩
  | 2, _ =>
    obtain rfl := Option.some.inj ht
    exact ⟨(fun h => by cases h), (fun h => by cases h)⟩
  | 3, _ =>
    obtain rfl := Option.some.inj ht
    exact ⟨(fun h => by cases h), (fun h => by cases h)⟩
  | 4, _ =>
    obtain rfl := Option.some.inj ht
    exact ⟨fun _ => Or.inl (List.cons_ne_nil _ _), (fun h => by cases h)⟩

theorem run_online_iff_moves :
    ∃ t, run moves [false, false, true, true, true] = some t ∧
      (t.online = true ↔ t.onlineUsers ≠ []) :=
  ⟨_, rfl, run_online_iff (by decide) [false, false, true, true, true] moves_meets rfl
    fun i => by cases i <;> rfl⟩

/-- The new entry is put after the old one was erased, and the flag tested before it is unset. -/
theorem not_run_online_iff :
    (moves.online = true ↔ moves.onlineUsers ≠ []) ∧
    ∃ t, run moves [false, true, true, false] = some t ∧ (∀ i, t.calls i = .returned) ∧
      ¬(t.online = true ↔ t.onlineUsers ≠ []) :=
  ⟨by decide, _, rfl, fun i => by cases i <;> rfl, by decide⟩

end Dcpp.ClientManager
