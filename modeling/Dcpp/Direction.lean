import Mathlib.Data.List.Induction
import Mathlib.Logic.Function.Basic
import Mathlib.Tactic.Common

namespace Dcpp

/-- The two ends of a client-client connection. -/
inductive Side where
  | left | right
deriving DecidableEq, Repr

def Side.other : Side → Side
  | .left => .right
  | .right => .left

@[simp] theorem Side.other_other (x : Side) : x.other.other = x := by
  cases x <;> rfl

theorem Side.other_ne (x : Side) : x.other ≠ x := by
  cases x <;> decide

theorem Side.eq_or_other (x y : Side) : y = x ∨ y = x.other := by
  cases x <;> cases y <;> decide

namespace Direction

/-- The states of a `UserConnection` from `$MyNick` to `$Key`. -/
inductive State where
  | STATE_LOCK | STATE_DIRECTION | STATE_KEY
deriving DecidableEq, Repr

/-- `drawn` counts the random numbers that were asked for; `connected` ends with `putConnection`, or
when the other end closes the connection. -/
structure Peer where
  state : State
  upload : Bool
  download : Bool
  connected : Bool
  drawn : Nat

/-- What goes over the connection: `$Lock`, `$Direction` (true for `Upload`), and its end. -/
inductive Message where
  | lock
  | direction (upload : Bool) (num : Nat)
  | closed
deriving DecidableEq

/-- `getNumber` draws a new number each time. -/
def getNumber (rand : Nat → Nat) (p : Peer) : Nat × Peer :=
  (rand p.drawn, { p with drawn := p.drawn + 1 })

/-- `putConnection`. -/
def putConnection (p : Peer) : Peer × List Message := ({ p with connected := false }, [.closed])

/-- `on(CLock)`; nothing happens when the user of the connection is not online. -/
def onCLock (rand : Nat → Nat) (online : Bool) (p : Peer) : Peer × List Message :=
  if p.state ≠ .STATE_LOCK then (p, [])
  else if !online then (p, [])
  else
    let (number, p) := getNumber rand { p with state := .STATE_DIRECTION }
    (p, [.direction p.upload number])

/-- `on(Direction)`. -/
def onDirection (rand : Nat → Nat) (upload : Bool) (num : Nat) (p : Peer) : Peer × List Message :=
  if p.state ≠ .STATE_DIRECTION then (p, [])
  else if upload then
    if p.upload then putConnection p else ({ p with state := .STATE_KEY }, [])
  else if p.download then
    let (number, p) := getNumber rand p
    if number < num then ({ p with upload := true, download := false, state := .STATE_KEY }, [])
    else
      let (number, p) := getNumber rand p
      if number = num then putConnection p else ({ p with state := .STATE_KEY }, [])
  else ({ p with state := .STATE_KEY }, [])

/-- The handler of a message; nothing is handled on a connection that is gone. -/
def handle (rand : Nat → Nat) (online : Bool) (m : Message) (p : Peer) : Peer × List Message :=
  if !p.connected then (p, [])
  else
    match m with
    | .lock => onCLock rand online p
    | .direction upload num => onDirection rand upload num p
    | .closed => ({ p with connected := false }, [])

/-- The two peers, what is on its way to each of them, and whether each has handled a `$Direction`
of the other. -/
structure Net where
  peer : Side → Peer
  inbox : Side → List Message
  handled : Side → Bool

/-- Any message on the way can be delivered next. -/
structure Delivery where
  receiver : Side
  message : Message
  online : Bool

def step (rand : Side → Nat → Nat) (s : Net) (d : Delivery) : Net :=
  if d.message ∈ s.inbox d.receiver then
    let p := s.peer d.receiver
    let r := handle (rand d.receiver) d.online d.message p
    let inbox := Function.update s.inbox d.receiver ((s.inbox d.receiver).erase d.message)
    { peer := Function.update s.peer d.receiver r.1
      inbox := Function.update inbox d.receiver.other (inbox d.receiver.other ++ r.2)
      handled := match d.message with
        | .direction _ _ => Function.update s.handled d.receiver
            (s.handled d.receiver || (p.connected && decide (p.state = .STATE_DIRECTION)))
        | _ => s.handled }
  else s

def run (rand : Side → Nat → Nat) (s : Net) (deliveries : List Delivery) : Net :=
  deliveries.foldl (step rand) s

/-- Both want to download, and the locks are on the way. -/
def start : Net where
  peer := fun _ => ⟨.STATE_LOCK, false, true, true, 0⟩
  inbox := fun _ => [.lock]
  handled := fun _ => false

/-- One of them uploads and the other downloads, or both have disconnected. -/
def Agreed (s : Net) : Prop :=
  (∃ x, ((s.peer x).connected = true ∧ (s.peer x).upload = true ∧ (s.peer x).download = false) ∧
    (s.peer x.other).connected = true ∧ (s.peer x.other).upload = false ∧
    (s.peer x.other).download = true) ∨
  ∀ x, (s.peer x).connected = false

/-- The first number drawn for the comparison is below the number received. -/
def Loses (rand : Side → Nat → Nat) (x : Side) : Prop := rand x 1 < rand x.other 0

/-- The first number drawn for the comparison is not below the number received, and the second one
is not equal to it. -/
def Wins (rand : Side → Nat → Nat) (x : Side) : Prop := rand x.other 0 ≤ rand x 1 ∧ rand x 2 ≠ rand x.other 0

instance (rand : Side → Nat → Nat) (x : Side) : Decidable (Loses rand x) :=
  inferInstanceAs (Decidable (rand x 1 < rand x.other 0))

instance (rand : Side → Nat → Nat) (x : Side) : Decidable (Wins rand x) :=
  inferInstanceAs (Decidable (rand x.other 0 ≤ rand x 1 ∧ rand x 2 ≠ rand x.other 0))

/-- How far a peer has come, and whether it has handled the other's `$Direction`. -/
inductive Phase (rand : Side → Nat → Nat) (x : Side) : Peer → Bool → Prop where
  | lock (connected : Bool) : Phase rand x ⟨.STATE_LOCK, false, true, connected, 0⟩ false
  | direction (connected : Bool) : Phase rand x ⟨.STATE_DIRECTION, false, true, connected, 1⟩ false
  | lost (connected : Bool) (h : Loses rand x) :
      Phase rand x ⟨.STATE_KEY, true, false, connected, 2⟩ true
  | won (connected : Bool) (h : Wins rand x) :
      Phase rand x ⟨.STATE_KEY, false, true, connected, 3⟩ true
  | tied (h : ¬Loses rand x) (h' : ¬Wins rand x) :
      Phase rand x ⟨.STATE_DIRECTION, false, true, false, 3⟩ true

/-- A peer has closed the connection by itself. -/
def Tied (rand : Side → Nat → Nat) (s : Net) (x : Side) : Prop :=
  s.handled x = true ∧ ¬Loses rand x ∧ ¬Wins rand x

structure Inv (rand : Side → Nat → Nat) (s : Net) : Prop where
  phase : ∀ x, Phase rand x (s.peer x) (s.handled x)
  messages : ∀ x, ∀ m ∈ s.inbox x, m = .lock ∨ m = .direction false (rand x.other 0) ∨
    m = .closed ∧ Tied rand s x.other
  told : ∀ x, Tied rand s x → .closed ∈ s.inbox x.other ∨ (s.peer x.other).connected = false
  closed : ∀ x, (s.peer x).connected = false → Tied rand s x ∨ Tied rand s x.other

theorem start_inv (rand : Side → Nat → Nat) : Inv rand start where
  phase _ := .lock true
  messages _ _ hm := Or.inl (List.mem_singleton.mp hm)
  told _ ht := absurd ht.1 Bool.false_ne_true
  closed _ h := absurd h.symm Bool.false_ne_true

/-- What a handled message does to the peer it is for. -/
structure Handled (rand : Side → Nat → Nat) (x : Side) (m : Message) (p : Peer) (h : Bool)
    (r : Peer × List Message) (h' : Bool) : Prop where
  phase : Phase rand x r.1 h'
  mono : h = true → h' = true
  sent : ∀ m' ∈ r.2, m' = .direction false (rand x 0) ∨
    m' = .closed ∧ h' = true ∧ ¬Loses rand x ∧ ¬Wins rand x
  told : h' = true → ¬Loses rand x → ¬Wins rand x → h = true ∨ .closed ∈ r.2
  closed : r.1.connected = false → p.connected = false ∨ m = .closed ∨
    h' = true ∧ ¬Loses rand x ∧ ¬Wins rand x
  ends : m = .closed → r.1.connected = false
  stays : p.connected = false → r.1.connected = false

/-- Nothing happens. -/
theorem handled_same {rand : Side → Nat → Nat} {x : Side} {m : Message} {p : Peer} {h : Bool}
    (hp : Phase rand x p h) (hm : m = .closed → p.connected = false) :
    Handled rand x m p h (p, []) h :=
  ⟨hp, id, fun _ hm' => absurd hm' List.not_mem_nil, fun hh _ _ => Or.inl hh, Or.inl, hm, id⟩

theorem handle_lock (rand : Side → Nat → Nat) (x : Side) (online : Bool) {p : Peer} {h : Bool}
    (hp : Phase rand x p h) : Handled rand x .lock p h (handle (rand x) online .lock p) h := by
  cases hc : p.connected with
  | false =>
    rw [handle, hc]
    exact handled_same hp fun hm => by cases hm
  | true =>
    rw [handle, hc, onCLock]
    cases hp with
    | lock connected =>
      cases online with
      | false => exact handled_same (.lock connected) fun hm => by cases hm
      | true =>
        exact ⟨.direction connected, id, fun _ hm' => Or.inl (List.mem_singleton.mp hm'),
          fun hh => absurd hh Bool.false_ne_true, Or.inl, (fun hm => by cases hm), id⟩
    | direction connected => exact handled_same (.direction connected) fun hm => by cases hm
    | lost connected hl => exact handled_same (.lost connected hl) fun hm => by cases hm
    | won connected hw => exact handled_same (.won connected hw) fun hm => by cases hm
    | tied hl hw => exact handled_same (.tied hl hw) fun hm => by cases hm

theorem handle_closed (rand : Side → Nat → Nat) (x : Side) (online : Bool) {p : Peer} {h : Bool}
    (hp : Phase rand x p h) : Handled rand x .closed p h (handle (rand x) online .closed p) h := by
  cases hc : p.connected with
  | false =>
    rw [handle, hc]
    exact handled_same hp fun _ => hc
  | true =>
    have hphase : Phase rand x { p with connected := false } h := by
      cases hp with
      | lock => exact .lock false
      | direction => exact .direction false
      | lost _ hl => exact .lost false hl
      | won _ hw => exact .won false hw
      | tied hl hw => exact .tied hl hw
    rw [handle, hc]
    exact ⟨hphase, id, fun _ hm' => absurd hm' List.not_mem_nil, fun hh _ _ => Or.inl hh,
      fun _ => Or.inr (Or.inl rfl), fun _ => rfl, fun _ => rfl⟩

/-- The comparison of the two numbers decides the role of the peer. -/
theorem handle_direction (rand : Side → Nat → Nat) (x : Side) (online : Bool) {p : Peer} {h : Bool}
    (hp : Phase rand x p h) :
    Handled rand x (.direction false (rand x.other 0)) p h
      (handle (rand x) online (.direction false (rand x.other 0)) p)
      (h || (p.connected && decide (p.state = .STATE_DIRECTION))) := by
  cases hc : p.connected with
  | false =>
    rw [handle, hc, Bool.false_and, Bool.or_false]
    exact handled_same hp fun hm => by cases hm
  | true =>
    rw [handle, hc, Bool.not_true, if_neg Bool.false_ne_true, Bool.true_and]
    cases hp with
    | lock connected => exact handled_same (.lock connected) fun hm => by cases hm
    | lost connected hl => exact handled_same (.lost connected hl) fun hm => by cases hm
    | won connected hw => exact handled_same (.won connected hw) fun hm => by cases hm
    | tied hl hw => exact absurd hc Bool.false_ne_true
    | direction connected =>
      have hconn : connected = true := hc
      subst hconn
      rw [onDirection, if_neg (not_not.mpr rfl), if_neg Bool.false_ne_true, if_pos rfl, decide_eq_true rfl,
        Bool.false_or]
      dsimp only [getNumber]
      by_cases hl : rand x 1 < rand x.other 0
      · rw [if_pos hl]
        exact ⟨.lost true hl, fun _ => rfl, fun _ hm' => absurd hm' List.not_mem_nil,
          fun _ hnl => absurd hl hnl, Or.inl, (fun hm => by cases hm), id⟩
      · rw [if_neg hl]
        by_cases ht : rand x 2 = rand x.other 0
        · have hw : ¬Wins rand x := fun hw => hw.2 ht
          rw [if_pos ht]
          exact ⟨.tied hl hw, fun _ => rfl,
            fun _ hm' => Or.inr ⟨List.mem_singleton.mp hm', rfl, hl, hw⟩,
            fun _ _ _ => Or.inr (List.mem_singleton_self _), fun _ => Or.inr (Or.inr ⟨rfl, hl, hw⟩),
            (fun hm => by cases hm), fun _ => rfl⟩
        · have hw : Wins rand x := ⟨Nat.le_of_not_lt hl, ht⟩
          rw [if_neg ht]
          exact ⟨.won true hw, fun _ => rfl, fun _ hm' => absurd hm' List.not_mem_nil,
            fun _ _ hnw => absurd hw hnw, Or.inl, (fun hm => by cases hm), id⟩

/-- A delivery keeps the invariant once the message is known to be handled by the rules. -/
theorem deliver_inv {rand : Side → Nat → Nat} {s s' : Net} (hs : Inv rand s) {x : Side} {m : Message}
    (hm : m ∈ s.inbox x) {r : Peer × List Message} {h' : Bool}
    (h : Handled rand x m (s.peer x) (s.handled x) r h')
    (hp : s'.peer = Function.update s.peer x r.1)
    (hi : s'.inbox x = (s.inbox x).erase m) (hi' : s'.inbox x.other = s.inbox x.other ++ r.2)
    (hh : s'.handled = Function.update s.handled x h') : Inv rand s' := by
  have hpx : s'.peer x = r.1 := by rw [hp, Function.update_self]
  have hpy : s'.peer x.other = s.peer x.other := by rw [hp, Function.update_of_ne x.other_ne]
  have hhx : s'.handled x = h' := by rw [hh, Function.update_self]
  have hhy : s'.handled x.other = s.handled x.other := by
    rw [hh, Function.update_of_ne x.other_ne]
  have htx : Tied rand s x → Tied rand s' x := fun ht => ⟨hhx.trans (h.mono ht.1), ht.2⟩
  have hty : Tied rand s x.other ↔ Tied rand s' x.other := by
    rw [Tied, Tied, hhy]
  refine ⟨fun y => ?_, fun y m' hm' => ?_, fun y ht => ?_, fun y hc => ?_⟩
  · obtain rfl | rfl := Side.eq_or_other x y
    · rw [hpx, hhx]
      exact h.phase
    · rw [hpy, hhy]
      exact hs.phase x.other
  · obtain rfl | rfl := Side.eq_or_other x y
    · rw [hi] at hm'
      obtain hm' | hm' | ⟨hm', ht⟩ := hs.messages y m' (List.mem_of_mem_erase hm')
      · exact Or.inl hm'
      · exact Or.inr (Or.inl hm')
      · exact Or.inr (Or.inr ⟨hm', hty.mp ht⟩)
    · rw [hi'] at hm'
      rw [Side.other_other]
      obtain hm' | hm' := List.mem_append.mp hm'
      · obtain hm' | hm' | ⟨hm', ht⟩ := hs.messages x.other m' hm'
        · exact Or.inl hm'
        · rw [Side.other_other] at hm'
          exact Or.inr (Or.inl hm')
        · rw [Side.other_other] at ht
          exact Or.inr (Or.inr ⟨hm', htx ht⟩)
      · obtain hm' | ⟨hm', ht⟩ := h.sent m' hm'
        · exact Or.inr (Or.inl hm')
        · exact Or.inr (Or.inr ⟨hm', hhx.trans ht.1, ht.2⟩)
  · obtain rfl | rfl := Side.eq_or_other x y
    · rw [hi', hpy]
      obtain hold | hnew := h.told (hhx ▸ ht.1) ht.2.1 ht.2.2
      · exact (hs.told y ⟨hold, ht.2⟩).imp_left (List.mem_append_left _)
      · exact Or.inl (List.mem_append_right _ hnew)
    · rw [Side.other_other, hi, hpx]
      by_cases hmc : m = .closed
      · exact Or.inr (h.ends hmc)
      · obtain hin | hoff := hs.told x.other (hty.mpr ht)
        · rw [Side.other_other] at hin
          exact Or.inl ((List.mem_erase_of_ne (Ne.symm hmc)).mpr hin)
        · rw [Side.other_other] at hoff
          exact Or.inr (h.stays hoff)
  · obtain rfl | rfl := Side.eq_or_other x y
    · rw [hpx] at hc
      obtain hold | hmc | ht := h.closed hc
      · exact (hs.closed y hold).imp htx hty.mp
      · obtain hx | hx | ⟨-, ht⟩ := hs.messages y m hm
        · exact absurd (hmc.symm.trans hx) (by decide)
        · rw [hmc] at hx
          cases hx
        · exact Or.inr (hty.mp ht)
      · exact Or.inl ⟨hhx.trans ht.1, ht.2⟩
    · rw [hpy] at hc
      obtain ht | ht := hs.closed x.other hc
      · exact Or.inl (hty.mp ht)
      · rw [Side.other_other] at ht ⊢
        exact Or.inr (htx ht)

theorem step_inv {rand : Side → Nat → Nat} {s : Net} (hs : Inv rand s) (d : Delivery) :
    Inv rand (step rand s d) := by
  obtain ⟨x, m, online⟩ := d
  rw [step]
  dsimp only
  by_cases hm : m ∈ s.inbox x
  swap
  · rw [if_neg hm]
    exact hs
  rw [if_pos hm]
  have hin : ∀ l : List Message, Function.update (Function.update s.inbox x ((s.inbox x).erase m)) x.other
      l x = (s.inbox x).erase m := by
    intro l
    rw [Function.update_of_ne x.other_ne.symm, Function.update_self]
  have hout : Function.update s.inbox x ((s.inbox x).erase m) x.other = s.inbox x.other :=
    Function.update_of_ne x.other_ne ..
  obtain rfl | rfl | ⟨rfl, -⟩ := hs.messages x m hm
  · refine deliver_inv hs hm (handle_lock rand x online (hs.phase x)) rfl (hin _) ?_
      (Function.update_eq_self ..).symm
    dsimp only
    rw [Function.update_self, hout]
  · refine deliver_inv hs hm (handle_direction rand x online (hs.phase x)) rfl (hin _) ?_ rfl
    dsimp only
    rw [Function.update_self, hout]
  · refine deliver_inv hs hm (handle_closed rand x online (hs.phase x)) rfl (hin _) ?_
      (Function.update_eq_self ..).symm
    dsimp only
    rw [Function.update_self, hout]

theorem run_inv (rand : Side → Nat → Nat) (deliveries : List Delivery) :
    Inv rand (run rand start deliveries) := by
  induction deliveries using List.reverseRecOn with
  | nil => exact start_inv rand
  | append_singleton deliveries d ih =>
    rw [run, List.foldl_append]
    exact step_inv ih d

theorem Loses.not_wins {rand : Side → Nat → Nat} {x : Side} (h : Loses rand x) : ¬Wins rand x :=
  fun hw => Nat.not_lt.mpr hw.1 h

/-- A peer that is not tied has the role that the comparison gives it. -/
theorem Inv.role {rand : Side → Nat → Nat} {s : Net} (hs : Inv rand s) {x : Side}
    (hh : s.handled x = true) (ht : ¬Tied rand s x) :
    (s.peer x).upload = decide (Loses rand x) ∧ (s.peer x).download = decide (Wins rand x) ∧
      (Loses rand x ∨ Wins rand x) := by
  have hp := hs.phase x
  rw [hh] at hp
  generalize s.peer x = p at hp ⊢
  cases hp with
  | lost connected hl => exact ⟨(decide_eq_true hl).symm, (decide_eq_false hl.not_wins).symm, Or.inl hl⟩
  | won connected hw =>
    exact ⟨(decide_eq_false fun hl => hl.not_wins hw).symm, (decide_eq_true hw).symm, Or.inr hw⟩
  | tied hl hw => exact absurd ⟨hh, hl, hw⟩ ht

theorem Inv.tied_closed {rand : Side → Nat → Nat} {s : Net} (hs : Inv rand s) {x : Side}
    (ht : Tied rand s x) : (s.peer x).connected = false := by
  have hp := hs.phase x
  rw [ht.1] at hp
  generalize s.peer x = p at hp ⊢
  cases hp with
  | lost connected hl => exact absurd hl ht.2.1
  | won connected hw => exact absurd hw ht.2.2
  | tied hl hw => rfl

/-- Whatever the order of the deliveries, once both have handled the other's `$Direction` and
the end of the connection is not still on its way, they agree exactly when neither both of them
lose the comparison nor both of them win it. -/
theorem run_agreed_iff (rand : Side → Nat → Nat) (deliveries : List Delivery)
    (hh : ∀ x, (run rand start deliveries).handled x = true)
    (hc : ∀ x, .closed ∉ (run rand start deliveries).inbox x) :
    Agreed (run rand start deliveries) ↔ (∃ x, ¬Loses rand x) ∧ ∃ x, ¬Wins rand x := by
  have hs := run_inv rand deliveries
  generalize run rand start deliveries = s at hh hc hs ⊢
  by_cases ht : ∃ x, Tied rand s x
  · -- the other end has learned that the connection is closed
    obtain ⟨x, ht⟩ := ht
    refine iff_of_true (Or.inr fun y => ?_) ⟨⟨x, ht.2.1⟩, x, ht.2.2⟩
    obtain rfl | rfl := Side.eq_or_other x y
    · exact hs.tied_closed ht
    · exact (hs.told x ht).resolve_left (hc x.other)
  · have hnot : ∀ x, ¬Tied rand s x := fun x hx => ht ⟨x, hx⟩
    have hconn : ∀ x, (s.peer x).connected = true := by
      intro x
      rw [← Bool.not_eq_false]
      exact fun hf => (hs.closed x hf).elim (hnot x) (hnot x.other)
    constructor
    · rintro (⟨x, ⟨-, hu, -⟩, -, -, hd⟩ | hall)
      · obtain ⟨hux, -, -⟩ := hs.role (hh x) (hnot x)
        obtain ⟨-, hdy, -⟩ := hs.role (hh x.other) (hnot x.other)
        have hl : Loses rand x := of_decide_eq_true (hux.symm.trans hu)
        have hw : Wins rand x.other := of_decide_eq_true (hdy.symm.trans hd)
        exact ⟨⟨x.other, fun h => h.not_wins hw⟩, x, hl.not_wins⟩
      · exact absurd ((hall .left).symm.trans (hconn .left)) Bool.false_ne_true
    · rintro ⟨⟨x, hx⟩, y, hy⟩
      obtain ⟨-, -, hlwx⟩ := hs.role (hh x) (hnot x)
      obtain ⟨hu, hd, hlwy⟩ := hs.role (hh y) (hnot y)
      have hwx : Wins rand x := hlwx.resolve_left hx
      have hly : Loses rand y := hlwy.resolve_right hy
      have hxy : x = y.other := by
        obtain rfl | rfl := Side.eq_or_other y x
        · exact absurd hwx hy
        · rfl
      subst hxy
      obtain ⟨hu', hd', -⟩ := hs.role (hh y.other) (hnot y.other)
      refine Or.inl ⟨y, ⟨hconn y, hu.trans (decide_eq_true hly), hd.trans (decide_eq_false hy)⟩,
        hconn y.other, hu'.trans (decide_eq_false hx), hd'.trans (decide_eq_true hwx)⟩

/-- The locks and then both directions are delivered. -/
def exchange (rand : Side → Nat → Nat) : List Delivery :=
  [⟨.left, .lock, true⟩, ⟨.right, .lock, true⟩, ⟨.right, .direction false (rand .left 0), true⟩,
    ⟨.left, .direction false (rand .right 0), true⟩]

/-- The left peer always draws 5, and the right one 7. -/
def steady : Side → Nat → Nat
  | .left, _ => 5
  | .right, _ => 7

theorem run_agreed_iff_steady :
    Agreed (run steady start (exchange steady)) ↔ (∃ x, ¬Loses steady x) ∧ ∃ x, ¬Wins steady x :=
  run_agreed_iff steady (exchange steady) (fun x => by cases x <;> rfl)
    (fun x => by cases x <;> decide)

/-- Both send 5 and compare with another number, 3. -/
def redrawn : Side → Nat → Nat
  | _, 0 => 5
  | _, _ => 3

/-- Both peers end as uploaders, and both are connected. -/
theorem not_run_agreed : (∀ x, (run redrawn start (exchange redrawn)).handled x = true) ∧
    (∀ x, (run redrawn start (exchange redrawn)).inbox x = []) ∧
    ¬Agreed (run redrawn start (exchange redrawn)) := by
  refine ⟨fun x => by cases x <;> rfl, fun x => by cases x <;> rfl, ?_⟩
  rintro (⟨x, -, -, hu, -⟩ | hall)
  · revert hu
    cases x <;> decide
  · have hl := hall .left
    revert hl
    decide

end Direction

end Dcpp
