import Dcpp.Library.Keyed
import Dcpp.UploadManager

-- The slot counters agree with the flags of the connections.
namespace Dcpp.UploadManager

section

variable {U : Type}

def slots (s : State U) : Nat := s.connections.countP fun c => c.hasSlot

def extraSlots (s : State U) : Nat := s.connections.countP fun c => c.hasExtraSlot

/-- The full slots that are held because one was free. -/
def freeSlots (s : State U) : Nat := s.connections.countP fun c => c.free

structure Accounted (settings : Settings) (s : State U) : Prop where
  running : s.running = slots s
  extra : s.extra = extraSlots s
  exclusive : ∀ c ∈ s.connections, ¬(c.hasSlot = true ∧ c.hasExtraSlot = true)
  free : (freeSlots s : Int) ≤ max settings.SLOTS 0

/-- A decrement writes the counter that it has read, and a slot that was free when it was asked for is
free when it is given. -/
def Place.Meets (settings : Settings) (s : State U) (a : Answers) : Place → Prop
  | .decrement running => running = s.running
  | .decrementExtra extra => extra = s.extra
  | .prepare _ _ free => free = true → a.prepared = true → 0 < getFreeSlots settings s
  | _ => True

def Meets (settings : Settings) (s : State U) : Event U → Prop
  | .proceed i a => ∀ c, s.connections[i]? = some c → c.place.Meets settings s a
  | _ => True

instance (settings : Settings) (s : State U) (a : Answers) : (p : Place) → Decidable (p.Meets settings s a)
  | .decrement running => inferInstanceAs (Decidable (running = s.running))
  | .decrementExtra extra => inferInstanceAs (Decidable (extra = s.extra))
  | .prepare _ _ free =>
    inferInstanceAs (Decidable (free = true → a.prepared = true → 0 < getFreeSlots settings s))
  | .idle | .askReserved _ | .askFree .. | .choose .. | .refused _ | .removing | .removingExtra | .removed =>
    isTrue trivial

instance (settings : Settings) (s : State U) : (e : Event U) → Decidable (Meets settings s e)
  | .proceed i a =>
    match hi : s.connections[i]? with
    | none => isTrue fun _ hc => by cases hi.symm.trans hc
    | some c => decidable_of_iff (c.place.Meets settings s a)
      ⟨fun h d hd => by cases hi.symm.trans hd; exact h, fun h => h c hi⟩
  | .addConnection .. | .request .. | .transmitDone _ | .failed _ | .reserveSlot _ | .second .. | .minute _
  | .userDisconnected _ => isTrue trivial

/-- What holds of each connection. -/
structure UserConnection.Legal (c : UserConnection U) : Prop where
  exclusive : ¬(c.hasSlot = true ∧ c.hasExtraSlot = true)
  free : c.free = true → c.hasSlot = true
  decrement : ∀ n, c.place = .decrement n → c.hasSlot = true
  decrementExtra : ∀ n, c.place = .decrementExtra n → c.hasExtraSlot = true

structure Inv (settings : Settings) (s : State U) : Prop where
  accounted : Accounted settings s
  legal : ∀ c ∈ s.connections, c.Legal

/-- Nothing changes for the slots. -/
structure Same (s t : State U) : Prop where
  connections : t.connections = s.connections
  running : t.running = s.running
  extra : t.extra = s.extra

theorem Same.trans {s t u : State U} (h : Same s t) (h' : Same t u) : Same s u :=
  ⟨h'.connections.trans h.connections, h'.running.trans h.running, h'.extra.trans h.extra⟩

theorem Inv.of_same {settings : Settings} {s t : State U} (h : Inv settings s) (hs : Same s t) : Inv settings t := by
  obtain ⟨⟨hrunning, hextra, hexclusive, hfree⟩, hlegal⟩ := h
  obtain ⟨hc, hr, he⟩ := hs
  refine ⟨⟨?_, ?_, ?_, ?_⟩, ?_⟩
  · rw [hr, hrunning, slots, slots, hc]
  · rw [he, hextra, extraSlots, extraSlots, hc]
  · rwa [hc]
  · rwa [freeSlots, hc]
  · rwa [hc]

/-- A slot is free, so that fewer than all are held. -/
theorem Inv.freeSlots_lt {settings : Settings} {s : State U} (h : Inv settings s)
    (hf : 0 < getFreeSlots settings s) : (freeSlots s : Int) < max settings.SLOTS 0 := by
  have hle : freeSlots s ≤ slots s := List.countP_mono_left fun c hc => (h.legal c hc).free
  have hrunning := h.accounted.running
  rw [getFreeSlots] at hf
  omega

/-- A connection changes, and the counters with its flags. -/
theorem Inv.set {settings : Settings} {s t : State U} {c d : UserConnection U} {i : Nat} (h : Inv settings s)
    (hi : s.connections[i]? = some c) (hl : d.Legal) (hc : t.connections = s.connections.set i d)
    (hr : t.running + c.hasSlot.toNat = s.running + d.hasSlot.toNat)
    (he : t.extra + c.hasExtraSlot.toNat = s.extra + d.hasExtraSlot.toNat)
    (hf : d.free = true → c.free = true ∨ 0 < getFreeSlots settings s) : Inv settings t := by
  have hlegal : ∀ x ∈ t.connections, x.Legal := by
    intro x hx
    rw [hc] at hx
    obtain hx | rfl := List.mem_or_eq_of_mem_set hx
    · exact h.legal x hx
    · exact hl
  refine ⟨⟨?_, ?_, fun x hx => (hlegal x hx).exclusive, ?_⟩, hlegal⟩
  · have hcount := Keyed.countP_set hi (fun c => c.hasSlot) d
    have hrunning := h.accounted.running
    rw [slots] at hrunning ⊢
    rw [hc]
    omega
  · have hcount := Keyed.countP_set hi (fun c => c.hasExtraSlot) d
    have hextra := h.accounted.extra
    rw [extraSlots] at hextra ⊢
    rw [hc]
    omega
  · have hcount := Keyed.countP_set hi (fun c => c.free) d
    have hfree := h.accounted.free
    have hlt := h.freeSlots_lt
    rw [freeSlots] at hfree hlt ⊢
    rw [hc]
    cases hd : d.free with
    | false =>
      rw [hd, Bool.toNat_false] at hcount
      omega
    | true =>
      rw [hd, Bool.toNat_true] at hcount
      obtain hfree' | hpos := hf hd
      · rw [hfree', Bool.toNat_true] at hcount
        omega
      · have := hlt hpos
        omega

end

variable {U : Type} [DecidableEq U]

theorem clearUserFiles_same (source : U) (s : State U) : Same s (clearUserFiles source s) := by
  rw [clearUserFiles]
  split_ifs
  · exact ⟨rfl, rfl, rfl⟩
  · exact ⟨rfl, rfl, rfl⟩

theorem notifyLoop_same (isOnline : U → Bool) (tick : Nat) (waiting : List U) (freeslots : Int) (s : State U) :
    Same s (notifyLoop isOnline tick waiting freeslots s) := by
  induction waiting generalizing freeslots s with
  | nil => exact ⟨rfl, rfl, rfl⟩
  | cons wu waiting ih =>
    rw [notifyLoop]
    split_ifs
    · refine (clearUserFiles_same wu s).trans (Same.trans ?_ (ih _ _))
      exact ⟨rfl, rfl, rfl⟩
    · exact (clearUserFiles_same wu s).trans (ih _ _)
    · exact ⟨rfl, rfl, rfl⟩

theorem notifyQueuedUsers_same (settings : Settings) (isOnline : U → Bool) (tick : Nat) (s : State U) :
    Same s (notifyQueuedUsers settings isOnline tick s) := by
  rw [notifyQueuedUsers]
  split_ifs
  · exact notifyLoop_same ..
  · exact ⟨rfl, rfl, rfl⟩

theorem expire_same (aTick : Nat) (connecting : List (U × Nat)) (s : State U) : Same s (expire aTick connecting s) := by
  induction connecting generalizing s with
  | nil => exact ⟨rfl, rfl, rfl⟩
  | cons i connecting ih =>
    rw [expire]
    split_ifs
    · refine (clearUserFiles_same i.1 s).trans (Same.trans ?_ (ih _))
      exact ⟨rfl, rfl, rfl⟩
    · exact ih s

section

variable {settings : Settings} {s t : State U} {c : UserConnection U} {i : Nat}

omit [DecidableEq U] in
/-- A connection goes on, and keeps its flags. -/
theorem Inv.goTo (h : Inv settings s) (hi : s.connections[i]? = some c) {p : Place}
    (hd : ∀ n, p = .decrement n → c.hasSlot = true) (he : ∀ n, p = .decrementExtra n → c.hasExtraSlot = true) :
    Inv settings (setConnection i { c with place := p } s) := by
  have hl := h.legal c (List.mem_of_getElem? hi)
  exact h.set hi (d := { c with place := p }) ⟨hl.exclusive, hl.free, hd, he⟩ rfl rfl rfl Or.inl

omit [DecidableEq U] in
theorem chooseSlot_cases (settings : Settings) (r : Request) (admitted hasFreeSlot autoSlot : Bool)
    (c : UserConnection U) (s : State U) :
    (∃ r', chooseSlot settings r admitted hasFreeSlot autoSlot c s = .refused r') ∨
      ∃ extraSlot gotFullSlot free,
        chooseSlot settings r admitted hasFreeSlot autoSlot c s = .prepare extraSlot gotFullSlot free := by
  rw [chooseSlot]
  dsimp only
  split_ifs
  · exact Or.inr ⟨_, _, _, rfl⟩
  · exact Or.inl ⟨_, rfl⟩
  · exact Or.inr ⟨_, _, _, rfl⟩

theorem dropUser_same (user : U) (gotFullSlot : Bool) (s : State U) : Same s (dropUser user gotFullSlot s) := by
  rw [dropUser]
  split_ifs
  · refine Same.trans ?_ ((clearUserFiles_same user { s with reservedSlots := s.reservedSlots.erase user }).trans ?_)
    · exact ⟨rfl, rfl, rfl⟩
    · exact ⟨rfl, rfl, rfl⟩
  · exact ⟨rfl, rfl, rfl⟩

omit [DecidableEq U] in
theorem gainSlot_inv (h : Inv settings s) (hi : s.connections[i]? = some c) (hs : c.hasSlot = false)
    (extraSlot free : Bool) (hf : free = true → 0 < getFreeSlots settings s) :
    Inv settings (gainSlot i c extraSlot free s) := by
  have hl := h.legal c (List.mem_of_getElem? hi)
  rw [gainSlot]
  cases extraSlot with
  | true =>
    rw [if_pos rfl]
    split_ifs with he
    · exact h.goTo hi nofun nofun
    · refine h.set hi (d := { c with hasExtraSlot := true, place := .idle })
        ⟨fun hboth => ?_, hl.free, nofun, nofun⟩ rfl rfl ?_ Or.inl
      · exact Bool.false_ne_true (hs.symm.trans hboth.1)
      · dsimp only [setConnection]
        rw [Bool.eq_false_iff.mpr he, Bool.toNat_true, Bool.toNat_false]
        omega
  | false =>
    rw [if_neg Bool.false_ne_true]
    refine h.set hi (d := { c with hasSlot := true, hasExtraSlot := false, free := free, place := .idle })
      ⟨fun hboth => Bool.false_ne_true hboth.2, fun _ => rfl, nofun, nofun⟩ rfl ?_ ?_ fun hfree => Or.inr (hf hfree)
    · dsimp only [setConnection]
      rw [hs, Bool.toNat_true, Bool.toNat_false]
      omega
    · dsimp only [setConnection]
      cases c.hasExtraSlot with
      | true =>
        rw [if_pos rfl, Bool.toNat_true, Bool.toNat_false]
        omega
      | false => rw [if_neg Bool.false_ne_true]

theorem startUpload_inv (h : Inv settings s) (hi : s.connections[i]? = some c) (extraSlot gotFullSlot free : Bool)
    (hf : free = true → 0 < getFreeSlots settings s) :
    Inv settings (startUpload i c extraSlot gotFullSlot free s) := by
  have hs : Inv settings { s with uploads := s.uploads ++ [i] } := h.of_same ⟨rfl, rfl, rfl⟩
  rw [startUpload]
  split_ifs with hslot
  · exact hs.goTo hi nofun nofun
  · exact (gainSlot_inv hs hi (Bool.eq_false_iff.mpr hslot) extraSlot free hf).of_same (dropUser_same ..)

theorem proceed_inv (h : Inv settings s) (hi : s.connections[i]? = some c) {a : Answers}
    (hm : Meets settings s (.proceed i a)) (ht : proceed settings i a c s = some t) : Inv settings t := by
  have hl := h.legal c (List.mem_of_getElem? hi)
  have hm := hm c hi
  rw [proceed] at ht
  cases hp : c.place with
  | idle =>
    rw [hp] at ht
    cases ht
  | askReserved r =>
    rw [hp] at ht
    obtain rfl := Option.some.inj ht
    exact h.goTo hi nofun nofun
  | askFree r hasReserved =>
    rw [hp] at ht
    obtain rfl := Option.some.inj ht
    exact h.goTo hi nofun nofun
  | choose r admitted hasFree =>
    rw [hp] at ht
    obtain rfl := Option.some.inj ht
    obtain ⟨_, hplace⟩ | ⟨_, _, _, hplace⟩ := chooseSlot_cases settings r admitted hasFree a.autoSlot c s
    · exact h.goTo hi (hplace ▸ nofun) (hplace ▸ nofun)
    · exact h.goTo hi (hplace ▸ nofun) (hplace ▸ nofun)
  | refused r =>
    rw [hp] at ht
    obtain rfl := Option.some.inj ht
    have hidle : Inv settings (setConnection i { c with place := .idle } s) := h.goTo hi nofun nofun
    exact hidle.of_same ⟨rfl, rfl, rfl⟩
  | prepare extraSlot gotFullSlot free =>
    rw [hp] at ht hm
    obtain rfl := Option.some.inj ht
    split_ifs with ha
    · exact startUpload_inv h hi extraSlot gotFullSlot free fun hfree => hm hfree ha
    · exact h.goTo hi nofun nofun
  | removing =>
    rw [hp] at ht
    obtain rfl := Option.some.inj ht
    refine h.goTo hi (fun n hn => ?_) (fun n hn => ?_)
    · by_contra hno
      rw [if_neg hno] at hn
      cases hn
    · split_ifs at hn
  | decrement running =>
    rw [hp] at ht hm
    obtain rfl := Option.some.inj ht
    have hslot := hl.decrement running hp
    have hextra : c.hasExtraSlot = false := Bool.eq_false_iff.mpr fun he => hl.exclusive ⟨hslot, he⟩
    refine h.set hi (d := { c with hasSlot := false, free := false, place := .removingExtra })
      ⟨fun hboth => Bool.false_ne_true hboth.1, id, nofun, nofun⟩ rfl ?_ rfl nofun
    dsimp only [setConnection] at hm ⊢
    rw [hm, hslot, Bool.toNat_true, Bool.toNat_false]
    omega
  | removingExtra =>
    rw [hp] at ht
    obtain rfl := Option.some.inj ht
    refine h.goTo hi (fun n hn => ?_) (fun n hn => ?_)
    · split_ifs at hn
    · by_contra hno
      rw [if_neg hno] at hn
      cases hn
  | decrementExtra extra =>
    rw [hp] at ht hm
    obtain rfl := Option.some.inj ht
    have hextra := hl.decrementExtra extra hp
    refine h.set hi (d := { c with hasExtraSlot := false, place := .removed })
      ⟨fun hboth => Bool.false_ne_true hboth.2, hl.free, nofun, nofun⟩ rfl rfl ?_ Or.inl
    dsimp only [setConnection] at hm ⊢
    rw [hm, hextra, Bool.toNat_true, Bool.toNat_false]
    omega
  | removed =>
    rw [hp] at ht
    cases ht

omit [DecidableEq U] in
theorem addConnection_inv (h : Inv settings s) (user : U) (op supportsMiniSlots : Bool) :
    Inv settings { s with
      connections := s.connections ++ [⟨user, op, supportsMiniSlots, false, false, false, .idle⟩] } := by
  have hlegal : ∀ x ∈ s.connections ++ [⟨user, op, supportsMiniSlots, false, false, false, .idle⟩], x.Legal := by
    intro x hx
    obtain hx | hx := List.mem_append.mp hx
    · exact h.legal x hx
    · obtain rfl := List.mem_singleton.mp hx
      exact ⟨fun hboth => Bool.false_ne_true hboth.1, id, nofun, nofun⟩
  refine ⟨⟨?_, ?_, fun x hx => (hlegal x hx).exclusive, ?_⟩, hlegal⟩
  · rw [slots, List.countP_append]
    exact h.accounted.running
  · rw [extraSlots, List.countP_append]
    exact h.accounted.extra
  · rw [freeSlots, List.countP_append]
    exact h.accounted.free

theorem step_inv (h : Inv settings s) {e : Event U} (hm : Meets settings s e) (ht : step settings s e = some t) :
    Inv settings t := by
  cases e with
  | addConnection user op supportsMiniSlots =>
    obtain rfl := Option.some.inj ht
    exact addConnection_inv h user op supportsMiniSlots
  | request i r =>
    obtain ⟨c, hi, ht⟩ := Option.bind_eq_some_iff.mp ht
    rw [request] at ht
    split_ifs at ht
    · obtain rfl := Option.some.inj ht
      exact h.goTo hi nofun nofun
    · obtain rfl := Option.some.inj ht
      exact h.goTo hi nofun nofun
  | proceed i a =>
    obtain ⟨c, hi, ht⟩ := Option.bind_eq_some_iff.mp ht
    exact proceed_inv h hi hm ht
  | transmitDone i =>
    obtain ⟨c, -, ht⟩ := Option.bind_eq_some_iff.mp ht
    rw [transmitDone] at ht
    split_ifs at ht
    obtain rfl := Option.some.inj ht
    exact h.of_same ⟨rfl, rfl, rfl⟩
  | failed i =>
    obtain ⟨c, hi, ht⟩ := Option.bind_eq_some_iff.mp ht
    rw [failed] at ht
    split_ifs at ht
    obtain rfl := Option.some.inj ht
    have hremoving : Inv settings (setConnection i { c with place := .removing } s) := h.goTo hi nofun nofun
    exact hremoving.of_same ⟨rfl, rfl, rfl⟩
  | reserveSlot aUser => exact Option.some.inj ht ▸ h.of_same ⟨rfl, rfl, rfl⟩
  | second isOnline tick => exact Option.some.inj ht ▸ h.of_same (notifyQueuedUsers_same ..)
  | minute aTick => exact Option.some.inj ht ▸ h.of_same (expire_same ..)
  | userDisconnected aUser => exact Option.some.inj ht ▸ h.of_same (clearUserFiles_same ..)

end

omit [DecidableEq U] in
theorem start_inv (settings : Settings) : Inv settings (start : State U) where
  accounted := ⟨rfl, rfl, fun _ h => absurd h List.not_mem_nil, Int.le_max_right _ _⟩
  legal := fun _ h => absurd h List.not_mem_nil

/-- The counters agree with the flags in every run in which no section comes between the read and the
write of a decrement, and a free slot is still free when it is given. -/
theorem run_slots_accounted (settings : Settings) {events : List (Event U)} {t : State U}
    (hm : Runs.Each (step settings) (Meets settings) start events) (ht : run settings events = some t) :
    Accounted settings t :=
  (Runs.run_preserves (fun _ _ _ h hm ht => step_inv h hm ht) (start_inv settings) hm ht).accounted

def oneSlot : Settings := ⟨1, 3⟩

/-- A connection up to where it starts an upload or not. -/
def asks (i : Nat) : List (Event Nat) :=
  [.request i ⟨str "/a", false⟩, .proceed i ⟨false, false, true⟩, .proceed i ⟨false, false, true⟩,
    .proceed i ⟨false, false, true⟩]

/-- A connection gets the slot, sends its file and ends. -/
def sentRun : List (Event Nat) :=
  [.addConnection 0 false true] ++ asks 0 ++ [.proceed 0 ⟨false, false, true⟩, .transmitDone 0, .failed 0,
    .proceed 0 ⟨false, false, true⟩, .proceed 0 ⟨false, false, true⟩, .proceed 0 ⟨false, false, true⟩]

theorem run_slots_accounted_sent : ∃ t, run oneSlot sentRun = some t ∧ t.running = 0 ∧ Accounted oneSlot t := by
  have hrun : (run oneSlot sentRun).any (fun t => t.running = 0) = true := by decide +kernel
  obtain ⟨t, ht, hrunning⟩ := (Option.any_eq_true _ _).mp hrun
  exact ⟨t, ht, of_decide_eq_true hrunning, run_slots_accounted oneSlot (by decide +kernel) ht⟩

/-- Two connections find the one slot free before one of them has it. -/
def bothRun : List (Event Nat) :=
  [.addConnection 0 false true, .addConnection 1 false true] ++ asks 0 ++ asks 1 ++
    [.proceed 0 ⟨false, false, true⟩, .proceed 1 ⟨false, false, true⟩]

/-- A connection ends, and another gains a slot between the read and the write of the decrement. -/
def lostRun : List (Event Nat) :=
  [.addConnection 0 false true, .addConnection 1 false true] ++ asks 0 ++ asks 1 ++
    [.proceed 0 ⟨false, false, true⟩, .failed 0, .proceed 0 ⟨false, false, true⟩,
      .proceed 1 ⟨false, false, true⟩, .proceed 0 ⟨false, false, true⟩]

theorem not_run_slots_accounted :
    (¬∀ (events : List (Event Nat)) t, run oneSlot events = some t →
      (freeSlots t : Int) ≤ max oneSlot.SLOTS 0) ∧
    ¬∀ (events : List (Event Nat)) t, run oneSlot events = some t → t.running = slots t := by
  constructor
  · intro h
    have hrun : (run oneSlot bothRun).any (fun t => freeSlots t = 2) = true := by decide +kernel
    obtain ⟨t, ht, hfree⟩ := (Option.any_eq_true _ _).mp hrun
    have hle := h bothRun t ht
    rw [of_decide_eq_true hfree] at hle
    exact absurd hle (by decide)
  · intro h
    have hrun : (run oneSlot lostRun).any (fun t => t.running = 0 && slots t = 1) = true := by decide +kernel
    obtain ⟨t, ht, hp⟩ := (Option.any_eq_true _ _).mp hrun
    obtain ⟨hrunning, hslots⟩ := Bool.and_eq_true_iff.mp hp
    have heq := h lostRun t ht
    rw [of_decide_eq_true hrunning, of_decide_eq_true hslots] at heq
    cases heq

end Dcpp.UploadManager
