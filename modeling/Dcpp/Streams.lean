import Mathlib.Data.List.Basic

namespace Dcpp

/-- How a call ended, with the state it left behind. -/
inductive Outcome (S : Type) where
  | returned (s : S)
  | threw (aError : String) (s : S)
  /-- The call read outside of its data, or did not end. -/
  | undefined
deriving DecidableEq

namespace Outcome

variable {S T : Type}

def map (f : S → T) : Outcome S → Outcome T
  | returned s => returned (f s)
  | threw aError s => threw aError (f s)
  | undefined => undefined

def andThen (r : Outcome S) (f : S → Outcome S) : Outcome S :=
  match r with
  | returned s => f s
  | threw aError s => threw aError s
  | undefined => undefined

def state? : Outcome S → Option S
  | returned s => some s
  | threw _ s => some s
  | undefined => none

@[simp] theorem map_returned (f : S → T) (s : S) : (returned s).map f = returned (f s) := rfl

@[simp] theorem map_threw (f : S → T) (aError : String) (s : S) :
    (threw aError s).map f = threw aError (f s) := rfl

@[simp] theorem map_undefined (f : S → T) : (undefined : Outcome S).map f = undefined := rfl

@[simp] theorem andThen_returned (s : S) (f : S → Outcome S) : (returned s).andThen f = f s := rfl

@[simp] theorem andThen_threw (aError : String) (s : S) (f : S → Outcome S) :
    (threw aError s).andThen f = threw aError s := rfl

end Outcome

/-- An `OutputStream` over the states `S`: its two virtual functions. -/
structure OutputStream (S : Type) where
  write : S → List UInt8 → Outcome S
  flush : S → Outcome S

namespace OutputStream

variable {S : Type}

/-- The calls of a client that writes the pieces in turn and flushes once, each with
the bytes given to `write` so far. A call that does not return is the last one. -/
def run (s : OutputStream S) : S → List UInt8 → List (List UInt8) → List (List UInt8 × Outcome S)
  | st, done, [] => [(done, s.flush st)]
  | st, done, b :: calls =>
    (done ++ b, s.write st b) ::
      match s.write st b with
      | .returned st' => run s st' (done ++ b) calls
      | _ => []

/-- A stream whose calls always return. -/
def Returns (s : OutputStream S) : Prop :=
  (∀ st b, ∃ st', s.write st b = .returned st') ∧ ∀ st, ∃ st', s.flush st = .returned st'

end OutputStream

/-- `StringOutputStream`, on its `str`. -/
def stringOutputStream : OutputStream (List UInt8) where
  write str buf := .returned (str ++ buf)
  flush str := .returned str

theorem stringOutputStream_returns : stringOutputStream.Returns :=
  ⟨fun str buf => ⟨str ++ buf, rfl⟩, fun str => ⟨str, rfl⟩⟩

variable {S F : Type}

/-- A `LimitedOutputStream` in front of `s`, on its `maxBytes`. -/
def limitedOutputStream (s : OutputStream S) : OutputStream (Nat × S) where
  write st buf :=
    if st.1 < buf.length then .threw "More bytes written than requested" st
    else (s.write st.2 buf).map (st.1 - buf.length, ·)
  flush st := (s.flush st.2).map (st.1, ·)

/-- The loop of `BufferedOutputStream::write`, on the first `pos` bytes of the source's
`buf`. -/
def bufferedWrite (s : OutputStream S) (bufSize : Nat) (buf : List UInt8) (st : S)
    (b : List UInt8) : Outcome (List UInt8 × S) :=
  if b = [] then .returned (buf, st)
  else if buf = [] ∧ bufSize ≤ b.length then (s.write st b).map (buf, ·)
  else if bufSize < buf.length then .undefined
  else
    let n := min (bufSize - buf.length) b.length
    if (buf ++ b.take n).length = bufSize then
      match s.write st (buf ++ b.take n) with
      | .returned st => bufferedWrite s bufSize [] st (b.drop n)
      | .threw aError st => .threw aError (buf ++ b.take n, st)
      | .undefined => .undefined
    else bufferedWrite s bufSize (buf ++ b.take n) st (b.drop n)
termination_by (b.length, buf.length)
decreasing_by
  · rename_i h1 h2 h3 h4
    simp only [List.length_drop, List.length_append, List.length_take] at *
    have := List.length_pos_iff.mpr h1
    by_cases hb : buf = []
    · have : buf.length = 0 := List.length_eq_zero_iff.mpr hb
      have h5 : ¬bufSize ≤ b.length := fun h => h2 ⟨hb, h⟩
      omega
    · have := List.length_pos_iff.mpr hb
      simp only [Prod.lex_def]
      simp only [List.length_nil]
      omega
  · rename_i h1 h2 h3 h4
    simp only [List.length_drop, List.length_append, List.length_take] at *
    have := List.length_pos_iff.mpr h1
    simp only [Prod.lex_def]
    omega

/-- The first part of `BufferedOutputStream::flush`: writes out the buffer. -/
def bufferedEmpty (s : OutputStream S) (st : List UInt8 × S) : Outcome (List UInt8 × S) :=
  if st.1 = [] then .returned st
  else match s.write st.2 st.1 with
    | .returned t => .returned ([], t)
    | .threw aError t => .threw aError (st.1, t)
    | .undefined => .undefined

def bufferedFlush (s : OutputStream S) (st : List UInt8 × S) : Outcome (List UInt8 × S) :=
  (bufferedEmpty s st).andThen fun st => (s.flush st.2).map (st.1, ·)

/-- A `BufferedOutputStream` in front of `s`. -/
def bufferedOutputStream (bufSize : Nat) (s : OutputStream S) : OutputStream (List UInt8 × S) where
  write st b := bufferedWrite s bufSize st.1 st.2 b
  flush st := bufferedFlush s st

/-- `~BufferedOutputStream`: an error of the last `flush` is lost. -/
def bufferedClose (s : OutputStream S) (st : List UInt8 × S) : Outcome (List UInt8 × S) :=
  match bufferedFlush s st with
  | .threw _ st => .returned st
  | r => r

/-- A `File` open for writing: the bytes of the write calls that succeeded, and the
number of calls so far. -/
structure File where
  stored : List UInt8
  calls : Nat
deriving DecidableEq

/-- `File::write` and `File::flush`, where `succeeds` tells which calls do. -/
def fileOutputStream (succeeds : Nat → Bool) : OutputStream File where
  write f buf :=
    if succeeds f.calls then .returned ⟨f.stored ++ buf, f.calls + 1⟩
    else .threw "File error" { f with calls := f.calls + 1 }
  flush f :=
    if succeeds f.calls then .returned { f with calls := f.calls + 1 }
    else .threw "File error" { f with calls := f.calls + 1 }

/-- What one call of a filter did with its input: it threw, or it consumed some bytes
and produced others, and tells whether there is more to come. -/
inductive FilterCall (F : Type) where
  | threw (aError : String)
  | produced (filter : F) (consumed : Nat) (out : List UInt8) (more : Bool)

/-- The members of a `FilteredOutputStream` apart from the stream `f` below it. -/
structure Filtered (F : Type) where
  filter : F
  flushed : Bool
  more : Bool

/-- The loop of `FilteredOutputStream::write`, with `written` as its result. -/
def filteredLoop (filter : F → List UInt8 → FilterCall F) (s : OutputStream S) :
    Nat → Nat → Filtered F × S → List UInt8 → Outcome (Nat × Filtered F × S)
  | 0, _, _, _ => .undefined
  | fuel + 1, written, st, wb =>
    if wb = [] then .returned (written, st)
    else match filter st.1.filter wb with
      | .threw aError => .threw aError (written, st)
      | .produced f m out more =>
        match s.write st.2 out with
        | .threw aError t => .threw aError (written, ⟨f, st.1.flushed, more⟩, t)
        | .undefined => .undefined
        | .returned t =>
          if more then
            filteredLoop filter s fuel (written + out.length) (⟨f, st.1.flushed, more⟩, t) (wb.drop m)
          else if wb.drop m = [] then
            .returned (written + out.length, ⟨f, st.1.flushed, more⟩, t)
          else
            .threw "Garbage data after end of stream"
              (written + out.length, ⟨f, st.1.flushed, more⟩, t)

def filteredWrite (filter : F → List UInt8 → FilterCall F) (s : OutputStream S) (fuel : Nat)
    (st : Filtered F × S) (wbuf : List UInt8) : Outcome (Nat × Filtered F × S) :=
  if st.1.flushed then .threw "No filtered writes after flush" (0, st)
  else filteredLoop filter s fuel 0 st wbuf

/-- The loop of `FilteredOutputStream::flush`. -/
def filteredDrain (filter : F → List UInt8 → FilterCall F) (s : OutputStream S) :
    Nat → Filtered F × S → Outcome (Filtered F × S)
  | 0, _ => .undefined
  | fuel + 1, st =>
    match filter st.1.filter [] with
    | .threw aError => .threw aError st
    | .produced f _ out more =>
      match s.write st.2 out with
      | .threw aError t => .threw aError (⟨f, st.1.flushed, more⟩, t)
      | .undefined => .undefined
      | .returned t =>
        if more then filteredDrain filter s fuel (⟨f, st.1.flushed, more⟩, t)
        else .returned (⟨f, st.1.flushed, more⟩, t)

def filteredFlush (filter : F → List UInt8 → FilterCall F) (s : OutputStream S) (fuel : Nat)
    (st : Filtered F × S) : Outcome (Filtered F × S) :=
  if st.1.flushed then .returned st
  else (filteredDrain filter s fuel ({ st.1 with flushed := true }, st.2)).andThen
    fun st => (s.flush st.2).map (st.1, ·)

namespace OutputStream

/-- Whatever a call of `write` does, it keeps `p`. -/
def WriteKeeps (s : OutputStream S) (p : S → Prop) : Prop :=
  ∀ st b st', p st → (s.write st b).state? = some st' → p st'

def FlushKeeps (s : OutputStream S) (p : S → Prop) : Prop :=
  ∀ st st', p st → (s.flush st).state? = some st' → p st'

/-- What `carried` reads off the states is what calls of `write` that returned were given. -/
structure Carries (s : OutputStream S) (carried : S → List UInt8) : Prop where
  returned : ∀ {st b st'}, s.write st b = .returned st' → carried st' = carried st ++ b
  threw : ∀ {st b aError st'}, s.write st b = .threw aError st' → carried st' = carried st
  flush : ∀ {st st'}, (s.flush st).state? = some st' → carried st' = carried st

end OutputStream

open OutputStream

theorem Outcome.state?_map {T : Type} (r : Outcome S) (f : S → T) :
    (r.map f).state? = r.state?.map f := by
  cases r <;> rfl

theorem Outcome.state?_andThen {r : Outcome S} {f : S → Outcome S} {t : S}
    (h : (r.andThen f).state? = some t) :
    (∃ aError, r = .threw aError t) ∨ ∃ s, r = .returned s ∧ (f s).state? = some t := by
  cases r with
  | returned s => exact Or.inr ⟨s, rfl, h⟩
  | threw aError s =>
    obtain rfl := Option.some.inj h
    exact Or.inl ⟨aError, rfl⟩
  | undefined => cases h

/-- A stream in front of another one changes the other's state by its calls only. -/
theorem Outcome.forward_keeps {M : Type} {r : Outcome M} {f : S → Outcome S} {s : S} {p : S → Prop}
    {st : M × S} (hp : p s) (hf : ∀ t, (f s).state? = some t → p t)
    (h : ((r.map (·, s)).andThen fun st => (f st.2).map (st.1, ·)).state? = some st) : p st.2 := by
  cases r with
  | returned m =>
    rw [Outcome.map_returned, Outcome.andThen_returned, Outcome.state?_map, Option.map_eq_some_iff] at h
    obtain ⟨t, ht, rfl⟩ := h
    exact hf t ht
  | threw aError m =>
    obtain rfl := Option.some.inj h
    exact hp
  | undefined => cases h

theorem limitedOutputStream_writeKeeps {s : OutputStream S} {p : S → Prop} (h : s.WriteKeeps p) :
    (limitedOutputStream s).WriteKeeps fun st => p st.2 := by
  intro st b st' hp hst
  simp only [limitedOutputStream] at hst
  by_cases hlt : st.1 < b.length
  · rw [if_pos hlt] at hst
    obtain rfl := Option.some.inj hst
    exact hp
  · rw [if_neg hlt, Outcome.state?_map, Option.map_eq_some_iff] at hst
    obtain ⟨t, ht, rfl⟩ := hst
    exact h st.2 b t hp ht

theorem limitedOutputStream_flushKeeps {s : OutputStream S} {p : S → Prop} (h : s.FlushKeeps p) :
    (limitedOutputStream s).FlushKeeps fun st => p st.2 := by
  intro st st' hp hst
  simp only [limitedOutputStream] at hst
  rw [Outcome.state?_map, Option.map_eq_some_iff] at hst
  obtain ⟨t, ht, rfl⟩ := hst
  exact h st.2 t hp ht

theorem filteredLoop_keeps {filter : F → List UInt8 → FilterCall F} {s : OutputStream S}
    {p : S → Prop} (h : s.WriteKeeps p) (fuel written : Nat) (st : Filtered F × S)
    (wb : List UInt8) {r : Nat × Filtered F × S} (hp : p st.2)
    (hr : (filteredLoop filter s fuel written st wb).state? = some r) : p r.2.2 := by
  induction fuel generalizing written st wb with
  | zero => cases hr
  | succ fuel ih =>
    rw [filteredLoop] at hr
    by_cases hwb : wb = []
    · rw [if_pos hwb] at hr
      obtain rfl := Option.some.inj hr
      exact hp
    · rw [if_neg hwb] at hr
      cases hf : filter st.1.filter wb with
      | threw aError =>
        rw [hf] at hr
        obtain rfl := Option.some.inj hr
        exact hp
      | produced f m out more =>
        rw [hf] at hr
        dsimp only at hr
        cases hw : s.write st.2 out with
        | undefined =>
          rw [hw] at hr
          cases hr
        | threw aError t =>
          rw [hw] at hr
          obtain rfl := Option.some.inj hr
          exact h st.2 out t hp (by rw [hw]; rfl)
        | returned t =>
          have ht : p t := h st.2 out t hp (by rw [hw]; rfl)
          rw [hw] at hr
          dsimp only at hr
          split at hr
          · exact ih _ (⟨f, st.1.flushed, more⟩, t) _ ht hr
          · split at hr
            · obtain rfl := Option.some.inj hr
              exact ht
            · obtain rfl := Option.some.inj hr
              exact ht

theorem filteredWrite_keeps {filter : F → List UInt8 → FilterCall F} {s : OutputStream S}
    {p : S → Prop} (h : s.WriteKeeps p) {fuel : Nat} {st : Filtered F × S} {wbuf : List UInt8}
    {r : Nat × Filtered F × S} (hp : p st.2)
    (hr : (filteredWrite filter s fuel st wbuf).state? = some r) : p r.2.2 := by
  rw [filteredWrite] at hr
  split at hr
  · obtain rfl := Option.some.inj hr
    exact hp
  · exact filteredLoop_keeps h fuel 0 st wbuf hp hr

theorem filteredDrain_keeps {filter : F → List UInt8 → FilterCall F} {s : OutputStream S}
    {p : S → Prop} (h : s.WriteKeeps p) (fuel : Nat) (st : Filtered F × S) {r : Filtered F × S}
    (hp : p st.2) (hr : (filteredDrain filter s fuel st).state? = some r) : p r.2 := by
  induction fuel generalizing st with
  | zero => cases hr
  | succ fuel ih =>
    rw [filteredDrain] at hr
    cases hf : filter st.1.filter [] with
    | threw aError =>
      rw [hf] at hr
      obtain rfl := Option.some.inj hr
      exact hp
    | produced f m out more =>
      rw [hf] at hr
      dsimp only at hr
      cases hw : s.write st.2 out with
      | undefined =>
        rw [hw] at hr
        cases hr
      | threw aError t =>
        rw [hw] at hr
        obtain rfl := Option.some.inj hr
        exact h st.2 out t hp (by rw [hw]; rfl)
      | returned t =>
        have ht : p t := h st.2 out t hp (by rw [hw]; rfl)
        rw [hw] at hr
        dsimp only at hr
        split at hr
        · exact ih (⟨f, st.1.flushed, more⟩, t) ht hr
        · obtain rfl := Option.some.inj hr
          exact ht

theorem filteredFlush_keeps {filter : F → List UInt8 → FilterCall F} {s : OutputStream S}
    {p : S → Prop} (h : s.WriteKeeps p) (h' : s.FlushKeeps p) {fuel : Nat} {st r : Filtered F × S}
    (hp : p st.2) (hr : (filteredFlush filter s fuel st).state? = some r) : p r.2 := by
  rw [filteredFlush] at hr
  split at hr
  · obtain rfl := Option.some.inj hr
    exact hp
  · obtain ⟨aError, ht⟩ | ⟨t, ht, hr⟩ := Outcome.state?_andThen hr
    · exact filteredDrain_keeps h fuel ({ st.1 with flushed := true }, st.2) hp (by rw [ht]; rfl)
    · have hp' : p t.2 :=
        filteredDrain_keeps h fuel ({ st.1 with flushed := true }, st.2) hp (by rw [ht]; rfl)
      rw [Outcome.state?_map, Option.map_eq_some_iff] at hr
      obtain ⟨t', ht', rfl⟩ := hr
      exact h' t.2 t' hp' ht'

/-- Every byte that came to the buffer, in order. -/
def pending (st : List UInt8 × File) : List UInt8 := st.2.stored ++ st.1

theorem fileOutputStream_write {succeeds : Nat → Bool} {f f' : File} {b : List UInt8} :
    ((fileOutputStream succeeds).write f b = .returned f' → f'.stored = f.stored ++ b) ∧
    ∀ aError, (fileOutputStream succeeds).write f b = .threw aError f' → f'.stored = f.stored := by
  simp only [fileOutputStream]
  by_cases hs : succeeds f.calls = true
  · rw [if_pos hs]
    refine ⟨fun h => ?_, fun aError h => by cases h⟩
    obtain rfl := Outcome.returned.inj h
    rfl
  · rw [if_neg hs]
    refine ⟨fun h => (by cases h), fun aError h => ?_⟩
    obtain ⟨-, rfl⟩ := Outcome.threw.inj h
    rfl

theorem fileOutputStream_flush {succeeds : Nat → Bool} {f f' : File}
    (h : ((fileOutputStream succeeds).flush f).state? = some f') : f'.stored = f.stored := by
  simp only [fileOutputStream] at h
  split at h
  · obtain rfl := Option.some.inj h
    rfl
  · obtain rfl := Option.some.inj h
    rfl

section BufferedWrite

variable {s : OutputStream S} {bufSize : Nat} {buf b : List UInt8} {st : S}

/-- The pass that fills the buffer writes it out first. -/
theorem bufferedWrite_full (hb : b ≠ []) (hdirect : ¬(buf = [] ∧ bufSize ≤ b.length))
    (hlt : ¬bufSize < buf.length)
    (hfull : (buf ++ b.take (min (bufSize - buf.length) b.length)).length = bufSize) :
    bufferedWrite s bufSize buf st b =
      match s.write st (buf ++ b.take (min (bufSize - buf.length) b.length)) with
      | .returned st => bufferedWrite s bufSize [] st (b.drop (min (bufSize - buf.length) b.length))
      | .threw aError st => .threw aError (buf ++ b.take (min (bufSize - buf.length) b.length), st)
      | .undefined => .undefined := by
  rw [bufferedWrite, if_neg hb, if_neg hdirect, if_neg hlt]
  dsimp only
  rw [if_pos hfull]

theorem bufferedWrite_part (hb : b ≠ []) (hdirect : ¬(buf = [] ∧ bufSize ≤ b.length))
    (hlt : ¬bufSize < buf.length)
    (hfull : (buf ++ b.take (min (bufSize - buf.length) b.length)).length ≠ bufSize) :
    bufferedWrite s bufSize buf st b =
      bufferedWrite s bufSize (buf ++ b.take (min (bufSize - buf.length) b.length)) st
        (b.drop (min (bufSize - buf.length) b.length)) := by
  rw [bufferedWrite, if_neg hb, if_neg hdirect, if_neg hlt]
  dsimp only
  rw [if_neg hfull]

variable {carried : S → List UInt8}

/-- A call that returns leaves its bytes behind those that came before, in the stream below or in the buffer. -/
theorem OutputStream.Carries.bufferedWrite_returned (hs : s.Carries carried) {st' : List UInt8 × S}
    (h : bufferedWrite s bufSize buf st b = .returned st') : carried st'.2 ++ st'.1 = carried st ++ buf ++ b := by
  induction buf, st, b using bufferedWrite.induct s bufSize with
  | case1 buf st =>
    rw [bufferedWrite, if_pos rfl] at h
    obtain rfl := Outcome.returned.inj h
    rw [List.append_nil]
  | case2 buf st b hb hdirect =>
    rw [bufferedWrite, if_neg hb, if_pos hdirect] at h
    cases hw : s.write st b with
    | returned t =>
      rw [hw] at h
      obtain rfl := Outcome.returned.inj h
      rw [hdirect.1, List.append_nil, List.append_nil]
      exact hs.returned hw
    | threw aError t =>
      rw [hw] at h
      cases h
    | undefined =>
      rw [hw] at h
      cases h
  | case3 buf st b hb hdirect hlt =>
    rw [bufferedWrite, if_neg hb, if_neg hdirect, if_pos hlt] at h
    cases h
  | case4 buf st b hb hdirect hlt n hfull t hw ih =>
    rw [bufferedWrite_full hb hdirect hlt hfull, hw] at h
    rw [ih h, hs.returned hw]
    simp
  | case5 buf st b hb hdirect hlt n hfull aError t hw =>
    rw [bufferedWrite_full hb hdirect hlt hfull, hw] at h
    cases h
  | case6 buf st b hb hdirect hlt n hfull hw =>
    rw [bufferedWrite_full hb hdirect hlt hfull, hw] at h
    cases h
  | case7 buf st b hb hdirect hlt n hfull ih =>
    rw [bufferedWrite_part hb hdirect hlt hfull] at h
    rw [ih h]
    simp [n]

/-- However a call ends, what came before is still there, with the first of its own bytes behind it. -/
theorem OutputStream.Carries.bufferedWrite_state (hs : s.Carries carried) {st' : List UInt8 × S}
    (h : (bufferedWrite s bufSize buf st b).state? = some st') :
    carried st ++ buf <+: carried st'.2 ++ st'.1 ∧ carried st'.2 ++ st'.1 <+: carried st ++ buf ++ b := by
  induction buf, st, b using bufferedWrite.induct s bufSize with
  | case1 buf st =>
    rw [bufferedWrite, if_pos rfl] at h
    obtain rfl := Option.some.inj h
    rw [List.append_nil]
    exact ⟨List.prefix_refl _, List.prefix_refl _⟩
  | case2 buf st b hb hdirect =>
    rw [bufferedWrite, if_neg hb, if_pos hdirect] at h
    rw [hdirect.1, List.append_nil]
    cases hw : s.write st b with
    | returned t =>
      rw [hw] at h
      obtain rfl := Option.some.inj h
      simp only [hs.returned hw, hdirect.1, List.append_nil]
      exact ⟨List.prefix_append _ _, List.prefix_refl _⟩
    | threw aError t =>
      rw [hw] at h
      obtain rfl := Option.some.inj h
      simp only [hs.threw hw, hdirect.1, List.append_nil]
      exact ⟨List.prefix_refl _, List.prefix_append _ _⟩
    | undefined =>
      rw [hw] at h
      cases h
  | case3 buf st b hb hdirect hlt =>
    rw [bufferedWrite, if_neg hb, if_neg hdirect, if_pos hlt] at h
    cases h
  | case4 buf st b hb hdirect hlt n hfull t hw ih =>
    rw [bufferedWrite_full hb hdirect hlt hfull, hw] at h
    obtain ⟨hbefore, hwithin⟩ := ih h
    rw [hs.returned hw, List.append_nil, ← List.append_assoc] at hbefore hwithin
    refine ⟨(List.prefix_append _ _).trans hbefore, ?_⟩
    rwa [List.append_assoc, List.take_append_drop] at hwithin
  | case5 buf st b hb hdirect hlt n hfull aError t hw =>
    rw [bufferedWrite_full hb hdirect hlt hfull, hw] at h
    obtain rfl := Option.some.inj h
    rw [hs.threw hw, ← List.append_assoc]
    exact ⟨List.prefix_append _ _, List.prefix_append_right_inj _ |>.mpr (List.take_prefix _ _)⟩
  | case6 buf st b hb hdirect hlt n hfull hw =>
    rw [bufferedWrite_full hb hdirect hlt hfull, hw] at h
    cases h
  | case7 buf st b hb hdirect hlt n hfull ih =>
    rw [bufferedWrite_part hb hdirect hlt hfull] at h
    obtain ⟨hbefore, hwithin⟩ := ih h
    rw [← List.append_assoc] at hbefore hwithin
    refine ⟨(List.prefix_append _ _).trans hbefore, ?_⟩
    rwa [List.append_assoc, List.take_append_drop] at hwithin

theorem OutputStream.Carries.bufferedEmpty_state (hs : s.Carries carried) {st st' : List UInt8 × S}
    (h : (bufferedEmpty s st).state? = some st') :
    carried st'.2 ++ st'.1 = carried st.2 ++ st.1 ∧ (st.1 = [] → st' = st) := by
  rw [bufferedEmpty] at h
  by_cases hb : st.1 = []
  · rw [if_pos hb] at h
    obtain rfl := Option.some.inj h
    exact ⟨rfl, fun _ => rfl⟩
  · rw [if_neg hb] at h
    refine ⟨?_, fun hb' => absurd hb' hb⟩
    cases hw : s.write st.2 st.1 with
    | returned t =>
      rw [hw] at h
      obtain rfl := Option.some.inj h
      rw [hs.returned hw, List.append_nil]
    | threw aError t =>
      rw [hw] at h
      obtain rfl := Option.some.inj h
      rw [hs.threw hw]
    | undefined =>
      rw [hw] at h
      cases h

theorem bufferedEmpty_returned {st st' : List UInt8 × S} (h : bufferedEmpty s st = .returned st') : st'.1 = [] := by
  rw [bufferedEmpty] at h
  by_cases hb : st.1 = []
  · rw [if_pos hb] at h
    obtain rfl := Outcome.returned.inj h
    exact hb
  · rw [if_neg hb] at h
    cases hw : s.write st.2 st.1 with
    | returned t =>
      rw [hw] at h
      obtain rfl := Outcome.returned.inj h
      rfl
    | threw aError t =>
      rw [hw] at h
      cases h
    | undefined =>
      rw [hw] at h
      cases h

/-- A flush loses no byte, keeps an empty buffer, and empties the buffer if it returns. -/
theorem OutputStream.Carries.bufferedFlush_state (hs : s.Carries carried) {st st' : List UInt8 × S}
    (h : (bufferedFlush s st).state? = some st') :
    carried st'.2 ++ st'.1 = carried st.2 ++ st.1 ∧
      (st.1 = [] → st'.1 = []) ∧ (bufferedFlush s st = .returned st' → st'.1 = []) := by
  rw [bufferedFlush] at h ⊢
  obtain ⟨aError, ht⟩ | ⟨t, ht, h⟩ := Outcome.state?_andThen h
  · obtain ⟨hp, hnil⟩ := hs.bufferedEmpty_state (show _ = some st' by rw [ht]; rfl)
    refine ⟨hp, fun hb => by rw [hnil hb, hb], fun hret => ?_⟩
    rw [ht] at hret
    cases hret
  · obtain ⟨hp, -⟩ := hs.bufferedEmpty_state (show _ = some t by rw [ht]; rfl)
    have hnil := bufferedEmpty_returned ht
    rw [Outcome.state?_map, Option.map_eq_some_iff] at h
    obtain ⟨u, hu, rfl⟩ := h
    refine ⟨?_, fun _ => hnil, fun _ => hnil⟩
    rw [← hp, hs.flush hu]

end BufferedWrite

theorem fileOutputStream_carries (succeeds : Nat → Bool) : (fileOutputStream succeeds).Carries File.stored where
  returned := fileOutputStream_write.1
  threw := fileOutputStream_write.2 _
  flush := fileOutputStream_flush

theorem bufferedEmpty_stored {succeeds : Nat → Bool} {st st' : List UInt8 × File}
    (h : (bufferedEmpty (fileOutputStream succeeds) st).state? = some st') :
    st.2.stored <+: st'.2.stored := by
  rw [bufferedEmpty] at h
  by_cases hb : st.1 = []
  · rw [if_pos hb] at h
    obtain rfl := Option.some.inj h
    exact List.prefix_refl _
  · rw [if_neg hb] at h
    cases hw : (fileOutputStream succeeds).write st.2 st.1 with
    | returned f' =>
      rw [hw] at h
      obtain rfl := Option.some.inj h
      rw [fileOutputStream_write.1 hw]
      exact List.prefix_append _ _
    | threw aError f' =>
      rw [hw] at h
      obtain rfl := Option.some.inj h
      rewrite [fileOutputStream_write.2 _ hw]
      exact List.prefix_refl _
    | undefined =>
      rw [hw] at h
      cases h

/-- A flush never takes back what is stored, and empties the buffer if the first call of
the file succeeds. -/
theorem bufferedFlush_stored {succeeds : Nat → Bool} {st st' : List UInt8 × File}
    (h : (bufferedFlush (fileOutputStream succeeds) st).state? = some st') :
    st.2.stored <+: st'.2.stored ∧ (succeeds st.2.calls = true → st'.1 = []) := by
  rw [bufferedFlush] at h
  obtain ⟨aError, ht⟩ | ⟨t, ht, h⟩ := Outcome.state?_andThen h
  · refine ⟨bufferedEmpty_stored (by rw [ht]; rfl), fun hs => ?_⟩
    rw [bufferedEmpty] at ht
    split at ht
    · cases ht
    · simp [fileOutputStream, hs] at ht
  · rw [Outcome.state?_map, Option.map_eq_some_iff] at h
    obtain ⟨f', hf, rfl⟩ := h
    have hnil := bufferedEmpty_returned ht
    refine ⟨?_, fun _ => hnil⟩
    rw [fileOutputStream_flush hf]
    exact bufferedEmpty_stored (show _ = some t by rw [ht]; rfl)

theorem bufferedFlush_defined (succeeds : Nat → Bool) (st : List UInt8 × File) :
    ∃ st', (bufferedFlush (fileOutputStream succeeds) st).state? = some st' := by
  have hflush : ∀ t : List UInt8 × File,
      ∃ f, ((fileOutputStream succeeds).flush t.2).state? = some f := by
    intro t
    simp only [fileOutputStream]
    split
    · exact ⟨_, rfl⟩
    · exact ⟨_, rfl⟩
  have hempty : ∃ t, (bufferedEmpty (fileOutputStream succeeds) st).state? = some t := by
    rw [bufferedEmpty]
    split
    · exact ⟨_, rfl⟩
    · cases hw : (fileOutputStream succeeds).write st.2 st.1 with
      | returned f => exact ⟨_, rfl⟩
      | threw aError f => exact ⟨_, rfl⟩
      | undefined =>
        simp only [fileOutputStream] at hw
        split at hw <;> cases hw
  obtain ⟨t, ht⟩ := hempty
  rw [bufferedFlush]
  cases hr : bufferedEmpty (fileOutputStream succeeds) st with
  | returned t' =>
    obtain ⟨f, hf⟩ := hflush t'
    refine ⟨(t'.1, f), ?_⟩
    rw [Outcome.andThen_returned, Outcome.state?_map, hf]
    rfl
  | threw aError t' => exact ⟨t', rfl⟩
  | undefined =>
    rw [hr] at ht
    cases ht

/-- A flush that cannot write changes neither the buffer nor what is stored. -/
theorem bufferedFlush_fails {b : List UInt8} (hb : b ≠ []) (f : File) :
    bufferedFlush (fileOutputStream fun _ => false) (b, f) =
      .threw "File error" (b, { f with calls := f.calls + 1 }) := by
  rw [bufferedFlush, bufferedEmpty, if_neg hb]
  rfl

/-- Where each `write` that returns adds its bytes to what the stream carries, the loop
of the filter adds the bytes that it reports as written. -/
theorem filteredLoop_returned {filter : F → List UInt8 → FilterCall F} {s : OutputStream S}
    {p : List UInt8 → S → Prop}
    (h : ∀ w st b st', p w st → s.write st b = .returned st' → p (w ++ b) st') (fuel written : Nat)
    (st : Filtered F × S) (wb : List UInt8) {w : List UInt8} {r : Nat × Filtered F × S}
    (hp : p w st.2) (hr : filteredLoop filter s fuel written st wb = .returned r) :
    ∃ b, p (w ++ b) r.2.2 ∧ r.1 = written + b.length ∧ r.2.1.flushed = st.1.flushed := by
  induction fuel generalizing written st wb w with
  | zero => cases hr
  | succ fuel ih =>
    rw [filteredLoop] at hr
    by_cases hwb : wb = []
    · rw [if_pos hwb] at hr
      obtain rfl := Outcome.returned.inj hr
      exact ⟨[], by simpa using hp, rfl, rfl⟩
    · rw [if_neg hwb] at hr
      cases hf : filter st.1.filter wb with
      | threw aError =>
        rw [hf] at hr
        cases hr
      | produced f m out more =>
        rw [hf] at hr
        dsimp only at hr
        cases hw : s.write st.2 out with
        | undefined =>
          rw [hw] at hr
          cases hr
        | threw aError t =>
          rw [hw] at hr
          cases hr
        | returned t =>
          have ht := h w st.2 out t hp hw
          rw [hw] at hr
          dsimp only at hr
          split at hr
          · obtain ⟨b, hb, hlen, hflushed⟩ := ih _ (⟨f, st.1.flushed, more⟩, t) _ ht hr
            refine ⟨out ++ b, by rwa [← List.append_assoc], ?_, hflushed⟩
            rw [hlen, List.length_append, Nat.add_assoc]
          · split at hr
            · obtain rfl := Outcome.returned.inj hr
              exact ⟨out, ht, rfl, rfl⟩
            · cases hr

theorem filteredDrain_returned {filter : F → List UInt8 → FilterCall F} {s : OutputStream S}
    {p : List UInt8 → S → Prop}
    (h : ∀ w st b st', p w st → s.write st b = .returned st' → p (w ++ b) st') (fuel : Nat)
    (st : Filtered F × S) {w : List UInt8} {r : Filtered F × S} (hp : p w st.2)
    (hr : filteredDrain filter s fuel st = .returned r) :
    ∃ b, p (w ++ b) r.2 ∧ r.1.flushed = st.1.flushed := by
  induction fuel generalizing st w with
  | zero => cases hr
  | succ fuel ih =>
    rw [filteredDrain] at hr
    cases hf : filter st.1.filter [] with
    | threw aError =>
      rw [hf] at hr
      cases hr
    | produced f m out more =>
      rw [hf] at hr
      dsimp only at hr
      cases hw : s.write st.2 out with
      | undefined =>
        rw [hw] at hr
        cases hr
      | threw aError t =>
        rw [hw] at hr
        cases hr
      | returned t =>
        have ht := h w st.2 out t hp hw
        rw [hw] at hr
        dsimp only at hr
        split at hr
        · obtain ⟨b, hb, hflushed⟩ := ih (⟨f, st.1.flushed, more⟩, t) ht hr
          exact ⟨out ++ b, by rwa [← List.append_assoc], hflushed⟩
        · obtain rfl := Outcome.returned.inj hr
          exact ⟨out, ht, rfl⟩

end Dcpp
