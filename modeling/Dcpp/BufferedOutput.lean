import Dcpp.Streams

-- What a buffered stream passes on over a sequence of calls.
namespace Dcpp

namespace OutputStream

/-- A call of a client of a stream. -/
inductive Request
  | write (wbuf : List UInt8)
  | flush
deriving DecidableEq

def Request.data : Request → List UInt8
  | write wbuf => wbuf
  | flush => []

variable {S : Type}

def request (s : OutputStream S) (st : S) : Request → Outcome S
  | .write wbuf => s.write st wbuf
  | .flush => s.flush st

/-- The calls in turn, up to the first one that does not return. -/
def requests (s : OutputStream S) : S → List Request → Outcome S
  | st, [] => .returned st
  | st, r :: rs => (s.request st r).andThen fun st => requests s st rs

/-- A stream with the bytes that were passed to it by calls that returned. -/
def recording (s : OutputStream S) : OutputStream (List UInt8 × S) where
  write st b :=
    match s.write st.2 b with
    | .returned t => .returned (st.1 ++ b, t)
    | .threw aError t => .threw aError (st.1, t)
    | .undefined => .undefined
  flush st := (s.flush st.2).map (st.1, ·)

theorem recording_carries (s : OutputStream S) : s.recording.Carries Prod.fst where
  returned {st b st'} h := by
    simp only [recording] at h
    cases hw : s.write st.2 b with
    | returned t =>
      rw [hw] at h
      obtain rfl := Outcome.returned.inj h
      rfl
    | threw aError t =>
      rw [hw] at h
      cases h
    | undefined =>
      rw [hw] at h
      cases h
  threw {st b aError st'} h := by
    simp only [recording] at h
    cases hw : s.write st.2 b with
    | returned t =>
      rw [hw] at h
      cases h
    | threw aError t =>
      rw [hw] at h
      obtain ⟨-, rfl⟩ := Outcome.threw.inj h
      rfl
    | undefined =>
      rw [hw] at h
      cases h
  flush {st st'} h := by
    simp only [recording, Outcome.state?_map, Option.map_eq_some_iff] at h
    obtain ⟨t, -, rfl⟩ := h
    rfl

theorem recording_returns {s : OutputStream S} (h : s.Returns) : s.recording.Returns := by
  constructor
  · intro st b
    obtain ⟨t, ht⟩ := h.1 st.2 b
    refine ⟨(st.1 ++ b, t), ?_⟩
    simp only [recording, ht]
  · intro st
    obtain ⟨t, ht⟩ := h.2 st.2
    refine ⟨(st.1, t), ?_⟩
    simp only [recording, ht, Outcome.map_returned]

end OutputStream

open OutputStream

variable {S : Type} {s : OutputStream S} {carried : S → List UInt8} {bufSize : Nat}

/-- Between calls the buffer has room, or the source's `pos` is 0. -/
def HasRoom (bufSize : Nat) (buf : List UInt8) : Prop := buf.length < bufSize ∨ buf = []

/-- With a stream below that returns, a call returns and leaves room. -/
theorem bufferedWrite_returns (hs : s.Returns) {buf : List UInt8} (hroom : HasRoom bufSize buf) (st : S)
    (b : List UInt8) : ∃ t, bufferedWrite s bufSize buf st b = .returned t ∧ HasRoom bufSize t.1 := by
  induction buf, st, b using bufferedWrite.induct s bufSize with
  | case1 buf st =>
    refine ⟨(buf, st), ?_, hroom⟩
    rw [bufferedWrite, if_pos rfl]
  | case2 buf st b hb hdirect =>
    obtain ⟨t, ht⟩ := hs.1 st b
    refine ⟨(buf, t), ?_, hroom⟩
    rw [bufferedWrite, if_neg hb, if_pos hdirect, ht, Outcome.map_returned]
  | case3 buf st b hb hdirect hlt =>
    obtain hroom | rfl := hroom
    · omega
    · exact absurd hlt (Nat.not_lt_zero _)
  | case4 buf st b hb hdirect hlt n hfull t hw ih =>
    rw [bufferedWrite_full hb hdirect hlt hfull, hw]
    exact ih (Or.inr rfl)
  | case5 buf st b hb hdirect hlt n hfull aError t hw =>
    obtain ⟨u, hu⟩ := hs.1 st (buf ++ b.take n)
    rw [hu] at hw
    cases hw
  | case6 buf st b hb hdirect hlt n hfull hw =>
    obtain ⟨u, hu⟩ := hs.1 st (buf ++ b.take n)
    rw [hu] at hw
    cases hw
  | case7 buf st b hb hdirect hlt n hfull ih =>
    rw [bufferedWrite_part hb hdirect hlt hfull]
    refine ih (Or.inl (Nat.lt_of_le_of_ne ?_ hfull))
    simp only [List.length_append, List.length_take]
    omega

theorem bufferedFlush_returns (hs : s.Returns) (st : List UInt8 × S) :
    ∃ t, bufferedFlush s st = .returned t ∧ t.1 = [] := by
  have hempty : ∃ t, bufferedEmpty s st = .returned t := by
    rw [bufferedEmpty]
    split
    next => exact ⟨st, rfl⟩
    next =>
      obtain ⟨t, ht⟩ := hs.1 st.2 st.1
      rw [ht]
      exact ⟨([], t), rfl⟩
  obtain ⟨t, ht⟩ := hempty
  obtain ⟨u, hu⟩ := hs.2 t.2
  have hnil := bufferedEmpty_returned ht
  refine ⟨(t.1, u), ?_, hnil⟩
  rw [bufferedFlush, ht, Outcome.andThen_returned, hu, Outcome.map_returned]

/-- What a call adds to the bytes in the stream below and in the buffer. -/
theorem OutputStream.Carries.request_state (hs : s.Carries carried) {st st' : List UInt8 × S} {r : Request}
    (h : ((bufferedOutputStream bufSize s).request st r).state? = some st') :
    carried st'.2 ++ st'.1 <+: carried st.2 ++ st.1 ++ r.data := by
  cases r with
  | write wbuf => exact (hs.bufferedWrite_state h).2
  | flush =>
    rw [(hs.bufferedFlush_state h).1]
    exact List.prefix_append _ _

theorem OutputStream.Carries.request_returned (hs : s.Carries carried) {st st' : List UInt8 × S} {r : Request}
    (h : (bufferedOutputStream bufSize s).request st r = .returned st') :
    carried st'.2 ++ st'.1 = carried st.2 ++ st.1 ++ r.data ∧ (r = .flush → st'.1 = []) := by
  cases r with
  | write wbuf => exact ⟨hs.bufferedWrite_returned h, nofun⟩
  | flush =>
    have hstate : ((bufferedOutputStream bufSize s).flush st).state? = some st' := congrArg Outcome.state? h
    obtain ⟨hcarried, -, hnil⟩ := hs.bufferedFlush_state hstate
    refine ⟨?_, fun _ => hnil h⟩
    rw [hcarried, Request.data, List.append_nil]

theorem request_returns (hs : s.Returns) {st : List UInt8 × S} (hroom : HasRoom bufSize st.1) (r : Request) :
    ∃ t, (bufferedOutputStream bufSize s).request st r = .returned t ∧ HasRoom bufSize t.1 := by
  cases r with
  | write wbuf => exact bufferedWrite_returns hs hroom st.2 wbuf
  | flush =>
    obtain ⟨t, ht, hnil⟩ := bufferedFlush_returns hs st
    exact ⟨t, ht, Or.inr hnil⟩

theorem OutputStream.Carries.requests_returned (hs : s.Carries carried) {st st' : List UInt8 × S}
    {rs : List Request} (h : (bufferedOutputStream bufSize s).requests st rs = .returned st') :
    carried st'.2 ++ st'.1 = carried st.2 ++ st.1 ++ rs.flatMap Request.data ∧
      (rs.getLast? = some .flush → st'.1 = []) := by
  induction rs generalizing st with
  | nil =>
    obtain rfl := Outcome.returned.inj h
    exact ⟨(List.append_nil _).symm, nofun⟩
  | cons r rs ih =>
    rw [requests] at h
    cases hr : (bufferedOutputStream bufSize s).request st r with
    | returned t =>
      rw [hr, Outcome.andThen_returned] at h
      obtain ⟨hcarried, hlast⟩ := ih h
      obtain ⟨hone, hflush⟩ := hs.request_returned hr
      refine ⟨?_, fun hend => ?_⟩
      · rw [hcarried, hone, List.flatMap_cons, List.append_assoc]
      · cases rs with
        | nil =>
          obtain rfl := Outcome.returned.inj h
          exact hflush (Option.some.inj hend)
        | cons r' rs => exact hlast (by rwa [List.getLast?_cons_cons] at hend)
    | threw aError t =>
      rw [hr] at h
      cases h
    | undefined =>
      rw [hr] at h
      cases h

theorem OutputStream.Carries.requests_state (hs : s.Carries carried) {st st' : List UInt8 × S}
    {rs : List Request} (h : ((bufferedOutputStream bufSize s).requests st rs).state? = some st') :
    carried st'.2 ++ st'.1 <+: carried st.2 ++ st.1 ++ rs.flatMap Request.data := by
  induction rs generalizing st with
  | nil =>
    obtain rfl := Option.some.inj h
    exact List.prefix_append _ _
  | cons r rs ih =>
    rw [requests] at h
    rw [List.flatMap_cons, ← List.append_assoc]
    cases hr : (bufferedOutputStream bufSize s).request st r with
    | returned t =>
      rw [hr, Outcome.andThen_returned] at h
      rw [← (hs.request_returned hr).1]
      exact ih h
    | threw aError t =>
      rw [hr, Outcome.andThen_threw] at h
      obtain rfl := Option.some.inj h
      exact (hs.request_state (congrArg Outcome.state? hr)).trans (List.prefix_append _ _)
    | undefined =>
      rw [hr] at h
      cases h

theorem requests_returns (hs : s.Returns) {st : List UInt8 × S} (hroom : HasRoom bufSize st.1) (rs : List Request) :
    ∃ t, (bufferedOutputStream bufSize s).requests st rs = .returned t := by
  induction rs generalizing st with
  | nil => exact ⟨st, rfl⟩
  | cons r rs ih =>
    obtain ⟨t, ht, hroom'⟩ := request_returns hs hroom r
    obtain ⟨u, hu⟩ := ih hroom'
    refine ⟨u, ?_⟩
    rw [requests, ht, Outcome.andThen_returned, hu]

/-- The bytes that were passed on and those in the buffer are the bytes written, and a flush leaves none in the
buffer. The calls return when those of the stream below do; after one that throws, the bytes passed on and in the
buffer are the first of those written. -/
theorem bufferedOutputStream_passes (s : OutputStream S) (bufSize : Nat) (st : S) (rs : List Request) :
    (∀ t, (bufferedOutputStream bufSize s.recording).requests ([], [], st) rs = .returned t →
        t.2.1 ++ t.1 = rs.flatMap Request.data ∧ (rs.getLast? = some .flush → t.1 = [])) ∧
      (s.Returns → ∃ t, (bufferedOutputStream bufSize s.recording).requests ([], [], st) rs = .returned t) ∧
      ∀ t, ((bufferedOutputStream bufSize s.recording).requests ([], [], st) rs).state? = some t →
        t.2.1 ++ t.1 <+: rs.flatMap Request.data :=
  ⟨fun _ ht => s.recording_carries.requests_returned ht,
    fun hs => requests_returns (recording_returns hs) (Or.inr rfl) rs,
    fun _ ht => s.recording_carries.requests_state ht⟩

end Dcpp
