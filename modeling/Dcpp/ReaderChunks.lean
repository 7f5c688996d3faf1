import Dcpp.ReaderStable
import Dcpp.ReaderNesting

namespace Dcpp.SimpleXMLReader

open Incremental

/-- What is seen of a parse: the reader, or the callbacks that were made before it threw. -/
def observe : Incremental.Outcome Reader UInt8 Round → Except (List CallBack) Reader
  | .waiting r _ => .ok r
  | .stopped e => .error e.calls

/-- Runs from the second place are seen as runs from the first. -/
def Leads (cfg : Config) (r : Reader) (buf : Bytes) (r' : Reader) (buf' : Bytes) : Prop :=
  ∀ x, Runs (machine cfg) r' buf' x → ∃ x', Runs (machine cfg) r buf x' ∧ observe x' = observe x

theorem Leads.trans {cfg : Config} {r r' r'' : Reader} {buf buf' buf'' : Bytes} (h : Leads cfg r buf r' buf')
    (h' : Leads cfg r' buf' r'' buf'') : Leads cfg r buf r'' buf'' := by
  intro x hx
  obtain ⟨x', hx', heq⟩ := h' x hx
  obtain ⟨x'', hx'', heq'⟩ := h x' hx'
  exact ⟨x'', hx'', heq'.trans heq⟩

theorem leads_of_next {cfg : Config} {r r' : Reader} {buf buf' : Bytes} (h : machine cfg r buf (.next r' buf')) :
    Leads cfg r buf r' buf' := fun x hx => ⟨x, Runs.next h hx, rfl⟩

theorem Absorbs.leads {cfg : Config} {r r' : Reader} {buf buf' : Bytes} (h : Absorbs cfg r buf r' buf') :
    Leads cfg r buf r' buf' := by
  intro x hx
  cases hx with
  | wait hw =>
    obtain ⟨y, hy, rfl⟩ := h _ hw
    exact ⟨_, Runs.next hy (Runs.wait hw), rfl⟩
  | next hs hx =>
    obtain ⟨y, hy, rfl⟩ := h _ hs
    exact ⟨_, Runs.next hy hx, rfl⟩
  | stop he =>
    obtain ⟨y, hy, e, rfl, hcalls⟩ := h _ he
    exact ⟨_, Runs.stop hy, congrArg Except.error hcalls⟩

/-- With more after its buffer the reader does what it did. -/
structure Agrees (cfg : Config) (r : Reader) (buf more : Bytes) : Prop where
  next : ∀ r' buf', machine cfg r buf (.next r' buf') → Leads cfg r (buf ++ more) r' (buf' ++ more)
  stop : ∀ e, machine cfg r buf (.stop e) →
    ∃ e', Runs (machine cfg) r (buf ++ more) (.stopped e') ∧ e'.calls = e.calls

theorem agrees_of_wait {cfg : Config} {r : Reader} {buf more : Bytes} (h : machine cfg r buf .wait) :
    Agrees cfg r buf more where
  next := fun r' buf' h' => by cases machine_det cfg r buf _ _ h h'
  stop := fun e h' => by cases machine_det cfg r buf _ _ h h'

/-- It does when it absorbs what is between here and a place where it does. -/
theorem agrees_of_absorbs {cfg : Config} {r r' : Reader} {buf buf' more : Bytes} (h : Absorbs cfg r buf r' buf')
    (hmore : Absorbs cfg r (buf ++ more) r' (buf' ++ more)) (hdef : ¬r'.Stalled buf') (h' : Agrees cfg r' buf' more) :
    Agrees cfg r buf more := by
  obtain ⟨y', hy'⟩ := (machine_iff cfg r' buf').mpr hdef
  obtain ⟨y, hy, hmoved⟩ := h y' hy'
  constructor
  · intro t d hnext
    obtain rfl := machine_det cfg r buf _ _ hnext hy
    cases y' with
    | wait =>
      obtain ⟨rfl, rfl⟩ := Step.next.inj hmoved
      exact hmore.leads
    | next t' d' =>
      obtain ⟨rfl, rfl⟩ := Step.next.inj hmoved
      exact hmore.leads.trans (h'.next _ _ hy')
    | stop e' =>
      obtain ⟨_, heq, _⟩ := hmoved
      cases heq
  · intro e hstop
    obtain rfl := machine_det cfg r buf _ _ hstop hy
    cases y' with
    | wait => cases hmoved
    | next t' d' => cases hmoved
    | stop e' =>
      obtain ⟨_, heq, hcalls⟩ := hmoved
      cases heq
      obtain ⟨e'', hruns, hcalls'⟩ := h'.stop e' hy'
      obtain ⟨x, hx, hobs⟩ := hmore.leads _ hruns
      cases x with
      | waiting _ _ => cases hobs
      | stopped e₃ =>
        refine ⟨e₃, hx, ?_⟩
        rw [Except.error.inj hobs, hcalls', hcalls]

/-- A round ends the same with more after its buffer. -/
theorem roundEnd_append (cfg : Config) (r t : Reader) (buf d more : Bytes) (b : Bool) :
    (∀ t' d', roundEnd cfg r buf (.ret b t d) = .next t' d' →
        roundEnd cfg r (buf ++ more) (.ret b t (d ++ more)) = .next t' (d' ++ more)) ∧
      ∀ e, (roundEnd cfg r buf (.ret b t d)).step = .stop e →
        ∃ e', (roundEnd cfg r (buf ++ more) (.ret b t (d ++ more))).step = .stop e' ∧ e'.calls = e.calls := by
  have hlen : (d ++ more).length = (buf ++ more).length ↔ d.length = buf.length := by
    rw [List.length_append, List.length_append]
    omega
  rw [roundEnd, roundEnd]
  simp only [hlen]
  split
  next => exact ⟨fun t' d' h => (by cases h), fun e h => (by cases h)⟩
  next =>
    split
    next =>
      split
      next =>
        refine ⟨fun t' d' h => (by cases h), fun e h => ?_⟩
        cases h
        exact ⟨_, rfl, rfl⟩
      next =>
        refine ⟨fun t' d' h => ?_, fun e h => (by cases h)⟩
        cases h
        rfl
    next =>
      refine ⟨fun t' d' h => ?_, fun e h => (by cases h)⟩
      cases h
      rfl

/-- It does when its parsers do. -/
theorem agrees_of_stable {cfg : Config} {r : Reader} {buf more : Bytes} (hend : r.state ≠ .END)
    (hname : ¬(r.state = .DECL_ENCODING_NAME_APOS ∨ r.state = .DECL_ENCODING_NAME_QUOT))
    (h : (simpleCase cfg r buf).Stable (simpleCase cfg r (buf ++ more)) r buf more) : Agrees cfg r buf more := by
  have hmachine (buf : Bytes) (y : Step Reader UInt8 Round) := @machine_simple cfg r buf y hend hname
  have hwait : (roundEnd cfg r buf (.ret true r buf)).step = .wait := by
    rw [roundEnd, if_pos ⟨rfl, rfl⟩]
    rfl
  have hwait' : (roundEnd cfg r buf (.ret false r buf)).step = .wait := by
    rw [roundEnd, if_pos ⟨rfl, rfl⟩]
    rfl
  cases hx : simpleCase cfg r buf with
  | error t d message =>
    rw [hx] at h
    obtain ⟨t', d', message', hy, hcalls⟩ := h
    constructor
    · intro _ _ hnext
      rw [hmachine, hx] at hnext
      cases hnext
    · intro e hstop
      rw [hmachine, hx] at hstop
      cases hstop
      refine ⟨.error t' d' message', Runs.stop ((hmachine _ _).mpr ?_), hcalls⟩
      rw [hy]
      rfl
  | ret b t d =>
    rw [hx] at h
    cases b with
    | false =>
      obtain ⟨⟨rfl, rfl⟩, _⟩ := h
      exact agrees_of_wait ((hmachine _ _).mpr (by rw [hx]; exact hwait'))
    | true =>
      obtain ⟨rfl, rfl⟩ | hy := h
      · exact agrees_of_wait ((hmachine _ _).mpr (by rw [hx]; exact hwait))
      · obtain ⟨hnext, hstop⟩ := roundEnd_append cfg r t buf d more true
        constructor
        · intro t' d' h
          rw [hmachine, hx] at h
          apply leads_of_next
          rw [hmachine, hy]
          have hround : roundEnd cfg r buf (.ret true t d) = .next t' d' := by
            generalize roundEnd cfg r buf (.ret true t d) = z at h
            cases z with
            | next _ _ =>
              cases h
              rfl
            | done more _ _ => cases more <;> cases h
            | error _ _ _ => cases h
          rw [hnext t' d' hround]
          rfl
        · intro e h
          rw [hmachine, hx] at h
          obtain ⟨e', he', hcalls⟩ := hstop e h
          exact ⟨e', Runs.stop ((hmachine _ _).mpr (by rw [hy]; exact he')), hcalls⟩

/-- Parsers that do not apply to space, or that wait before a space for more than there is. -/
def SkipsSpace (F : Reader → Bytes → Result) (r : Reader) : Prop :=
  ∀ buf, isSpace (charAt buf 0) = true → F r buf = .ret false r buf ∨
    F r buf = .ret true r buf ∧ F r (buf.dropWhile isSpace) = .ret true r (buf.dropWhile isSpace)

theorem cons_of_isSpace {buf : Bytes} (h : isSpace (charAt buf 0) = true) :
    ∃ c rest, buf = c :: rest ∧ isSpace c = true := by
  cases buf with
  | nil => cases h
  | cons c rest => exact ⟨c, rest, rfl, h⟩

/-- Space that goes on in what comes later is skipped there. -/
theorem leads_space {cfg : Config} {r : Reader} {F : Reader → Bytes → Result} {message : String} (hend : r.state ≠ .END)
    (hname : ¬(r.state = .DECL_ENCODING_NAME_APOS ∨ r.state = .DECL_ENCODING_NAME_QUOT))
    (hcase : ∀ buf, simpleCase cfg r buf = (F r buf).or (spaceOrError message)) (hspace : SkipsSpace F r) {buf more : Bytes}
    (hnext : machine cfg r (buf ++ more) (.next r (more.dropWhile isSpace))) : Leads cfg r (buf ++ more) r more := by
  by_cases hmore : isSpace (charAt more 0) = true
  · have hmachine (buf : Bytes) (y : Step Reader UInt8 Round) := @machine_simple cfg r buf y hend hname
    have hwaits (buf : Bytes) (h : F r buf = .ret true r buf) : machine cfg r buf .wait := by
      rw [hmachine, hcase, h, ret_true_or, roundEnd, if_pos ⟨rfl, rfl⟩]
      rfl
    intro x hx
    obtain hfalse | ⟨hwait, hwait'⟩ := hspace more hmore
    · have hstep : machine cfg r more (.next r (more.dropWhile isSpace)) := by
        have hlen : (more.dropWhile isSpace).length ≠ more.length := by
          obtain ⟨c, rest, rfl, hc⟩ := cons_of_isSpace hmore
          rw [List.dropWhile_cons_of_pos hc, List.length_cons]
          have := length_dropWhile_le isSpace rest
          omega
        rw [hmachine, hcase, hfalse, ret_false_or, spaceOrError_eq, if_pos (by rw [hmore, Bool.or_true]), roundEnd,
          if_neg fun h => hlen h.2, if_neg fun h => h.2.1 h.1]
        rfl
      cases hx with
      | wait hw => cases machine_det cfg r more _ _ hstep hw
      | next hs hx =>
        obtain ⟨rfl, rfl⟩ := Step.next.inj (machine_det cfg r more _ _ hstep hs)
        exact ⟨x, Runs.next hnext hx, rfl⟩
      | stop he => cases machine_det cfg r more _ _ hstep he
    · cases hx with
      | wait hw => exact ⟨_, Runs.next hnext (Runs.wait (hwaits _ hwait')), rfl⟩
      | next hs _ => cases machine_det cfg r more _ _ (hwaits _ hwait) hs
      | stop he => cases machine_det cfg r more _ _ (hwaits _ hwait) he
  · have hsame : more.dropWhile isSpace = more := by
      cases more with
      | nil => rfl
      | cons c rest => exact List.dropWhile_cons_of_neg hmore
    rw [hsame] at hnext
    exact leads_of_next hnext

/-- It does where space is skipped that its other parsers do not take. -/
theorem agrees_of_space {cfg : Config} {r : Reader} {F : Reader → Bytes → Result} {message : String} {buf more : Bytes}
    (hend : r.state ≠ .END) (hname : ¬(r.state = .DECL_ENCODING_NAME_APOS ∨ r.state = .DECL_ENCODING_NAME_QUOT))
    (hcase : ∀ buf, simpleCase cfg r buf = (F r buf).or (spaceOrError message)) (hspace : SkipsSpace F r)
    (hF : (F r buf).Stable (F r (buf ++ more)) r buf more) : Agrees cfg r buf more := by
  have hmachine (buf : Bytes) (y : Step Reader UInt8 Round) := @machine_simple cfg r buf y hend hname
  by_cases hfalse : F r buf = .ret false r buf
  · have hmore : F r (buf ++ more) = .ret false r (buf ++ more) := by
      rw [hfalse] at hF
      exact hF.2
    by_cases hskip : isSpace (charAt buf 0) = true
    · obtain ⟨c, rest, rfl, hc⟩ := cons_of_isSpace hskip
      have hround (more : Bytes) (h : F r (c :: rest ++ more) = .ret false r (c :: rest ++ more)) :
          machine cfg r (c :: rest ++ more) (.next r ((c :: rest ++ more).dropWhile isSpace)) := by
        have hlen : ((c :: rest ++ more).dropWhile isSpace).length ≠ (c :: rest ++ more).length := by
          rw [List.cons_append, List.dropWhile_cons_of_pos hc, List.length_cons]
          have := length_dropWhile_le isSpace (rest ++ more)
          omega
        have hc' : ((c :: rest ++ more).isEmpty || isSpace (charAt (c :: rest ++ more) 0)) = true := hc
        rw [hmachine, hcase, h, ret_false_or, spaceOrError_eq, if_pos hc', roundEnd, if_neg fun h => hlen h.2,
          if_neg fun h => h.2.1 h.1]
        rfl
      have hnow := hround [] (by rw [List.append_nil]; exact hfalse)
      rw [List.append_nil] at hnow
      constructor
      · intro t d hnext
        obtain ⟨rfl, rfl⟩ := Step.next.inj (machine_det cfg _ _ _ _ hnext hnow)
        have hthen := hround more hmore
        rw [List.dropWhile_append] at hthen
        split at hthen
        next hempty =>
          rw [List.isEmpty_iff.mp hempty]
          exact leads_space hend hname hcase hspace hthen
        next => exact leads_of_next hthen
      · intro e hstop
        cases machine_det cfg _ _ _ _ hstop hnow
    · cases buf with
      | nil =>
        refine agrees_of_wait ((hmachine _ _).mpr ?_)
        rw [hcase, hfalse, ret_false_or, spaceOrError_eq, if_pos (by rfl), roundEnd, if_pos ⟨rfl, rfl⟩]
        rfl
      | cons c rest =>
        apply agrees_of_stable hend hname
        have hno : ¬((c :: rest).isEmpty || isSpace (charAt (c :: rest) 0)) = true := hskip
        have hno' : ¬((c :: rest ++ more).isEmpty || isSpace (charAt (c :: rest ++ more) 0)) = true := hskip
        rw [hcase, hcase, hfalse, hmore, ret_false_or, ret_false_or, spaceOrError_eq, spaceOrError_eq, if_neg hno, if_neg hno']
        exact ⟨_, _, _, rfl, rfl⟩
  · apply agrees_of_stable hend hname
    rw [hcase, hcase]
    cases hx : F r buf with
    | error t d message =>
      rw [hx] at hF
      obtain ⟨t', d', message', hy, hcalls⟩ := hF
      rw [hy]
      exact ⟨_, _, _, rfl, hcalls⟩
    | ret b t d =>
      rw [hx] at hF
      cases b with
      | false =>
        obtain ⟨⟨rfl, rfl⟩, _⟩ := hF
        exact absurd hx hfalse
      | true =>
        obtain h | hy := hF
        · exact Or.inl h
        · rw [hy]
          exact Or.inr rfl

end Dcpp.SimpleXMLReader
