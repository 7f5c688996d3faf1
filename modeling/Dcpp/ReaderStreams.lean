import Dcpp.ReaderExtends

namespace Dcpp.SimpleXMLReader

open Incremental

/-- The reader throws here, and throws with more after its buffer. -/
theorem agrees_of_error {cfg : Config} {r : Reader} {buf more : Bytes} {e e' : Round} (h : machine cfg r buf (.stop e))
    (h' : machine cfg r (buf ++ more) (.stop e')) (hcalls : e'.calls = e.calls) : Agrees cfg r buf more where
  next := fun r' buf' hnext => by cases machine_det cfg r buf _ _ h hnext
  stop := fun e₁ hstop => by
    cases machine_det cfg r buf _ _ h hstop
    exact ⟨e', Runs.stop h', hcalls⟩

/-- The loop over the encoding's name throws. -/
theorem machine_encoding_error {cfg : Config} {r : Reader} {buf : Bytes}
    (hs : r.state = .DECL_ENCODING_NAME_APOS ∨ r.state = .DECL_ENCODING_NAME_QUOT) {message : String}
    (h : declEncodingValue cfg 1 r buf = some (.error r buf message)) :
    machine cfg r buf (.stop (.error r buf message)) :=
  (machine_encoding hs).mpr ⟨1, _, h, rfl⟩

/-- What stands there is no reference, and no space either. -/
theorem machine_encoding_no {cfg : Config} {r : Reader} {rest : Bytes}
    (hs : r.state = .DECL_ENCODING_NAME_APOS ∨ r.state = .DECL_ENCODING_NAME_QUOT)
    (h : entref r.encoding (byte '&' :: rest) = .no) :
    machine cfg r (byte '&' :: rest) (.stop (.error r (byte '&' :: rest) "Expecting encoding value")) := by
  refine (machine_encoding hs).mpr ⟨1, .ret false r (byte '&' :: rest), ?_, ?_⟩
  · rw [declEncodingValue, if_neg (quote_ne _), if_pos rfl, h]
  · rfl

/-- Where a reference is cut off on the way to the end of the encoding's name. -/
def CutEncoding (s : ParseState) (more : Bytes) : Bytes → Bytes → Prop := Comes (quote s) fun _ buf => CutRef buf more

theorem agrees_encoding {cfg : Config} {r : Reader} {buf more : Bytes} (hr : r.Nested)
    (hs : r.state = .DECL_ENCODING_NAME_APOS ∨ r.state = .DECL_ENCODING_NAME_QUOT) (hstalled : ¬r.Stalled buf)
    (hcut : ¬CutEncoding r.state more r.encoding buf) : Agrees cfg r buf more := by
  induction hn : buf.length using Nat.strongRecOn generalizing r buf with
  | ind n ih =>
    have hencoding (encoding : Bytes) : { r with encoding := encoding }.Nested :=
      (Effect.same rfl rfl rfl Or.inl id : Effect r { r with encoding := encoding }).nested hr
    cases buf with
    | nil =>
      apply agrees_of_wait
      refine (machine_encoding hs).mpr ⟨1, .ret true r [], rfl, ?_⟩
      have hafter : afterEncoding (.ret true r []) = .ret true r [] := rfl
      rw [hafter, roundEnd, if_pos ⟨rfl, rfl⟩]
      rfl
    | cons c rest =>
      -- a round of the loop that leads on to `buf'`
      have hround (encoding buf' : Bytes) (hlen : buf'.length < (c :: rest).length)
          (hstep : ∀ fuel, declEncodingValue cfg (fuel + 1) r (c :: rest) =
            declEncodingValue cfg fuel { r with encoding := encoding } buf')
          (hstep' : ∀ fuel, declEncodingValue cfg (fuel + 1) r (c :: rest ++ more) =
            declEncodingValue cfg fuel { r with encoding := encoding } (buf' ++ more))
          (hst : Stalls (quote r.state) encoding buf' → Stalls (quote r.state) r.encoding (c :: rest))
          (hct : CutEncoding r.state more encoding buf' → CutEncoding r.state more r.encoding (c :: rest)) :
          Agrees cfg r (c :: rest) more := by
        have hst' : ¬{ r with encoding := encoding }.Stalled buf' := fun h => hstalled ⟨hs, hst h.2⟩
        refine agrees_of_absorbs (absorbs_encoding cfg hs hlen hstep)
          (absorbs_encoding cfg hs (by simp only [List.length_append]; omega) hstep') hst' ?_
        exact ih buf'.length (hn ▸ hlen) (r := { r with encoding := encoding }) (hencoding encoding) hs hst'
          (fun h => hcut (hct h)) rfl
      by_cases hquote : c = quote r.state
      · subst hquote
        have hstandalone : { r with encoding := cfg.platform.toLower r.encoding, state := .DECL_STANDALONE }.Nested := by
          have hnamed : named .DECL_STANDALONE = named r.state := by
            obtain h | h := hs <;> rw [h] <;> rfl
          have heffect : Effect r { r with encoding := cfg.platform.toLower r.encoding, state := .DECL_STANDALONE } :=
            .same rfl rfl hnamed (fun h => (by cases h)) fun h => (by cases h)
          exact heffect.nested hr
        exact agrees_of_absorbs (absorbs_encoding_quote cfg hs rest) (absorbs_encoding_quote cfg hs (rest ++ more))
          (not_stalled (by simp) rest) (agrees_spaced hstandalone rfl rest more)
      · by_cases hamp : c = byte '&'
        · subst hamp
          have hoverflow (buf : Bytes) (h : entref r.encoding (byte '&' :: buf) = .overflow) :
              declEncodingValue cfg 1 r (byte '&' :: buf) = some (.error r (byte '&' :: buf) "Buffer overflow") := by
            rw [declEncodingValue, if_neg hquote, if_pos rfl, h]
          have hyes {buf encoding buf' : Bytes} (h : entref r.encoding (byte '&' :: buf) = .yes encoding buf') (fuel : Nat) :
              declEncodingValue cfg (fuel + 1) r (byte '&' :: buf) =
                declEncodingValue cfg fuel { r with encoding := encoding } buf' := by
            rw [declEncodingValue, if_neg hquote, if_pos rfl, h]
          cases hent : entref r.encoding (byte '&' :: rest) with
          | overflow =>
            have hover := entref_append_overflow hent (byte '&' :: (rest ++ more))
            exact agrees_of_error (machine_encoding_error hs (hoverflow rest hent))
              (machine_encoding_error hs (hoverflow (rest ++ more) hover)) rfl
          | no =>
            have hno := entref_append_no rfl hent fun h => hcut (Comes.here r.encoding rest h)
            exact agrees_of_error (machine_encoding_no hs hent) (machine_encoding_no hs hno) rfl
          | yes encoding buf' =>
            obtain ⟨hle, rfl, rfl⟩ | ⟨hlt, pattern, d, hfind, hd, hbuf'⟩ := entref_yes hent
            · exact absurd ⟨hs, Comes.here r.encoding rest ⟨length_lt_of_entref_yes hent, hle⟩⟩ hstalled
            · have hrest : 6 ≤ rest.length := Nat.le_of_lt_succ hlt
              have happend := entref_append_yes hlt hent more
              refine hround encoding buf' ?_ (hyes hent) (hyes happend)
                (Comes.reference _ rest _ _ hrest hent) (Comes.reference _ rest _ _ hrest hent)
              rw [hbuf', List.length_drop]
              omega
        · by_cases hle : r.encoding.length + 1 ≤ MAX_VALUE_SIZE
          · have hchar (rest : Bytes) (fuel : Nat) : declEncodingValue cfg (fuel + 1) r (c :: rest) =
                declEncodingValue cfg fuel { r with encoding := r.encoding ++ [c] } rest := by
              rw [declEncodingValue, if_neg hquote, if_neg hamp, append_char, if_pos hle]
            exact hround _ rest (Nat.lt_succ_self _) (hchar rest) (hchar (rest ++ more))
              (Comes.char _ c rest hquote hamp hle) (Comes.char _ c rest hquote hamp hle)
          · have hover (rest : Bytes) : declEncodingValue cfg 1 r (c :: rest) =
                some (.error r (c :: rest) "Buffer overflow") := by
              rw [declEncodingValue, if_neg hquote, if_neg hamp, append_char, if_neg hle]
            exact agrees_of_error (machine_encoding_error hs (hover rest))
              (machine_encoding_error hs (hover (rest ++ more))) rfl

/-- A round that stalls, or whose parsers find a reference that the end of the buffer cuts off before
its last character. -/
inductive Reader.Cut (r : Reader) (buf more : Bytes) : Prop where
  | stalled : r.Stalled buf → r.Cut buf more
  | content : r.state = .CONTENT → CutRef buf more → r.Cut buf more
  | value : r.state = .ELEMENT_ATTR_VALUE_APOS ∨ r.state = .ELEMENT_ATTR_VALUE_QUOT →
    CutRef (buf.dropWhile fun c => !valueStops r.state c) more → r.Cut buf more
  | encoding : r.state = .DECL_ENCODING_NAME_APOS ∨ r.state = .DECL_ENCODING_NAME_QUOT →
    CutEncoding r.state more r.encoding buf → r.Cut buf more

/-- Every state of the reader does with more input what it did. -/
theorem agrees {cfg : Config} {r : Reader} {buf more : Bytes} (hr : r.Nested) (hcut : ¬r.Cut buf more) :
    Agrees cfg r buf more := by
  by_cases hs : spaced r.state = true
  · exact agrees_spaced hr hs buf more
  cases h : r.state with
  | DECL_ENCODING_NAME_APOS =>
    exact agrees_encoding hr (Or.inl h) (fun hst => hcut (.stalled hst)) fun hct => hcut (.encoding (Or.inl h) hct)
  | DECL_ENCODING_NAME_QUOT =>
    exact agrees_encoding hr (Or.inr h) (fun hst => hcut (.stalled hst)) fun hct => hcut (.encoding (Or.inr h) hct)
  | ELEMENT_NAME => exact agrees_name h buf more
  | ELEMENT_ATTR_NAME => exact agrees_attr_name h buf more
  | ELEMENT_ATTR_VALUE_APOS => exact agrees_value (Or.inl h) fun hct => hcut (.value (Or.inl h) hct)
  | ELEMENT_ATTR_VALUE_QUOT => exact agrees_value (Or.inr h) fun hct => hcut (.value (Or.inr h) hct)
  | ELEMENT_END_SIMPLE => exact agrees_end_simple h buf more
  | COMMENT => exact agrees_comment h buf more
  | CONTENT => exact agrees_content h fun hct => hcut (.content h hct)
  | CDATA => exact agrees_cdata h buf more
  | END => exact absurd h hr.running
  | _ =>
    rw [h] at hs
    exact absurd rfl hs

/-- More input does not change what the reader did with less of it. -/
theorem machine_extends (cfg : Config) : Extends (machine cfg) Reader.Nested observe Reader.Cut where
  inv := fun r buf r' buf' hr h => machine_nested cfg r buf r' buf' hr h
  next := fun _ _ r' buf' _ x hr h hcut hx => (agrees hr hcut).next r' buf' h x hx
  stop := fun _ _ e _ hr h hcut => by
    obtain ⟨e', hruns, hcalls⟩ := (agrees hr hcut).stop e h
    exact ⟨e', hruns, congrArg Except.error hcalls⟩

/-- A reader that never stalls comes to an end with every buffer. -/
theorem feeds_of_whole (cfg : Config) {r : Reader} {buf : Bytes} {chunks : List Bytes}
    (hw : Whole (machine cfg) Reader.Cut r buf chunks) : ∃ x, Feeds (machine cfg) r buf chunks x := by
  induction chunks generalizing r buf with
  | nil => exact ⟨_, Feeds.nil r buf⟩
  | cons c chunks ih =>
    cases hw with
    | cons hcut hrest =>
      have hruns := runs_iff (fun r buf => 2 * buf.length + if r.state = .ELEMENT_END then 1 else 0)
        (machine_lowers cfg) (machine_det cfg) r (buf ++ c)
      obtain ⟨x, hx⟩ := hruns.mpr fun t d hsteps =>
        (machine_iff cfg t d).mpr fun hst => hcut t d hsteps (.stalled hst)
      cases x with
      | waiting t d =>
        obtain ⟨y, hy⟩ := ih (hrest t d hx)
        exact ⟨y, Feeds.wait hx hy⟩
      | stopped e => exact ⟨_, Feeds.stop hx⟩

theorem parse_mono_le (cfg : Config) {fuel fuel' : Nat} (hle : fuel ≤ fuel') {r : Reader} {buf : Bytes}
    {chunks : List Bytes} {x : Round} (h : parse cfg fuel r buf chunks = some x) :
    parse cfg fuel' r buf chunks = some x := by
  induction chunks generalizing r buf with
  | nil => exact h
  | cons data chunks ih =>
    rw [parse] at h ⊢
    cases hp : process cfg fuel r (buf ++ data) with
    | none =>
      rw [hp] at h
      cases h
    | some y =>
      rw [hp] at h
      rw [process_mono_le cfg hle hp]
      cases y with
      | next _ _ => exact h
      | error _ _ _ => exact h
      | done more r' buf' =>
        cases more with
        | true => exact ih h
        | false => exact h

/-- What the machine does with the buffers, `parse` does. -/
theorem parse_of_feeds (cfg : Config) {r : Reader} {buf : Bytes} {chunks : List Bytes} {o : Incremental.Outcome Reader UInt8 Round}
    (h : Feeds (machine cfg) r buf chunks o) : ∃ fuel x, parse cfg fuel r buf chunks = some x ∧ x.outcome = o := by
  induction h with
  | nil r buf => exact ⟨0, .done true r buf, rfl, rfl⟩
  | @wait r r' buf buf' c chunks o hr _ ih =>
    obtain ⟨fuel, x, hx, hout⟩ := process_of_runs cfg hr
    obtain ⟨fuel', y, hy, ho⟩ := ih
    obtain rfl : x = .done true r' buf' := by
      cases x with
      | next _ _ => cases hout
      | error _ _ _ => cases hout
      | done more _ _ =>
        cases more with
        | true =>
          cases hout
          rfl
        | false => cases hout
    refine ⟨max fuel fuel', y, ?_, ho⟩
    rw [parse, process_mono_le cfg (Nat.le_max_left fuel fuel') hx]
    exact parse_mono_le cfg (Nat.le_max_right fuel fuel') hy
  | @stop r buf c chunks e hr =>
    obtain ⟨fuel, x, hx, hout⟩ := process_of_runs cfg hr
    refine ⟨fuel, x, ?_, hout⟩
    rw [parse, hx]
    cases x with
    | next _ _ => rfl
    | error _ _ _ => rfl
    | done more _ _ =>
      cases more with
      | true => cases hout
      | false => rfl

/-- The reader waits for its first byte. -/
theorem start_waits (cfg : Config) : machine cfg start [] .wait :=
  (machine_simple (by decide) (by decide)).mpr rfl

/-- What `parse` does with the buffers, the machine does. -/
theorem feeds_of_parse (cfg : Config) {fuel : Nat} {r : Reader} {buf : Bytes} {chunks : List Bytes} {x : Round}
    (h : parse cfg fuel r buf chunks = some x) : Feeds (machine cfg) r buf chunks x.outcome := by
  induction chunks generalizing r buf with
  | nil =>
    obtain rfl := Option.some.inj h
    exact Feeds.nil r buf
  | cons data chunks ih =>
    rw [parse] at h
    cases hp : process cfg fuel r (buf ++ data) with
    | none =>
      rw [hp] at h
      cases h
    | some y =>
      have hruns := runs_of_process cfg hp
      rw [hp] at h
      cases y with
      | next _ _ =>
        obtain rfl := Option.some.inj h
        exact Feeds.stop hruns
      | error _ _ _ =>
        obtain rfl := Option.some.inj h
        exact Feeds.stop hruns
      | done more r' buf' =>
        cases more with
        | true => exact Feeds.wait hruns (ih h)
        | false =>
          obtain rfl := Option.some.inj h
          exact Feeds.stop hruns

theorem parse_det (cfg : Config) {fuel fuel' : Nat} {r : Reader} {buf : Bytes} {chunks : List Bytes} {x x' : Round}
    (h : parse cfg fuel r buf chunks = some x) (h' : parse cfg fuel' r buf chunks = some x') : x = x' := by
  have hmax := parse_mono_le cfg (Nat.le_max_left fuel fuel') h
  rw [parse_mono_le cfg (Nat.le_max_right fuel fuel') h'] at hmax
  exact (Option.some.inj hmax).symm

/-- A buffer begins with one reference at most. -/
theorem references_unique {buf : Bytes} {ref ref' : List (UInt8 → Bool) × Bytes} (h : ref ∈ references)
    (h' : ref' ∈ references) (hm : matchesRef ref.1 buf = true) (hm' : matchesRef ref'.1 buf = true) : ref = ref' := by
  have happ : references.Pairwise fun a b => matchesRef a.1 buf = true → matchesRef b.1 buf = true → a = b :=
    references_apart.imp fun hap ha hb => by
      rw [apart_not_both hap buf ha] at hb
      cases hb
  exact happ.forall_of_forall_of_flip (fun _ _ _ _ => rfl) (happ.imp fun hab hb ha => (hab ha hb).symm) h h' hm hm'

/-- What the buffer ends with is no reference yet. -/
theorem entref_cut {amp more : Bytes} (h : CutRef amp more) (d : Bytes) :
    entref d amp = .overflow ∨ entref d amp = .no := by
  obtain ⟨_, hlen, ref, href, href7, hmatch⟩ := h
  have htail := List.length_tail (l := amp)
  by_cases hd : d.length + 1 ≥ MAX_VALUE_SIZE
  · exact Or.inl (by rw [entref, if_pos hd])
  · have hfind : references.find? (fun ref => matchesRef ref.1 amp.tail) = none := by
      rw [List.find?_eq_none]
      intro ref' href' hm
      have hle := length_le_of_matchesRef (references_nul ref' href') hm
      have hboth : matchesRef ref'.1 (amp.tail ++ more) = true := by rwa [matchesRef_append hle]
      obtain rfl := references_unique href href' hmatch hboth
      omega
    exact Or.inr (by rw [entref, if_neg hd, if_pos (by omega), hfind])

theorem declEncodingValue_cut (cfg : Config) {more : Bytes} {fuel : Nat} {r : Reader} {buf : Bytes} {x : Result}
    (h : CutEncoding r.state more r.encoding buf) (hx : declEncodingValue cfg fuel r buf = some x) :
    (∃ t d message, x = .error t d message) ∨ ∃ t rest, x = .ret false t (byte '&' :: rest) := by
  induction fuel generalizing r buf with
  | zero => cases hx
  | succ fuel ih =>
    cases h with
    | here _ rest hc =>
      rw [declEncodingValue, if_neg (quote_ne _), if_pos rfl] at hx
      obtain hent | hent := entref_cut hc r.encoding <;> rw [hent] at hx <;> obtain rfl := Option.some.inj hx
      · exact Or.inl ⟨_, _, _, rfl⟩
      · exact Or.inr ⟨_, _, rfl⟩
    | reference _ rest d' buf _ hent hc =>
      rw [declEncodingValue, if_neg (quote_ne _), if_pos rfl, hent] at hx
      exact ih (r := { r with encoding := d' }) hc hx
    | char _ c rest hq hamp hd hc =>
      rw [declEncodingValue, if_neg hq, if_neg hamp, append_char, if_pos hd] at hx
      exact ih (r := { r with encoding := r.encoding ++ [c] }) hc hx

theorem value_cut (cfg : Config) {r : Reader} {buf more : Bytes}
    (hs : r.state = .ELEMENT_ATTR_VALUE_APOS ∨ r.state = .ELEMENT_ATTR_VALUE_QUOT)
    (h : CutRef (buf.dropWhile fun c => !valueStops r.state c) more) :
    ∃ t d message, simpleCase cfg r buf = .error t d message := by
  rw [simpleCase_value cfg hs, elementAttrValue]
  cases hattribs : r.attribs with
  | nil => exact ⟨_, _, _, rfl⟩
  | cons a as =>
    dsimp only
    cases append a.2 MAX_VALUE_SIZE (buf.takeWhile fun c => !(decide (c = quote r.state) || decide (c = byte '&'))) with
    | none => exact ⟨_, _, _, rfl⟩
    | some second =>
      change CutRef (buf.dropWhile fun c => !(decide (c = quote r.state) || decide (c = byte '&'))) more at h
      dsimp only
      generalize buf.dropWhile _ = amp at h
      cases amp with
      | nil => cases h.1
      | cons c rest =>
        obtain rfl : c = byte '&' := Option.some.inj h.1
        dsimp only
        rw [if_neg (quote_ne _)]
        obtain hent | hent := entref_cut h second <;> rw [hent] <;> exact ⟨_, _, _, rfl⟩

theorem content_cut (cfg : Config) {r : Reader} {buf more : Bytes} (hs : r.state = .CONTENT) (h : CutRef buf more) :
    ∃ message, simpleCase cfg r buf = .error r buf message := by
  match buf, h with
  | [], ⟨hhead, _, _⟩ => cases hhead
  | [_], ⟨_, hlen, _⟩ => cases hlen
  | c :: c' :: rest, h =>
    obtain rfl : c = byte '&' := Option.some.inj h.1
    have hbefore : (((((skipSpace true r (byte '&' :: c' :: rest)).or (literal (str "<!--") false .COMMENT)).or
        (literal (str "<![CDATA[") false .CDATA)).or element).or (literal (str "</") false .ELEMENT_END)) =
          .ret false r (byte '&' :: c' :: rest) := by
      rw [skipSpace_of_not_space (by decide)]
      rfl
    rw [simpleCase_content cfg hs, hbefore, ret_false_or, content, if_pos rfl]
    obtain hent | hent := entref_cut h r.value <;> rw [hent] <;> exact ⟨_, rfl⟩

/-- Where a reference is cut off the reader throws, or else never returns. -/
theorem Reader.Cut.stops {cfg : Config} {r : Reader} {buf more : Bytes} (h : r.Cut buf more)
    {y : Step Reader UInt8 Round} (hy : machine cfg r buf y) : ∃ e, y = .stop e := by
  cases h with
  | stalled hst => exact absurd hst ((machine_iff cfg r buf).mp ⟨y, hy⟩)
  | content hs hc =>
    obtain ⟨message, hcase⟩ := content_cut cfg hs hc
    rw [machine_simple (by simp [hs]) (by simp [hs]), hcase] at hy
    exact ⟨_, hy.symm⟩
  | value hs hc =>
    obtain ⟨t, d, message, hcase⟩ := value_cut cfg hs hc
    have hend : r.state ≠ .END := by
      obtain h | h := hs <;> rw [h] <;> decide
    have hname : ¬(r.state = .DECL_ENCODING_NAME_APOS ∨ r.state = .DECL_ENCODING_NAME_QUOT) := by
      obtain h | h := hs <;> rw [h] <;> decide
    rw [machine_simple hend hname, hcase] at hy
    exact ⟨_, hy.symm⟩
  | encoding hs hc =>
    obtain ⟨fuel, x, hx, rfl⟩ := (machine_encoding hs).mp hy
    obtain ⟨t, d, message, rfl⟩ | ⟨t, rest, rfl⟩ := declEncodingValue_cut cfg hc hx
    · exact ⟨_, rfl⟩
    · exact ⟨_, rfl⟩

/-- A reader that waits for more after all of its buffers came to none that is cut off. -/
theorem whole_of_feeds (cfg : Config) {r t : Reader} {buf d : Bytes} {chunks : List Bytes}
    (h : Feeds (machine cfg) r buf chunks (.waiting t d)) : Whole (machine cfg) Reader.Cut r buf chunks := by
  generalize hx : Incremental.Outcome.waiting t d = x at h
  induction h with
  | nil r buf => exact Whole.nil r buf
  | stop _ => cases hx
  | @wait r r' buf buf' c chunks x hr _ ih =>
    have hrest : ∀ t d, Runs (machine cfg) r (buf ++ c) (.waiting t d) → Whole (machine cfg) Reader.Cut t d chunks := by
      intro t d ht
      obtain ⟨rfl, rfl⟩ := Incremental.Outcome.waiting.inj (hr.det (machine_det cfg) ht)
      exact ih hx
    refine Whole.cons (fun t' d' hsteps hcut => ?_) hrest
    -- the run passes through here, and would have thrown
    have hruns := hr.of_steps (machine_det cfg) hsteps
    obtain ⟨y, hy⟩ := hruns.defined
    obtain ⟨e, rfl⟩ := hcut.stops hy
    cases hruns.det (machine_det cfg) (Runs.stop hy)

/-- No buffer of the document ends within a reference that the reader tries to read there. -/
def Uncut (cfg : Config) (chunks : List Bytes) : Prop := Whole (machine cfg) Reader.Cut start [] chunks

/-- The reader makes the same callbacks for two ways to cut a document, and ends with the same state or
throws for both. -/
def SameOutcome (cfg : Config) (chunks chunks' : List Bytes) : Prop :=
  ∃ fuel x x', parse cfg fuel start [] chunks = some x ∧ parse cfg fuel start [] chunks' = some x' ∧
    observe x.outcome = observe x'.outcome

theorem sameOutcome_of_uncut {cfg : Config} {chunks chunks' : List Bytes} (h : chunks.flatten = chunks'.flatten)
    (hw : Uncut cfg chunks) (hw' : Uncut cfg chunks') : SameOutcome cfg chunks chunks' := by
  obtain ⟨o, ho⟩ := feeds_of_whole cfg hw
  obtain ⟨o', ho'⟩ := feeds_of_whole cfg hw'
  obtain ⟨w, hruns, hobs⟩ := (machine_extends cfg).feeds ho start_nested hw fun _ => start_waits cfg
  obtain ⟨w', hruns', hobs'⟩ := (machine_extends cfg).feeds ho' start_nested hw' fun _ => start_waits cfg
  rw [← h] at hruns'
  obtain rfl := hruns.det (machine_det cfg) hruns'
  obtain ⟨fuel, x, hx, rfl⟩ := parse_of_feeds cfg ho
  obtain ⟨fuel', x', hx', rfl⟩ := parse_of_feeds cfg ho'
  exact ⟨max fuel fuel', x, x', parse_mono_le cfg (Nat.le_max_left fuel fuel') hx,
    parse_mono_le cfg (Nat.le_max_right fuel fuel') hx', hobs.symm.trans hobs'⟩

/-- A document that is read without an error was not cut. -/
theorem uncut_of_parse {cfg : Config} {chunks : List Bytes} {fuel : Nat} {x : Round} {r : Reader}
    (hx : parse cfg fuel start [] chunks = some x) (hr : observe x.outcome = .ok r) : Uncut cfg chunks := by
  have hfeeds := feeds_of_parse cfg hx
  generalize x.outcome = o at hr hfeeds
  cases o with
  | stopped e => cases hr
  | waiting t d => exact whole_of_feeds cfg hfeeds

/-- However a document is cut into buffers, the reader makes the same callbacks and comes to the same end,
as long as no reference is cut off where the reader tries to read it; and where the document can be read
without an error, a cut reference is what changes the outcome. -/
theorem parse_chunks (cfg : Config) (chunks chunks' : List Bytes) (h : chunks.flatten = chunks'.flatten) :
    (Uncut cfg chunks → Uncut cfg chunks' → SameOutcome cfg chunks chunks') ∧
      ∀ fuel r buf, parse cfg fuel start [] chunks = some (.done true r buf) →
        (SameOutcome cfg chunks chunks' ↔ Uncut cfg chunks') := by
  refine ⟨sameOutcome_of_uncut h, fun fuel r buf hread => ⟨?_, sameOutcome_of_uncut h (uncut_of_parse hread rfl)⟩⟩
  rintro ⟨fuel', x, x', hx, hx', hobs⟩
  obtain rfl := parse_det cfg hread hx
  exact uncut_of_parse hx' hobs.symm

theorem uncut_of_any {chunks : List Bytes} (fuel : Nat)
    (h : (parse plainConfig fuel start [] chunks).any (fun x => (observe x.outcome).isOk) = true) :
    Uncut plainConfig chunks := by
  obtain ⟨x, hx, hp⟩ := (Option.any_eq_true _ _).mp h
  cases hobs : observe x.outcome with
  | error _ =>
    rw [hobs] at hp
    cases hp
  | ok r => exact uncut_of_parse hx hobs

/-- A document, and pieces of it that cut a name, a value and a reference. -/
def shortDocument : Bytes := str "<ab c=\"de\">&lt;</ab>"

def shortPieces : List Bytes := [str "<a", str "b c=\"d", str "e\">&l", str "t;</ab>"]

theorem parse_chunks_pieces : SameOutcome plainConfig [shortDocument] shortPieces := by
  have h : Uncut plainConfig [shortDocument] := uncut_of_any 20 (by decide)
  have h' : Uncut plainConfig shortPieces := uncut_of_any 20 (by decide)
  exact (parse_chunks plainConfig [shortDocument] shortPieces (by decide)).1 h h'

/-- A document with a reference of seven characters. -/
def referenceDocument : Bytes := str "<a>&#12345;</a>"

/-- It is read at once, but not when the last character of the reference comes in a second buffer. -/
theorem not_parse_chunks :
    ¬∀ (cfg : Config) (chunks chunks' : List Bytes), chunks.flatten = chunks'.flatten →
      SameOutcome cfg chunks chunks' := by
  intro h
  obtain ⟨fuel, x, x', hx, hx', hobs⟩ := h plainConfig [referenceDocument] [str "<a>&#12345", str ";</a>"] rfl
  have hread : (parse plainConfig 20 start [] [referenceDocument]).any (fun x => (observe x.outcome).isOk) = true := by
    decide
  have hthrown : (parse plainConfig 20 start [] [str "<a>&#12345", str ";</a>"]).any
      (fun x => !(observe x.outcome).isOk) = true := by decide
  obtain ⟨y, hy, hok⟩ := (Option.any_eq_true _ _).mp hread
  obtain ⟨y', hy', herror⟩ := (Option.any_eq_true _ _).mp hthrown
  obtain rfl := parse_det plainConfig hx hy
  obtain rfl := parse_det plainConfig hx' hy'
  rw [← hobs, hok] at herror
  cases herror

end Dcpp.SimpleXMLReader
