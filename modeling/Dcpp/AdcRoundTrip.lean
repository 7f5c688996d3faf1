import Dcpp.AdcCommand

namespace Dcpp.AdcRoundTrip

open AdcCommand

/-- What is left of parameters when the last one is lost if it is empty. -/
def withoutTrailing (parameters : List Bytes) : List Bytes :=
  if parameters.getLast? = some [] then parameters.dropLast else parameters

theorem withoutTrailing_singleton (cur : Bytes) :
    withoutTrailing [cur] = if cur ≠ [] then [cur] else [] := by
  rw [withoutTrailing, List.getLast?_singleton]
  by_cases h : cur = []
  · rw [if_pos (congrArg some h), if_neg (not_not.mpr h)]
    rfl
  · rw [if_neg (fun he => h (Option.some.inj he)), if_pos h]

theorem withoutTrailing_append {l l' : List Bytes} (h : l' ≠ [] ∨ l.getLast? ≠ some []) :
    withoutTrailing (l ++ l') = l ++ withoutTrailing l' := by
  by_cases hl' : l' = []
  · subst hl'
    have hl := h.resolve_left (not_not.mpr rfl)
    rw [List.append_nil, withoutTrailing, if_neg hl]
    exact (List.append_nil l).symm
  · rw [withoutTrailing, withoutTrailing, List.getLast?_append_of_ne_nil l hl',
      List.dropLast_append_of_ne_nil hl']
    split <;> rfl

/-- The loop reads a text as a token, or the beginning of one. -/
def Reads (nmdc : Bool) (text token : Bytes) : Prop :=
  ∀ buf cur p, parseLoop nmdc (text ++ buf) cur p = parseLoop nmdc buf (cur ++ token) p

theorem reads_nil (nmdc : Bool) : Reads nmdc [] [] := by
  intro buf cur p
  rw [List.nil_append, List.append_nil]

theorem Reads.append {nmdc : Bool} {text text' token token' : Bytes} (h : Reads nmdc text token)
    (h' : Reads nmdc text' token') : Reads nmdc (text ++ text') (token ++ token') := by
  intro buf cur p
  rw [List.append_assoc, h, h', List.append_assoc]

theorem reads_char (nmdc : Bool) {c : UInt8} (hs : c ≠ byte ' ') (hb : c ≠ byte '\\') :
    Reads nmdc [c] [c] := by
  intro buf cur p
  rw [List.singleton_append, parseLoop.eq_def]
  dsimp only
  rw [if_neg hb, if_neg hs]

theorem reads_plain (nmdc : Bool) {s : Bytes} (hs : byte ' ' ∉ s) (hb : byte '\\' ∉ s) :
    Reads nmdc s s := by
  induction s with
  | nil => exact reads_nil nmdc
  | cons c s ih =>
    have hc := reads_char nmdc (c := c) (fun h => hs (h ▸ List.mem_cons_self ..))
      (fun h => hb (h ▸ List.mem_cons_self ..))
    exact hc.append (ih (fun h => hs (List.mem_cons_of_mem c h)) fun h => hb (List.mem_cons_of_mem c h))

theorem escape_cons (c : UInt8) (s : Bytes) (old : Bool) :
    escape (c :: s) old = escape [c] old ++ escape s old := by
  rw [escape, escape, escape, List.flatMap_cons, List.flatMap_singleton]

theorem reads_escape_char {c : UInt8} {nmdc : Bool} (h : nmdc = true → c ≠ byte '\n') :
    Reads nmdc (escape [c] nmdc) [c] := by
  by_cases hspecial : c = byte ' ' ∨ c = byte '\n' ∨ c = byte '\\'
  · intro buf cur p
    cases nmdc with
    | true =>
      obtain rfl | rfl | rfl := hspecial
      · rfl
      · exact absurd rfl (h rfl)
      · rfl
    | false => obtain rfl | rfl | rfl := hspecial <;> rfl
  · have hself : escape [c] nmdc = [c] := by
      rw [escape, List.flatMap_singleton, if_neg hspecial]
    push Not at hspecial
    rw [hself]
    exact reads_char nmdc hspecial.1 hspecial.2.2

/-- The parser undoes `escape`; the old escape of a newline is the one that it does not know. -/
theorem reads_escape {s : Bytes} {nmdc : Bool} (h : nmdc = true → byte '\n' ∉ s) :
    Reads nmdc (escape s nmdc) s := by
  induction s with
  | nil => exact reads_nil nmdc
  | cons c s ih =>
    rw [escape_cons]
    exact (reads_escape_char fun hn he => h hn (he ▸ List.mem_cons_self ..)).append
      (ih fun hn hm => h hn (List.mem_cons_of_mem c hm))

theorem parseLoop_newline {s : Bytes} (h : byte '\n' ∈ s) (buf cur : Bytes) (p : Parsing) :
    parseLoop true (escape s true ++ buf) cur p = .error "Unknown escape" := by
  induction s generalizing cur with
  | nil => exact absurd h List.not_mem_nil
  | cons c s ih =>
    rw [escape_cons, List.append_assoc]
    by_cases hc : c = byte '\n'
    · rw [hc]
      rfl
    · rw [reads_escape_char fun _ => hc]
      exact ih ((List.mem_cons.mp h).resolve_left fun he => hc he.symm) _

/-- The texts of some tokens, each after a blank. -/
def join (tokens : List (Bytes × Bytes)) : Bytes := tokens.flatMap fun t => byte ' ' :: t.1

theorem parseLoop_space (nmdc : Bool) (buf cur : Bytes) (p : Parsing) :
    parseLoop nmdc (byte ' ' :: buf) cur p = (newParameter p cur).bind (parseLoop nmdc buf []) := by
  rw [parseLoop.eq_def]
  rfl

theorem parseEnd_eq (cur : Bytes) (p : Parsing) :
    parseEnd cur p = ((withoutTrailing [cur]).foldlM newParameter p).bind (parseEnd []) := by
  rw [withoutTrailing_singleton]
  by_cases h : cur ≠ []
  · rw [if_pos h, parseEnd, if_pos h, List.foldlM_cons]
    cases newParameter p cur <;> rfl
  · rw [if_neg h, not_not.mp h]
    rfl

theorem parse_join {nmdc : Bool} {tokens : List (Bytes × Bytes)}
    (h : ∀ t ∈ tokens, Reads nmdc t.1 t.2) (cur : Bytes) (p : Parsing) :
    ((parseLoop nmdc (join tokens) cur p).bind fun r => parseEnd r.1 r.2) =
      ((withoutTrailing (cur :: tokens.map Prod.snd)).foldlM newParameter p).bind (parseEnd []) := by
  induction tokens generalizing cur p with
  | nil => exact parseEnd_eq cur p
  | cons t tokens ih =>
    have htrail : withoutTrailing (cur :: (t :: tokens).map Prod.snd) =
        cur :: withoutTrailing (t.2 :: tokens.map Prod.snd) :=
      withoutTrailing_append (l := [cur]) (Or.inl (List.cons_ne_nil _ _))
    rw [htrail, List.foldlM_cons, join, List.flatMap_cons, List.cons_append, parseLoop_space]
    cases hn : newParameter p cur with
    | error e => rfl
    | ok p' =>
      change ((parseLoop nmdc (t.1 ++ join tokens) [] p').bind _) = _
      rw [h t (List.mem_cons_self ..), List.nil_append]
      exact ih (fun t ht => h t (List.mem_cons_of_mem _ ht)) t.2 p'

/-- All tokens are completed, but for the last one if it is empty. -/
theorem parse_tokens {nmdc : Bool} {tokens : List (Bytes × Bytes)}
    (h : ∀ t ∈ tokens, Reads nmdc t.1 t.2) (p : Parsing) :
    ((parseLoop nmdc ((join tokens).drop 1) [] p).bind fun r => parseEnd r.1 r.2) =
      ((withoutTrailing (tokens.map Prod.snd)).foldlM newParameter p).bind (parseEnd []) := by
  cases tokens with
  | nil => rfl
  | cons t tokens =>
    have hdrop : (join (t :: tokens)).drop 1 = t.1 ++ join tokens := rfl
    rw [hdrop, h t (List.mem_cons_self ..), List.nil_append]
    exact parse_join (fun t ht => h t (List.mem_cons_of_mem _ ht)) t.2 p

/-- The header has been read. -/
structure Settled (p : Parsing) : Prop where
  fromSet : (p.command.type.hasFrom && !p.fromSet) = false
  toSet : (p.command.type.hasTo && !p.toSet) = false
  featureSet : (decide (p.command.type = .FEATURE) && !p.featureSet) = false

theorem newParameter_settled {p : Parsing} (h : Settled p) (i : Bytes) :
    newParameter p i = .ok { p with
      command := { p.command with parameters := p.command.parameters ++ [i] } } := by
  rw [newParameter, h.fromSet, h.toSet, h.featureSet]
  rfl

theorem foldlM_settled {p : Parsing} (h : Settled p) (parameters : List Bytes) :
    parameters.foldlM newParameter p = .ok { p with
      command := { p.command with parameters := p.command.parameters ++ parameters } } := by
  induction parameters generalizing p with
  | nil =>
    rw [List.append_nil]
    rfl
  | cons i parameters ih =>
    rw [List.foldlM_cons, newParameter_settled h i]
    refine (ih (p := { p with
      command := { p.command with parameters := p.command.parameters ++ [i] } })
      ⟨h.fromSet, h.toSet, h.featureSet⟩).trans ?_
    dsimp only
    rw [List.append_assoc]
    rfl

theorem parseEnd_settled {p : Parsing} (h : Settled p) : parseEnd [] p = .ok p.command := by
  rw [parseEnd, if_neg (not_not.mpr rfl)]
  change (if _ then _ else _) = _
  rw [h.fromSet, h.toSet, h.featureSet]
  rfl

/-- What a message gives back when it is parsed: the SIDs that its type carries, and not an empty
last parameter. -/
structure GivesBack (c : AdcCommand) (sid : UInt32) (r : AdcCommand) : Prop where
  type : r.type = c.type
  cmd : r.cmd = c.cmd
  «from» : c.type.hasFrom = true → r.from = sid
  «to» : c.type.hasTo = true → r.to = c.to
  parameters : r.parameters = withoutTrailing c.parameters

/-- The characters of a command are not the end of a C string. -/
def IsName (cmd : UInt8 × UInt8 × UInt8) : Prop := cmd.1 ≠ 0 ∧ cmd.2.1 ≠ 0 ∧ cmd.2.2 ≠ 0

theorem cmdChar_eq {c : AdcCommand} (h : IsName c.cmd) : c.cmdChar = [c.cmd.1, c.cmd.2.1, c.cmd.2.2] := by
  obtain ⟨h0, h1, h2⟩ := h
  simp [cmdChar, h0, h1, h2]

/-- A text that the header can carry as it is. -/
def Plain (s : Bytes) : Prop := byte ' ' ∉ s ∧ byte '\\' ∉ s

/-- What the header can carry: SIDs without a blank or a backslash, and features that are such
and of five characters each, of which there are some if there is no parameter. -/
structure Carries (c : AdcCommand) (sid : UInt32) : Prop where
  «from» : c.type.hasFrom = true → Plain (fromSID sid)
  «to» : c.type.hasTo = true → Plain (fromSID c.to)
  features : c.type = .FEATURE → Plain c.features ∧ c.features.length % 5 = 0 ∧
    (c.features ≠ [] ∨ c.parameters ≠ [])

/-- The tokens of the header. -/
def headerTokens (c : AdcCommand) (sid : UInt32) : List Bytes :=
  (if c.type.hasFrom then [fromSID sid] else []) ++ (if c.type.hasTo then [fromSID c.to] else []) ++
    (if c.type = .FEATURE then [c.features] else [])

/-- The line of a message without the separator. -/
def line (c : AdcCommand) (sid : UInt32) (nmdc : Bool) : Bytes := (c.toString sid nmdc).dropLast

/-- All tokens of a message, as they are written and as they are meant. -/
def tokens (c : AdcCommand) (sid : UInt32) : List (Bytes × Bytes) :=
  (headerTokens c sid).map (fun t => (t, t)) ++ c.parameters.map fun i => (escape i false, i)

theorem line_eq {c : AdcCommand} (h : IsName c.cmd) (sid : UInt32) :
    line c sid false = c.type.toChar :: c.cmd.1 :: c.cmd.2.1 :: c.cmd.2.2 :: join (tokens c sid) := by
  have hparams : c.parameters.flatMap (fun i => byte ' ' :: escape i false) =
      join (c.parameters.map fun i => (escape i false, i)) := by
    rw [join, List.flatMap_map]
  have hheader : c.getHeaderString sid false =
      c.type.toChar :: c.cmd.1 :: c.cmd.2.1 :: c.cmd.2.2 ::
        join ((headerTokens c sid).map fun t => (t, t)) := by
    rw [getHeaderString, cmdChar_eq h, headerTokens, join, List.flatMap_map]
    cases c.type <;> simp [AdcType.hasFrom, AdcType.hasTo]
  rw [line, AdcCommand.toString, getParamString, if_neg Bool.false_ne_true, ← List.append_assoc,
    List.dropLast_concat, hheader, hparams, tokens, join, join, join, List.flatMap_append]
  rfl

theorem headerTokens_read {c : AdcCommand} {sid : UInt32} (h : Carries c sid) :
    ∀ t ∈ headerTokens c sid, Plain t := by
  intro t ht
  rw [headerTokens, List.mem_append, List.mem_append] at ht
  obtain (ht | ht) | ht := ht
  · split at ht
    · rename_i hfrom
      rw [List.mem_singleton.mp ht]
      exact h.from hfrom
    · exact absurd ht List.not_mem_nil
  · split at ht
    · rename_i hto
      rw [List.mem_singleton.mp ht]
      exact h.to hto
    · exact absurd ht List.not_mem_nil
  · split at ht
    · rename_i hfeature
      rw [List.mem_singleton.mp ht]
      exact (h.features hfeature).1
    · exact absurd ht List.not_mem_nil

theorem tokens_read {c : AdcCommand} {sid : UInt32} (h : Carries c sid) :
    ∀ t ∈ tokens c sid, Reads false t.1 t.2 := by
  intro t ht
  obtain ht | ht := List.mem_append.mp ht
  · obtain ⟨s, hs, rfl⟩ := List.mem_map.mp ht
    exact reads_plain false (headerTokens_read h s hs).1 (headerTokens_read h s hs).2
  · obtain ⟨i, -, rfl⟩ := List.mem_map.mp ht
    exact reads_escape fun hn => absurd hn Bool.false_ne_true

theorem fromSID_length (sid : UInt32) : (fromSID sid).length = 4 := rfl

/-- What is known when the header has been read. -/
def afterHeader (c : AdcCommand) (sid : UInt32) (r : AdcCommand) : Parsing where
  command := { r with
    «from» := if c.type.hasFrom then sid else r.from
    «to» := if c.type.hasTo then c.to else r.to }
  toSet := c.type.hasTo
  featureSet := decide (c.type = .FEATURE)
  fromSet := c.type.hasFrom

theorem header_foldlM {c : AdcCommand} {sid : UInt32} (h : Carries c sid) {r : AdcCommand}
    (hr : r.type = c.type) :
    (headerTokens c sid).foldlM newParameter ⟨r, false, false, false⟩ = .ok (afterHeader c sid r) := by
  have hfive : c.type = .FEATURE → c.features.length % 5 = 0 := fun hf => (h.features hf).2.1
  obtain ⟨cmd, type, «from», «to», features, parameters⟩ := r
  dsimp only at hr
  subst hr
  rw [headerTokens, afterHeader]
  cases htype : c.type <;> rw [htype] at hfive <;>
    simp [newParameter, hfive, AdcType.hasFrom, AdcType.hasTo, toSID_fromSID, fromSID_length,
      bind, Except.bind, pure, Except.pure]

theorem afterHeader_settled {c : AdcCommand} {sid : UInt32} {r : AdcCommand} (hr : r.type = c.type) :
    Settled (afterHeader c sid r) := by
  constructor
  · change (r.type.hasFrom && !c.type.hasFrom) = false
    rw [hr, Bool.and_not_self]
  · change (r.type.hasTo && !c.type.hasTo) = false
    rw [hr, Bool.and_not_self]
  · change (decide (r.type = .FEATURE) && !decide (c.type = .FEATURE)) = false
    rw [hr, Bool.and_not_self]

theorem withoutTrailing_header {c : AdcCommand} {sid : UInt32} (h : Carries c sid) :
    withoutTrailing (headerTokens c sid ++ c.parameters) =
      headerTokens c sid ++ withoutTrailing c.parameters := by
  apply withoutTrailing_append
  by_cases hp : c.parameters = []
  · refine Or.inr fun hlast => ?_
    have hne : c.type = .FEATURE → c.features ≠ [] :=
      fun hf => (h.features hf).2.2.resolve_right (not_not.mpr hp)
    rw [headerTokens] at hlast
    cases htype : c.type <;> rw [htype] at hlast hne <;>
      simp [AdcType.hasFrom, AdcType.hasTo, fromSID] at hlast
    exact hne rfl hlast
  · exact Or.inl hp

/-- The command before its header is read; what is not set yet is as it is in memory. -/
def begun (c : AdcCommand) («from» «to» : UInt32) : AdcCommand :=
  ⟨c.cmd, c.type, if c.type = .INFO then HUB_SID else «from», «to», [], []⟩

/-- A message whose header can carry its SIDs and features is given back by the parser. -/
theorem parse_line {c : AdcCommand} (hname : IsName c.cmd) {sid : UInt32} (h : Carries c sid)
    («from» «to» : UInt32) :
    ∃ r, ofLine (line c sid false) false «from» «to» = .ok r ∧ GivesBack c sid r := by
  have hparse : ofLine (line c sid false) false «from» «to» =
      ((parseLoop false ((join (tokens c sid)).drop 1) [] ⟨begun c «from» «to», false, false, false⟩).bind
        fun r => parseEnd r.1 r.2) := by
    rw [ofLine, line_eq hname, parse.eq_def, if_neg Bool.false_ne_true]
    dsimp only
    rw [AdcType.ofChar_toChar]
    rfl
  have hmap : (tokens c sid).map Prod.snd = headerTokens c sid ++ c.parameters := by
    rw [tokens, List.map_append, List.map_map, List.map_map]
    exact congrArg₂ _ (List.map_id _) (List.map_id _)
  rw [hparse, parse_tokens (tokens_read h), hmap, withoutTrailing_header h, List.foldlM_append,
    header_foldlM h (r := begun c «from» «to») rfl]
  have hsettled : Settled (afterHeader c sid (begun c «from» «to»)) := afterHeader_settled rfl
  refine ⟨{ (afterHeader c sid (begun c «from» «to»)).command with
    parameters := withoutTrailing c.parameters }, ?_, ?_⟩
  · change (List.foldlM newParameter (afterHeader c sid (begun c «from» «to»)) _).bind (parseEnd []) = _
    rw [foldlM_settled hsettled]
    exact parseEnd_settled ⟨hsettled.fromSet, hsettled.toSet, hsettled.featureSet⟩
  · exact ⟨rfl, rfl, fun hf => if_pos hf, fun ht => if_pos ht, rfl⟩

/-- A message to one user, with parameters of all kinds. -/
def directMessage : AdcCommand where
  cmd := (byte 'M', byte 'S', byte 'G')
  type := .DIRECT
  «from» := 0
  «to» := toSID (str "ABCD")
  features := []
  parameters := [str "a \\\n b", [], str "PM", []]

theorem parse_line_direct :
    ∃ r, ofLine (line directMessage (toSID (str "EFGH")) false) false 0 0 = .ok r ∧
      GivesBack directMessage (toSID (str "EFGH")) r :=
  parse_line ⟨by decide, by decide, by decide⟩
    ⟨fun _ => ⟨by decide, by decide⟩, fun _ => ⟨by decide, by decide⟩, fun h => by cases h⟩ 0 0

/-- A SID of four characters, the first of which is a blank, is written as it is. -/
theorem not_parse_line : IsName directMessage.cmd ∧
    ¬∃ r, ofLine (line directMessage (toSID (str " ABC")) false) false 0 0 = .ok r ∧
      GivesBack directMessage (toSID (str " ABC")) r := by
  refine ⟨⟨by decide, by decide, by decide⟩, fun ⟨r, hr, _⟩ => ?_⟩
  have herror : ofLine (line directMessage (toSID (str " ABC")) false) false 0 0 =
      .error "Invalid SID length" := by decide
  rw [herror] at hr
  cases hr

section Nmdc

/-- A parameter that the old escape and the separator of the lines leave alone. -/
def Unbroken (s : Bytes) : Prop := byte '|' ∉ s ∧ byte '\n' ∉ s

theorem mem_escape_pipe (s : Bytes) : byte '|' ∈ escape s true ↔ byte '|' ∈ s := by
  induction s with
  | nil => exact Iff.rfl
  | cons c s ih =>
    have hc : byte '|' ∈ escape [c] true ↔ byte '|' = c := by
      rw [escape, List.flatMap_singleton]
      split
      · simp [show byte '|' ≠ byte '\\' by decide]
      · exact List.mem_singleton
    rw [escape_cons, List.mem_append, hc, ih, List.mem_cons]

def nmdcTokens (c : AdcCommand) : List (Bytes × Bytes) := c.parameters.map fun i => (escape i true, i)

theorem line_nmdc {c : AdcCommand} (h : IsName c.cmd) (ht : c.type = .CLIENT) (sid : UInt32) :
    line c sid true = str "$ADC" ++ ([c.cmd.1, c.cmd.2.1, c.cmd.2.2] ++ join (nmdcTokens c)) := by
  rw [line, AdcCommand.toString, getParamString, ← List.append_assoc]
  rw [if_pos rfl, List.dropLast_concat, getHeaderString, cmdChar_eq h, ht, join, nmdcTokens,
    List.flatMap_map]
  rfl

theorem mem_line_pipe {c : AdcCommand} (h : IsName c.cmd) (ht : c.type = .CLIENT) (sid : UInt32) :
    byte '|' ∈ line c sid true ↔
      byte '|' ∈ [c.cmd.1, c.cmd.2.1, c.cmd.2.2] ∨ ∃ i ∈ c.parameters, byte '|' ∈ i := by
  have hjoin : byte '|' ∈ join (nmdcTokens c) ↔ ∃ i ∈ c.parameters, byte '|' ∈ i := by
    rw [join, nmdcTokens, List.flatMap_map, List.mem_flatMap]
    refine exists_congr fun i => and_congr_right fun _ => ?_
    rw [List.mem_cons, mem_escape_pipe]
    exact or_iff_right (by decide)
  have hstr : byte '|' ∉ str "$ADC" := by decide
  rw [line_nmdc h ht, List.mem_append, List.mem_append, hjoin]
  exact or_iff_right hstr

/-- A newline in some parameter stops the parser. -/
theorem parseLoop_join_newline {parameters : List Bytes} (h : ∃ i ∈ parameters, byte '\n' ∈ i)
    (cur : Bytes) {p : Parsing} (hp : Settled p) :
    parseLoop true (join (parameters.map fun i => (escape i true, i))) cur p =
      .error "Unknown escape" := by
  induction parameters generalizing cur p with
  | nil =>
    obtain ⟨i, hi, -⟩ := h
    exact absurd hi List.not_mem_nil
  | cons i parameters ih =>
    rw [List.map_cons, join, List.flatMap_cons, List.cons_append, parseLoop_space,
      newParameter_settled hp]
    change parseLoop true (escape i true ++ join (parameters.map fun i => (escape i true, i))) [] _ = _
    by_cases hi : byte '\n' ∈ i
    · exact parseLoop_newline hi _ _ _
    · rw [reads_escape fun _ => hi]
      refine ih ?_ _ ⟨hp.fromSet, hp.toSet, hp.featureSet⟩
      obtain ⟨j, hj, hn⟩ := h
      obtain rfl | hj := List.mem_cons.mp hj
      · exact absurd hn hi
      · exact ⟨j, hj, hn⟩

/-- A newline in some parameter stops the parser, also in the first one. -/
theorem parseLoop_tokens_newline {c : AdcCommand} (h : ∃ i ∈ c.parameters, byte '\n' ∈ i)
    {p : Parsing} (hp : Settled p) :
    parseLoop true ((join (nmdcTokens c)).drop 1) [] p = .error "Unknown escape" := by
  rw [nmdcTokens]
  obtain ⟨j, hj, hn⟩ := h
  cases hc : c.parameters with
  | nil =>
    rw [hc] at hj
    exact absurd hj List.not_mem_nil
  | cons i parameters =>
    rw [hc] at hj
    change parseLoop true (escape i true ++ join (parameters.map fun i => (escape i true, i))) [] p = _
    by_cases hi : byte '\n' ∈ i
    · exact parseLoop_newline hi _ _ _
    · rw [reads_escape fun _ => hi]
      obtain rfl | hj := List.mem_cons.mp hj
      · exact absurd hn hi
      · exact parseLoop_join_newline ⟨j, hj, hn⟩ _ hp

/-- What a line of a client-client connection has to do: it has no separator inside, and it gives
the command and the parameters back. -/
structure GivesBackNmdc (c : AdcCommand) (sid : UInt32) («from» «to» : UInt32) : Prop where
  unbroken : byte '|' ∉ line c sid true
  parsed : ∃ r, ofLine (line c sid true) true «from» «to» = .ok r ∧ r.cmd = c.cmd ∧
    r.parameters = withoutTrailing c.parameters

/-- Exactly the lines without a separator or a newline in their command and parameters are
given back. -/
theorem parse_line_nmdc_iff {c : AdcCommand} (hname : IsName c.cmd) (ht : c.type = .CLIENT)
    (sid «from» «to» : UInt32) :
    GivesBackNmdc c sid «from» «to» ↔
      byte '|' ∉ [c.cmd.1, c.cmd.2.1, c.cmd.2.2] ∧ ∀ i ∈ c.parameters, Unbroken i := by
  have hparse : ofLine (line c sid true) true «from» «to» =
      ((parseLoop true ((join (nmdcTokens c)).drop 1) [] ⟨begun c «from» «to», false, false, true⟩).bind
        fun r => parseEnd r.1 r.2) := by
    rw [line_nmdc hname ht, ofLine, begun, ht]
    rfl
  have hsettled : Settled ⟨begun c «from» «to», false, false, true⟩ := by
    constructor <;> rw [begun, ht] <;> rfl
  constructor
  · rintro ⟨hun, r, hr, -, -⟩
    rw [mem_line_pipe hname ht, not_or] at hun
    refine ⟨hun.1, fun i hi => ⟨fun hp => hun.2 ⟨i, hi, hp⟩, fun hn => ?_⟩⟩
    rw [hparse, parseLoop_tokens_newline ⟨i, hi, hn⟩ hsettled] at hr
    cases hr
  · rintro ⟨hcmd, hparams⟩
    constructor
    · rw [mem_line_pipe hname ht, not_or]
      exact ⟨hcmd, fun ⟨i, hi, hp⟩ => (hparams i hi).1 hp⟩
    · have hreads : ∀ t ∈ nmdcTokens c, Reads true t.1 t.2 := by
        intro t h
        obtain ⟨i, hi, rfl⟩ := List.mem_map.mp h
        exact reads_escape fun _ => (hparams i hi).2
      have hmap : (nmdcTokens c).map Prod.snd = c.parameters := by
        rw [nmdcTokens, List.map_map]
        exact List.map_id _
      refine ⟨{ begun c «from» «to» with parameters := withoutTrailing c.parameters }, ?_, rfl, rfl⟩
      rw [hparse, parse_tokens hreads, hmap, foldlM_settled hsettled]
      exact parseEnd_settled ⟨hsettled.fromSet, hsettled.toSet, hsettled.featureSet⟩

/-- A request for a file. -/
def fileRequest (name : Bytes) : AdcCommand where
  cmd := (byte 'G', byte 'E', byte 'T')
  type := .CLIENT
  «from» := 0
  «to» := 0
  features := []
  parameters := [str "file", name, str "0", str "-1"]

theorem parse_line_nmdc_iff_request :
    GivesBackNmdc (fileRequest (str "/a b\\c")) 0 0 0 ↔
      byte '|' ∉ [byte 'G', byte 'E', byte 'T'] ∧
        ∀ i ∈ (fileRequest (str "/a b\\c")).parameters, Unbroken i :=
  parse_line_nmdc_iff (c := fileRequest (str "/a b\\c")) ⟨by decide, by decide, by decide⟩ rfl 0 0 0

/-- The name of the file has a newline. -/
theorem not_parse_line_nmdc : ¬GivesBackNmdc (fileRequest (str "/a\nb")) 0 0 0 := by
  rintro ⟨-, r, hr, -, -⟩
  have herror : ofLine (line (fileRequest (str "/a\nb")) 0 true) true 0 0 = .error "Unknown escape" := by
    decide
  rw [herror] at hr
  cases hr

end Nmdc

end Dcpp.AdcRoundTrip
