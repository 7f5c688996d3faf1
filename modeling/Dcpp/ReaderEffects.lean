import Mathlib.Data.List.TakeWhile
import Dcpp.SimpleXMLReader

namespace Dcpp.SimpleXMLReader

/-- The innermost element has a name, and its start is still to be reported. -/
def named : ParseState → Bool
  | .ELEMENT_NAME | .ELEMENT_ATTR | .ELEMENT_ATTR_NAME | .ELEMENT_ATTR_EQ | .ELEMENT_ATTR_VALUE
  | .ELEMENT_ATTR_VALUE_QUOT | .ELEMENT_ATTR_VALUE_APOS | .ELEMENT_END_SIMPLE => true
  | _ => false

/-- What a parser does to the elements and the callbacks; without an element, `back` is undefined. -/
inductive Effect (r r' : Reader) : Prop where
  | same (calls : r'.calls = r.calls) (elements : r'.elements = r.elements)
    (state : named r'.state = named r.state)
    (ends : r'.state = .ELEMENT_END_END → r.state = .ELEMENT_END_END ∨ r.elements ≠ [])
    (running : r'.state = .END → r.state = .END)
  | opened (c : UInt8) (name : isNameStartChar c = true) (nesting : r.elements.length < MAX_NESTING)
    (calls : r'.calls = r.calls) (elements : r'.elements = [c] :: r.elements)
    (before : named r.state = false) (state : named r'.state = true)
  | renamed (top more : Bytes) (elements : List Bytes) (names : ∀ c ∈ more, isNameChar c = true)
    (calls : r'.calls = r.calls) (old : r.elements = top :: elements)
    (new : r'.elements = (top ++ more) :: elements)
    (before : named r.state = true) (state : named r'.state = true)
  | started (top more : Bytes) (elements : List Bytes) (names : ∀ c ∈ more, isNameChar c = true)
    (attribs : StringPairList) (old : r.elements = top :: elements)
    (calls : r'.calls = r.calls ++ [.startTag (top ++ more) attribs false])
    (new : r'.elements = (top ++ more) :: elements)
    (before : named r.state = true) (state : r'.state = .CONTENT)
  | simple (attribs : StringPairList)
    (calls : r'.calls = r.calls ++ [.startTag (r.elements.headD []) attribs true])
    (elements : r'.elements = r.elements.tail)
    (before : named r.state = true) (state : r'.state = .CONTENT)
  | ended (calls : r'.calls = r.calls ++ [.endTag (r.elements.headD [])])
    (elements : r'.elements = r.elements.tail)
    (before : r.state = .ELEMENT_END_END) (state : r'.state = .CONTENT)
  | undefined (before : named r.state = true) (elements : r.elements = [])

/-- The parser consumed input, or else it has just read an empty name. -/
def Consumes (r : Reader) (buf : Bytes) (r' : Reader) (buf' : Bytes) : Prop :=
  buf'.length < buf.length ∨
    buf'.length = buf.length ∧ r.state = .ELEMENT_END ∧ r'.state = .ELEMENT_END_END

/-- A parser that does not apply, or that waits for more, changes nothing. -/
def Result.Sound (x : Result) (r : Reader) (buf : Bytes) : Prop :=
  match x with
  | .ret false r' buf' => r' = r ∧ buf' = buf
  | .ret true r' buf' => r' = r ∧ buf' = buf ∨ Effect r r' ∧ Consumes r buf r' buf'
  | .error r' _ _ => r'.calls = r.calls

theorem Result.Sound.or {x : Result} {f : Reader → Bytes → Result} {r : Reader} {buf : Bytes}
    (hx : x.Sound r buf) (hf : (f r buf).Sound r buf) : (x.or f).Sound r buf := by
  cases x with
  | ret applies r' buf' =>
    cases applies with
    | false =>
      obtain ⟨rfl, rfl⟩ := hx
      exact hf
    | true => exact hx
  | error r' buf' message => exact hx

theorem sound_false (r : Reader) (buf : Bytes) : (Result.ret false r buf).Sound r buf := ⟨rfl, rfl⟩

theorem sound_wait (r : Reader) (buf : Bytes) : (Result.ret true r buf).Sound r buf := Or.inl ⟨rfl, rfl⟩

theorem sound_error (r : Reader) (buf : Bytes) (message : String) : (error message r buf).Sound r buf := rfl

/-- Only the state changes. -/
theorem effect_state {r : Reader} {newState : ParseState} (hs : named newState = named r.state)
    (hends : newState ≠ .ELEMENT_END_END ∧ newState ≠ .END) : Effect r { r with state := newState } :=
  .same rfl rfl hs (fun h => absurd h hends.1) fun h => absurd h hends.2

theorem length_dropWhile_le (p : UInt8 → Bool) (buf : Bytes) : (buf.dropWhile p).length ≤ buf.length :=
  (List.dropWhile_suffix p).length_le

/-- A literal is read, or it is something else, or more of it is to come. -/
theorem literal_spec (lit : Bytes) (withSpace : Bool) (newState : ParseState) (r : Reader) (buf : Bytes)
    (hlit : lit ≠ []) :
    literal lit withSpace newState r buf = .ret false r buf ∨
    literal lit withSpace newState r buf = .ret true r buf ∨
    ∃ buf', literal lit withSpace newState r buf = .ret true { r with state := newState } buf' ∧
      buf'.length < buf.length := by
  have hpos := List.length_pos_iff.mpr hlit
  rw [literal]
  split
  next =>
    split
    next hlen =>
      split
      next =>
        split
        next => exact Or.inr (Or.inl rfl)
        next =>
          split
          next => exact Or.inl rfl
          next =>
            refine Or.inr (Or.inr ⟨_, rfl, ?_⟩)
            rw [List.length_drop]
            omega
      next =>
        refine Or.inr (Or.inr ⟨_, rfl, ?_⟩)
        rw [List.length_drop]
        omega
    next => exact Or.inr (Or.inl rfl)
  next => exact Or.inl rfl

theorem literal_sound (lit : Bytes) (withSpace : Bool) {newState : ParseState} {r : Reader} (buf : Bytes)
    (hlit : lit ≠ []) (hs : named newState = named r.state) (hends : newState ≠ .ELEMENT_END_END ∧ newState ≠ .END) :
    (literal lit withSpace newState r buf).Sound r buf := by
  obtain heq | heq | ⟨buf', heq, hlt⟩ := literal_spec lit withSpace newState r buf hlit
  · rw [heq]
    exact sound_false r buf
  · rw [heq]
    exact sound_wait r buf
  · rw [heq]
    exact Or.inr ⟨effect_state hs hends, Or.inl hlt⟩

/-- A parser that looks at one character, and has some effect if it is the right one. -/
theorem head_sound {f : Bytes → Result} {p : UInt8 → Prop} [DecidablePred p] {next : UInt8 → Reader} {r : Reader}
    (hnil : f [] = .ret true r [])
    (hcons : ∀ c rest, f (c :: rest) = if p c then .ret true (next c) rest else .ret false r (c :: rest))
    (heffect : ∀ c, Effect r (next c)) (buf : Bytes) : (f buf).Sound r buf := by
  cases buf with
  | nil =>
    rw [hnil]
    exact sound_wait r []
  | cons c rest =>
    rw [hcons]
    split
    next => exact Or.inr ⟨heffect c, Or.inl (Nat.lt_succ_self _)⟩
    next => exact sound_false r _

theorem character_sound (c : UInt8) {newState : ParseState} {r : Reader} (buf : Bytes)
    (hs : named newState = named r.state) (hends : newState ≠ .ELEMENT_END_END ∧ newState ≠ .END) :
    (character c newState r buf).Sound r buf :=
  head_sound (f := character c newState r) rfl (fun _ _ => rfl) (fun _ => effect_state hs hends) buf

/-- The reader that a loop over spaces or characters leaves has only another value. -/
theorem skipLoop_spec (store skipped : Bool) (r : Reader) (buf : Bytes) :
    (∃ value n, skipLoop store skipped r buf = .ret (skipped || decide (0 < n)) { r with value := value } (buf.drop n) ∧
      n ≤ buf.length ∧ (n = 0 → value = r.value)) ∨
      ∃ value buf' message, skipLoop store skipped r buf = .error { r with value := value } buf' message := by
  induction buf generalizing skipped r with
  | nil => exact Or.inl ⟨r.value, 0, by rw [skipLoop]; simp, Nat.le_refl 0, fun _ => rfl⟩
  | cons c buf ih =>
    rw [skipLoop]
    split
    next =>
      have hrec : ∀ r' : Reader, (∃ value, r' = { r with value := value }) →
          (∃ value n, skipLoop store true r' buf =
            .ret (skipped || decide (0 < n)) { r with value := value } ((c :: buf).drop n) ∧
            n ≤ (c :: buf).length ∧ (n = 0 → value = r.value)) ∨
          ∃ value buf' message, skipLoop store true r' buf = .error { r with value := value } buf' message := by
        rintro r' ⟨value, rfl⟩
        obtain ⟨value, n, heq, hn, _⟩ | ⟨value, buf', message, heq⟩ := ih true { r with value := value }
        · refine Or.inl ⟨value, n + 1, ?_, Nat.succ_le_succ hn, fun h => absurd h (Nat.succ_ne_zero n)⟩
          rw [heq]
          simp
        · exact Or.inr ⟨value, buf', message, heq⟩
      split
      next =>
        split
        next => exact Or.inr ⟨r.value, _, _, rfl⟩
        next value _ => exact hrec _ ⟨value, rfl⟩
      next => exact hrec r ⟨r.value, rfl⟩
    next => exact Or.inl ⟨r.value, 0, by simp, Nat.zero_le _, fun _ => rfl⟩

theorem skipSpace_sound (store : Bool) (r : Reader) (buf : Bytes) :
    (skipSpace store r buf).Sound r buf := by
  rw [skipSpace]
  split
  next hnil =>
    subst hnil
    exact sound_wait r []
  next hne =>
    obtain ⟨value, n, heq, hn, hvalue⟩ | ⟨value, buf', message, heq⟩ := skipLoop_spec store false r buf
    · rw [heq, Bool.false_or]
      by_cases h0 : n = 0
      · subst h0
        rw [hvalue rfl]
        exact sound_false r buf
      · rw [decide_eq_true (Nat.pos_of_ne_zero h0)]
        refine Or.inr ⟨.same rfl rfl rfl Or.inl id, Or.inl ?_⟩
        have := List.length_pos_iff.mpr hne
        rw [List.length_drop]
        omega
    · rw [heq]
      rfl

theorem skipLoop_false (skipped : Bool) (r : Reader) (buf : Bytes) :
    skipLoop false skipped r buf =
      .ret (skipped || isSpace (charAt buf 0)) r (buf.dropWhile isSpace) := by
  induction buf generalizing skipped with
  | nil => simp [skipLoop, charAt, isSpace]
  | cons c buf ih =>
    rw [skipLoop]
    split
    next hc =>
      rw [if_neg Bool.false_ne_true, ih, List.dropWhile_cons_of_pos hc]
      simp [charAt, hc]
    next hc =>
      rw [List.dropWhile_cons_of_neg hc]
      simp [charAt, hc]

/-- Space is skipped, or else there is something else; at the end of the buffer both are possible. -/
theorem skipSpace_false (r : Reader) (buf : Bytes) :
    skipSpace false r buf =
      .ret (buf.isEmpty || isSpace (charAt buf 0)) r (buf.dropWhile isSpace) := by
  rw [skipSpace]
  split
  next hnil =>
    subst hnil
    rfl
  next hne =>
    rw [skipLoop_false]
    cases buf with
    | nil => exact absurd rfl hne
    | cons c buf => rfl

theorem spaceOrError_eq (message : String) (r : Reader) (buf : Bytes) :
    spaceOrError message r buf =
      if buf.isEmpty || isSpace (charAt buf 0) then .ret true r (buf.dropWhile isSpace)
      else .error r (buf.dropWhile isSpace) message := by
  rw [spaceOrError, skipSpace_false]
  split
  next h =>
    rw [h]
    rfl
  next h =>
    rw [eq_false_of_ne_true h]
    rfl

theorem spaceOrError_sound (message : String) (r : Reader) (buf : Bytes) :
    (spaceOrError message r buf).Sound r buf :=
  (skipSpace_sound false r buf).or (sound_error r buf message)

theorem append_eq {str c str' : Bytes} {maxLen : Nat} (h : append str maxLen c = some str') :
    str' = str ++ c := by
  rw [append] at h
  split at h
  next => cases h
  next => exact (Option.some.inj h).symm

theorem element_sound {r : Reader} (buf : Bytes) (hn : named r.state = false) :
    (element r buf).Sound r buf := by
  match buf with
  | [] => exact sound_wait r []
  | [c] => exact sound_wait r [c]
  | c₀ :: c :: rest =>
    rw [element]
    split
    next hc =>
      split
      next => exact rfl
      next hnest =>
        refine Or.inr ⟨.opened c (Bool.and_eq_true_iff.mp hc).2 (Nat.lt_of_not_ge hnest) rfl rfl hn rfl, Or.inl ?_⟩
        exact Nat.lt_of_lt_of_le (Nat.lt_succ_self _) (Nat.le_succ _)
    next => exact sound_false r _

theorem elementName_sound {r : Reader} (buf : Bytes) (hn : named r.state = true) :
    (elementName r buf).Sound r buf := by
  have hmore : ∀ c ∈ buf.takeWhile isNameChar, isNameChar c = true := fun _ => List.mem_takeWhile_imp
  rw [elementName]
  split
  next => exact rfl
  next top elements hel =>
    split
    next hdrop =>
      split
      next => exact rfl
      next top' htop =>
        obtain rfl := append_eq htop
        cases buf with
        | nil =>
          refine Or.inl ⟨?_, rfl⟩
          rw [List.takeWhile_nil, List.append_nil, ← hel]
        | cons c rest =>
          exact Or.inr ⟨.renamed top _ elements hmore rfl hel rfl hn hn, Or.inl (Nat.succ_pos _)⟩
    next c rest hdrop =>
      have hlen : rest.length < buf.length := by
        have := length_dropWhile_le isNameChar buf
        rw [hdrop] at this
        exact this
      split
      next =>
        split
        next => exact rfl
        next top' htop =>
          obtain rfl := append_eq htop
          dsimp only
          split
          next => exact Or.inr ⟨.renamed top _ elements hmore rfl hel rfl hn rfl, Or.inl hlen⟩
          next =>
            split
            next => exact Or.inr ⟨.renamed top _ elements hmore rfl hel rfl hn rfl, Or.inl hlen⟩
            next => exact Or.inr ⟨.started top _ elements hmore _ hel rfl rfl hn rfl, Or.inl hlen⟩
      next => exact sound_false r buf

theorem elementAttr_sound {r : Reader} (buf : Bytes) (hn : named r.state = true) :
    (elementAttr r buf).Sound r buf :=
  head_sound (f := elementAttr r) rfl (fun _ _ => rfl)
    (fun _ => .same rfl rfl hn.symm (fun h => by cases h) fun h => (by cases h)) buf

theorem elementAttrName_sound {r : Reader} (buf : Bytes) (hn : named r.state = true) :
    (elementAttrName r buf).Sound r buf := by
  rw [elementAttrName]
  split
  next => exact rfl
  next first second attribs hat =>
    split
    next hdrop =>
      split
      next => exact rfl
      next first' hfirst =>
        obtain rfl := append_eq hfirst
        cases buf with
        | nil =>
          refine Or.inl ⟨?_, rfl⟩
          rw [List.takeWhile_nil, List.append_nil, ← hat]
        | cons c rest => exact Or.inr ⟨.same rfl rfl rfl Or.inl id, Or.inl (Nat.succ_pos _)⟩
    next c rest hdrop =>
      have hlen : rest.length < buf.length := by
        have := length_dropWhile_le isNameChar buf
        rw [hdrop] at this
        exact this
      split
      next =>
        split
        next => exact rfl
        next =>
          refine Or.inr ⟨.same rfl rfl ?_ ?_ ?_, Or.inl hlen⟩
          · dsimp only
            rw [hn]
            split <;> rfl
          · dsimp only
            split <;> exact fun h => (by cases h)
          · dsimp only
            split <;> exact fun h => (by cases h)
      next => exact sound_false r buf

/-- A reference is read when there are more than six bytes, and else waits for them. -/
theorem entref_yes {d buf d' buf' : Bytes} (h : entref d buf = .yes d' buf') :
    buf.length ≤ 6 ∧ d' = d ∧ buf' = buf ∨
      6 < buf.length ∧ ∃ pattern c, references.find? (fun ref => matchesRef ref.1 buf.tail) = some (pattern, c) ∧
        d' = d ++ c ∧ buf' = buf.drop (pattern.length + 1) := by
  rw [entref] at h
  split at h
  next => cases h
  next =>
    split at h
    next hlen =>
      split at h
      next pattern c hfind =>
        obtain ⟨rfl, rfl⟩ := EntRef.yes.inj h
        exact Or.inr ⟨hlen, pattern, c, hfind, rfl, rfl⟩
      next => cases h
    next hlen =>
      obtain ⟨rfl, rfl⟩ := EntRef.yes.inj h
      exact Or.inl ⟨Nat.le_of_not_lt hlen, rfl, rfl⟩

theorem entref_length {d buf d' buf' : Bytes} (h : entref d buf = .yes d' buf') :
    buf.length ≤ 6 ∧ d' = d ∧ buf' = buf ∨ buf'.length < buf.length := by
  obtain h | ⟨hlen, pattern, c, _, _, rfl⟩ := entref_yes h
  · exact Or.inl h
  · refine Or.inr ?_
    rw [List.length_drop]
    omega

theorem elementAttrValue_sound (cfg : Config) {r : Reader} (buf : Bytes) (message : String)
    (hn : named r.state = true) :
    ((elementAttrValue cfg r buf).or (error message)).Sound r buf := by
  rw [elementAttrValue]
  split
  next => exact rfl
  next first second attribs hat =>
    dsimp only
    split
    next => exact rfl
    next second' hsecond =>
      obtain rfl := append_eq hsecond
      split
      next hdrop =>
        cases buf with
        | nil =>
          refine Or.inl ⟨?_, rfl⟩
          rw [List.takeWhile_nil, List.append_nil, ← hat]
        | cons c rest => exact Or.inr ⟨.same rfl rfl rfl Or.inl id, Or.inl (Nat.succ_pos _)⟩
      next c rest hdrop =>
        have hlen := length_dropWhile_le (fun c => !(decide (c = quote r.state) || decide (c = byte '&'))) buf
        rw [hdrop] at hlen
        split
        next =>
          split
          next => exact rfl
          next => exact Or.inr ⟨.same rfl rfl hn.symm (fun h => by cases h) fun h => (by cases h), Or.inl hlen⟩
        next =>
          split
          next => exact rfl
          next => exact rfl
          next second' buf' hent =>
            obtain ⟨_, rfl, rfl⟩ | hlt := entref_length hent
            · -- the reference is not complete
              by_cases htake : buf.takeWhile (fun c => !(decide (c = quote r.state) || decide (c = byte '&'))) = []
              · have hall := List.takeWhile_append_dropWhile
                  (p := fun c => !(decide (c = quote r.state) || decide (c = byte '&'))) (l := buf)
                rw [htake, List.nil_append, hdrop] at hall
                refine Or.inl ⟨?_, hall⟩
                rw [htake, List.append_nil, ← hat]
              · refine Or.inr ⟨.same rfl rfl rfl Or.inl id, Or.inl ?_⟩
                have hall := congrArg List.length (List.takeWhile_append_dropWhile
                  (p := fun c => !(decide (c = quote r.state) || decide (c = byte '&'))) (l := buf))
                have hpos := List.length_pos_iff.mpr htake
                rw [List.length_append, hdrop] at hall
                omega
            · exact Or.inr ⟨.same rfl rfl rfl Or.inl id, Or.inl (Nat.lt_of_lt_of_le hlt hlen)⟩

theorem elementEndSimple_sound {r : Reader} (buf : Bytes) (hn : named r.state = true) :
    (elementEndSimple r buf).Sound r buf :=
  head_sound (f := elementEndSimple r) rfl (fun _ _ => rfl) (fun _ => .simple _ rfl rfl hn rfl) buf

theorem elementEndComplex_sound {r : Reader} (buf : Bytes) (hn : named r.state = true) :
    (elementEndComplex r buf).Sound r buf := by
  refine head_sound (f := elementEndComplex r) rfl (fun _ _ => rfl) (fun _ => ?_) buf
  cases hel : r.elements with
  | nil => exact .undefined hn hel
  | cons top elements =>
    refine .started top [] elements (fun _ h => absurd h List.not_mem_nil) r.attribs.reverse hel ?_ ?_ hn rfl
    · rw [List.append_nil, startTag, hel]
      rfl
    · rw [List.append_nil]

theorem versionDigits_sound (sep : UInt8) {r : Reader} (whole buf : Bytes) (hlen : buf.length < whole.length)
    (hs : named r.state = false) : (versionDigits sep r whole buf).Sound r whole := by
  induction buf with
  | nil => exact sound_wait r whole
  | cons c buf ih =>
    have hlt := Nat.lt_trans (Nat.lt_succ_self buf.length) hlen
    rw [versionDigits]
    split
    next => exact Or.inr ⟨effect_state hs.symm (by decide), Or.inl hlt⟩
    next =>
      split
      next => exact sound_false r whole
      next => exact ih hlt

theorem declVersionNum_sound {r : Reader} (buf : Bytes) (hs : named r.state = false) :
    (declVersionNum r buf).Sound r buf := by
  rw [declVersionNum]
  split
  next => exact sound_wait r buf
  next hneed =>
    have hlen : 5 ≤ buf.length := by simpa [needChars] using hneed
    dsimp only
    split
    next =>
      split
      next => exact sound_false r buf
      next =>
        refine versionDigits_sound _ buf _ ?_ hs
        rw [List.length_drop]
        omega
    next => exact sound_false r buf

/-- The rest of a comment is found, or else only a dash or two are left. -/
theorem comment_spec (r : Reader) (buf : Bytes) :
    (∃ buf', comment r buf = .ret true { r with state := .CONTENT } buf' ∧ buf'.length < buf.length) ∨
      ∃ buf', comment r buf = .ret true r buf' ∧ buf' <:+ buf := by
  induction buf with
  | nil => exact Or.inr ⟨[], rfl, List.suffix_rfl⟩
  | cons c buf ih =>
    have hrec : (∃ buf', comment r buf = .ret true { r with state := .CONTENT } buf' ∧
          buf'.length < (c :: buf).length) ∨
        ∃ buf', comment r buf = .ret true r buf' ∧ buf' <:+ c :: buf := by
      obtain ⟨buf', heq, hlt⟩ | ⟨buf', heq, hsuf⟩ := ih
      · exact Or.inl ⟨buf', heq, Nat.lt_succ_of_lt hlt⟩
      · exact Or.inr ⟨buf', heq, hsuf.trans (List.suffix_cons c buf)⟩
    rw [comment.eq_def]
    dsimp only
    split
    next =>
      split
      next c₁ c₂ rest =>
        split
        next =>
          refine Or.inl ⟨rest, rfl, ?_⟩
          simp only [List.length_cons]
          omega
        next => exact hrec
      next => exact Or.inr ⟨_, rfl, List.suffix_rfl⟩
    next => exact hrec

theorem comment_sound {r : Reader} (buf : Bytes) (hs : named r.state = false) :
    (comment r buf).Sound r buf := by
  obtain ⟨buf', heq, hlt⟩ | ⟨buf', heq, hsuf⟩ := comment_spec r buf
  · rw [heq]
    exact Or.inr ⟨effect_state hs.symm (by decide), Or.inl hlt⟩
  · rw [heq]
    by_cases hlen : buf'.length = buf.length
    · exact Or.inl ⟨rfl, hsuf.eq_of_length hlen⟩
    · exact Or.inr ⟨.same rfl rfl rfl Or.inl id, Or.inl (Nat.lt_of_le_of_ne hsuf.length_le hlen)⟩

/-- The section ends, or it goes on with more of the value, or the value grows too long. -/
def Result.Stored (x : Result) (r : Reader) (buf : Bytes) : Prop :=
  (∃ value buf', x = .ret true { r with value := value, state := .CONTENT } buf' ∧ buf'.length < buf.length) ∨
    (∃ value buf', x = .ret true { r with value := value } buf' ∧ buf' <:+ buf ∧
      (buf' = buf → value = r.value)) ∨
    ∃ value buf' message, x = .error { r with value := value } buf' message

theorem cdata_spec (r : Reader) (buf : Bytes) : (cdata r buf).Stored r buf := by
  induction buf generalizing r with
  | nil => exact Or.inr (Or.inl ⟨r.value, [], rfl, List.suffix_rfl, fun _ => rfl⟩)
  | cons c buf ih =>
    have hoverflow : (Result.error r (c :: buf) "Buffer overflow").Stored r (c :: buf) :=
      Or.inr (Or.inr ⟨r.value, _, _, rfl⟩)
    have hrec (value : Bytes) : (cdata { r with value := value } buf).Stored r (c :: buf) := by
      obtain ⟨v, buf', heq, hlt⟩ | ⟨v, buf', heq, hsuf, _⟩ | ⟨v, buf', message, heq⟩ := ih { r with value := value }
      · exact Or.inl ⟨v, buf', heq, Nat.lt_succ_of_lt hlt⟩
      · refine Or.inr (Or.inl ⟨v, buf', heq, hsuf.trans (List.suffix_cons c buf), fun h => ?_⟩)
        have hle := hsuf.length_le
        rw [h] at hle
        exact absurd hle (Nat.not_succ_le_self _)
      · exact Or.inr (Or.inr ⟨v, buf', message, heq⟩)
    rw [cdata.eq_def]
    dsimp only
    split
    next =>
      split
      next c₁ c₂ rest =>
        split
        next => exact Or.inl ⟨r.value, rest, rfl, by simp only [List.length_cons]; omega⟩
        next =>
          split
          next => exact hoverflow
          next value _ => exact hrec value
      next => exact Or.inr (Or.inl ⟨r.value, _, rfl, List.suffix_rfl, fun _ => rfl⟩)
    next =>
      split
      next => exact hoverflow
      next value _ => exact hrec value

theorem cdata_sound {r : Reader} (buf : Bytes) (hs : named r.state = false) :
    (cdata r buf).Sound r buf := by
  obtain ⟨value, buf', heq, hlt⟩ | ⟨value, buf', heq, hsuf, hvalue⟩ | ⟨value, buf', message, heq⟩ := cdata_spec r buf
  · rw [heq]
    exact Or.inr ⟨.same rfl rfl hs.symm (fun h => by cases h) fun h => (by cases h), Or.inl hlt⟩
  · rw [heq]
    by_cases hlen : buf'.length = buf.length
    · have hbuf := hsuf.eq_of_length hlen
      rw [hvalue hbuf]
      exact Or.inl ⟨rfl, hbuf⟩
    · exact Or.inr ⟨.same rfl rfl rfl Or.inl id, Or.inl (Nat.lt_of_le_of_ne hsuf.length_le hlen)⟩
  · rw [heq]
    exact rfl

theorem content_sound (r : Reader) (buf : Bytes) : (content r buf).Sound r buf := by
  cases buf with
  | nil => exact sound_wait r []
  | cons c rest =>
    rw [content]
    split
    next =>
      split
      next => exact rfl
      next => exact sound_false r _
      next value buf' hent =>
        obtain ⟨_, rfl, rfl⟩ | hlt := entref_length hent
        · exact sound_wait r _
        · exact Or.inr ⟨.same rfl rfl rfl Or.inl id, Or.inl hlt⟩
    next =>
      split
      next => exact rfl
      next => exact Or.inr ⟨.same rfl rfl rfl Or.inl id, Or.inl (Nat.lt_succ_self _)⟩

theorem elementEnd_sound {r : Reader} (buf : Bytes) (hs : r.state = .ELEMENT_END) :
    (elementEnd r buf).Sound r buf := by
  rw [elementEnd]
  split
  next => exact sound_false r buf
  next top elements hel =>
    split
    next => exact sound_wait r buf
    next hneed =>
      split
      next =>
        refine Or.inr ⟨.same rfl rfl (by rw [hs]; rfl) (fun _ => Or.inr ?_) (fun h => by cases h), ?_⟩
        · rw [hel]
          exact List.cons_ne_nil top elements
        · have hlen : top.length ≤ buf.length := by simpa [needChars] using hneed
          rw [Consumes, List.length_drop]
          by_cases h0 : top.length = 0
          · exact Or.inr ⟨by omega, hs, rfl⟩
          · exact Or.inl (by omega)
      next => exact sound_false r buf

theorem elementEndEnd_sound {r : Reader} (buf : Bytes) (hs : r.state = .ELEMENT_END_END) :
    (elementEndEnd r buf).Sound r buf :=
  head_sound (f := elementEndEnd r) rfl (fun _ _ => rfl) (fun _ => .ended rfl rfl hs rfl) buf

theorem standalone_sound {r : Reader} (buf : Bytes) (hs : named r.state = false) :
    (standalone r buf).Sound r buf := by
  refine ((literal_sound _ _ buf (by decide) ?_ (by decide)).or
    (literal_sound _ _ buf (by decide) ?_ (by decide))).or (spaceOrError_sound _ r buf)
  · rw [hs]
    rfl
  · rw [hs]
    rfl

/-- The case after the encoding only changes the state. -/
theorem standalone_spec (r : Reader) (buf : Bytes) :
    (∃ state buf', standalone r buf = .ret true { r with state := state } buf' ∧ buf'.length ≤ buf.length ∧
      (state = r.state ∨ state = .DECL_STANDALONE_EQ ∨ state = .CONTENT)) ∨
    ∃ buf' message, standalone r buf = .error r buf' message := by
  rw [standalone]
  obtain heq | heq | ⟨buf', heq, hlt⟩ :=
    literal_spec (str "standalone") false .DECL_STANDALONE_EQ r buf (by decide)
  · rw [heq, Result.or]
    obtain heq' | heq' | ⟨buf', heq', hlt⟩ := literal_spec (str "?>") false .CONTENT r buf (by decide)
    · rw [heq', Result.or, spaceOrError_eq]
      split
      next => exact Or.inl ⟨r.state, _, rfl, length_dropWhile_le _ _, Or.inl rfl⟩
      next => exact Or.inr ⟨_, _, rfl⟩
    · rw [heq']
      exact Or.inl ⟨r.state, buf, rfl, Nat.le_refl _, Or.inl rfl⟩
    · rw [heq']
      exact Or.inl ⟨_, buf', rfl, Nat.le_of_lt hlt, Or.inr (Or.inr rfl)⟩
  · rw [heq]
    exact Or.inl ⟨r.state, buf, rfl, Nat.le_refl _, Or.inl rfl⟩
  · rw [heq]
    exact Or.inl ⟨_, buf', rfl, Nat.le_of_lt hlt, Or.inr (Or.inl rfl)⟩

theorem simpleCase_sound (cfg : Config) (r : Reader) (buf : Bytes) : (simpleCase cfg r buf).Sound r buf := by
  rw [simpleCase]
  split
  next h =>
    exact ((((literal_sound _ _ buf (by decide) (by rw [h]) (by decide)).or
      (literal_sound _ _ buf (by decide) (by rw [h]; rfl) (by decide))).or
      (literal_sound _ _ buf (by decide) (by rw [h]; rfl) (by decide))).or
      (element_sound buf (by rw [h]; rfl))).or (spaceOrError_sound _ r buf)
  next h =>
    exact ((skipSpace_sound false r buf).or
      (literal_sound _ _ buf (by decide) (by rw [h]; rfl) (by decide))).or (spaceOrError_sound _ r buf)
  next h => exact (character_sound _ buf (by rw [h]; rfl) (by decide)).or (spaceOrError_sound _ r buf)
  next h => exact (declVersionNum_sound buf (by rw [h]; rfl)).or (spaceOrError_sound _ r buf)
  next h =>
    exact (((literal_sound _ _ buf (by decide) (by rw [h]; rfl) (by decide)).or
      (literal_sound _ _ buf (by decide) (by rw [h]; rfl) (by decide))).or
      (literal_sound _ _ buf (by decide) (by rw [h]; rfl) (by decide))).or (spaceOrError_sound _ r buf)
  next h => exact (character_sound _ buf (by rw [h]; rfl) (by decide)).or (spaceOrError_sound _ r buf)
  next h =>
    exact ((character_sound _ buf (by rw [h]; rfl) (by decide)).or
      (character_sound _ buf (by rw [h]; rfl) (by decide))).or (spaceOrError_sound _ r buf)
  next h => exact standalone_sound buf (by rw [h]; rfl)
  next h => exact (character_sound _ buf (by rw [h]; rfl) (by decide)).or (spaceOrError_sound _ r buf)
  next h =>
    exact ((literal_sound _ _ buf (by decide) (by rw [h]; rfl) (by decide)).or
      (literal_sound _ _ buf (by decide) (by rw [h]; rfl) (by decide))).or (spaceOrError_sound _ r buf)
  next h => exact (literal_sound _ _ buf (by decide) (by rw [h]; rfl) (by decide)).or (spaceOrError_sound _ r buf)
  next h => exact (elementName_sound buf (by rw [h]; rfl)).or (sound_error r buf _)
  next h => exact (elementEndSimple_sound buf (by rw [h]; rfl)).or (sound_error r buf _)
  next h => exact (elementEnd_sound buf h).or (spaceOrError_sound _ r buf)
  next h => exact (elementEndEnd_sound buf h).or (spaceOrError_sound _ r buf)
  next h =>
    exact (((elementAttr_sound buf (by rw [h]; rfl)).or (elementEndComplex_sound buf (by rw [h]; rfl))).or
      (character_sound _ buf (by rw [h]; rfl) (by decide))).or (spaceOrError_sound _ r buf)
  next h => exact (elementAttrName_sound buf (by rw [h]; rfl)).or (sound_error r buf _)
  next h => exact (character_sound _ buf (by rw [h]; rfl) (by decide)).or (spaceOrError_sound _ r buf)
  next h =>
    exact ((character_sound _ buf (by rw [h]; rfl) (by decide)).or
      (character_sound _ buf (by rw [h]; rfl) (by decide))).or (spaceOrError_sound _ r buf)
  next h => exact elementAttrValue_sound cfg buf _ (by rw [h]; rfl)
  next h => exact elementAttrValue_sound cfg buf _ (by rw [h]; rfl)
  next h => exact (comment_sound buf (by rw [h]; rfl)).or (sound_error r buf _)
  next h => exact (cdata_sound buf (by rw [h]; rfl)).or (sound_error r buf _)
  next h =>
    exact ((((((skipSpace_sound true r buf).or
      (literal_sound _ _ buf (by decide) (by rw [h]; rfl) (by decide))).or
      (literal_sound _ _ buf (by decide) (by rw [h]; rfl) (by decide))).or
      (element_sound buf (by rw [h]; rfl))).or
      (literal_sound _ _ buf (by decide) (by rw [h]; rfl) (by decide))).or
      (content_sound r buf)).or (sound_error r buf _)
  next => exact rfl
  next => exact rfl
  next => exact rfl

/-- The loop over the encoding's name leaves the rest of the buffer, and another encoding. -/
theorem declEncodingValue_spec (cfg : Config) {fuel : Nat} {r : Reader} {buf : Bytes} {x : Result}
    (h : declEncodingValue cfg fuel r buf = some x) :
    (∃ encoding buf', x = .ret true { r with encoding := encoding, state := .DECL_STANDALONE } buf' ∧
      buf'.length < buf.length) ∨
    (∃ encoding, x = .ret true { r with encoding := encoding } [] ∧ (buf = [] → encoding = r.encoding)) ∨
    (∃ encoding buf', x = .ret false { r with encoding := encoding } buf' ∧
      ∃ rest, buf' = byte '&' :: rest) ∨
    ∃ encoding buf' message, x = .error { r with encoding := encoding } buf' message := by
  induction fuel generalizing r buf with
  | zero => cases h
  | succ fuel ih =>
    cases buf with
    | nil =>
      obtain rfl := Option.some.inj h
      exact Or.inr (Or.inl ⟨r.encoding, rfl, fun _ => rfl⟩)
    | cons c rest =>
      have hrec : ∀ encoding buf', buf'.length ≤ (c :: rest).length →
          declEncodingValue cfg fuel { r with encoding := encoding } buf' = some x →
          (∃ encoding buf', x = .ret true { r with encoding := encoding, state := .DECL_STANDALONE } buf' ∧
            buf'.length < (c :: rest).length) ∨
          (∃ encoding, x = .ret true { r with encoding := encoding } [] ∧
            (c :: rest = [] → encoding = r.encoding)) ∨
          (∃ encoding buf', x = .ret false { r with encoding := encoding } buf' ∧
            ∃ rest, buf' = byte '&' :: rest) ∨
          ∃ encoding buf' message, x = .error { r with encoding := encoding } buf' message := by
        intro encoding buf' hle hx
        obtain ⟨e, b, rfl, hlt⟩ | ⟨e, rfl, _⟩ | ⟨e, b, rfl, hb⟩ | ⟨e, b, message, rfl⟩ := ih hx
        · exact Or.inl ⟨e, b, rfl, Nat.lt_of_lt_of_le hlt hle⟩
        · exact Or.inr (Or.inl ⟨e, rfl, fun h => by cases h⟩)
        · exact Or.inr (Or.inr (Or.inl ⟨e, b, rfl, hb⟩))
        · exact Or.inr (Or.inr (Or.inr ⟨e, b, message, rfl⟩))
      rw [declEncodingValue] at h
      split at h
      next =>
        obtain rfl := Option.some.inj h
        exact Or.inl ⟨_, rest, rfl, Nat.lt_succ_self _⟩
      next =>
        split at h
        next hamp =>
          split at h
          next =>
            obtain rfl := Option.some.inj h
            exact Or.inr (Or.inr (Or.inr ⟨r.encoding, _, _, rfl⟩))
          next =>
            obtain rfl := Option.some.inj h
            exact Or.inr (Or.inr (Or.inl ⟨r.encoding, _, rfl, rest, by rw [hamp]⟩))
          next encoding buf' hent =>
            refine hrec encoding buf' ?_ h
            obtain ⟨_, _, rfl⟩ | hlt := entref_length hent
            · exact Nat.le_refl _
            · exact Nat.le_of_lt hlt
        next =>
          split at h
          next =>
            obtain rfl := Option.some.inj h
            exact Or.inr (Or.inr (Or.inr ⟨r.encoding, _, _, rfl⟩))
          next encoding _ => exact hrec encoding rest (Nat.le_succ _) h

theorem switch_sound (cfg : Config) {fuel : Nat} {r : Reader} {buf : Bytes} {x : Result}
    (h : switch cfg fuel r buf = some x) : x.Sound r buf := by
  rw [switch] at h
  split at h
  next hstate =>
    obtain ⟨y, hy, rfl⟩ := Option.map_eq_some_iff.mp h
    have hnamed : named r.state = false := by
      obtain hstate | hstate := hstate <;> rw [hstate] <;> rfl
    have hne : r.state ≠ .ELEMENT_END_END := by
      obtain hstate | hstate := hstate <;> rw [hstate] <;> decide
    obtain ⟨encoding, buf', rfl, hlt⟩ | ⟨encoding, rfl, henc⟩ | ⟨encoding, buf', rfl, rest, rfl⟩ |
        ⟨encoding, buf', message, rfl⟩ := declEncodingValue_spec cfg hy
    · dsimp only [Result.or]
      obtain ⟨state, buf'', heq, hle, hs⟩ | ⟨buf'', message, heq⟩ :=
        standalone_spec { r with encoding := encoding, state := .DECL_STANDALONE } buf'
      · rw [heq]
        refine Or.inr ⟨.same rfl rfl ?_ ?_ ?_, Or.inl (Nat.lt_of_le_of_lt hle hlt)⟩
        · rw [hnamed]
          obtain rfl | rfl | rfl := hs <;> rfl
        · obtain rfl | rfl | rfl := hs <;> exact fun h => (by cases h)
        · obtain rfl | rfl | rfl := hs <;> exact fun h => (by cases h)
      · rw [heq]
        exact rfl
    · dsimp only [Result.or]
      have heq : standalone { r with encoding := encoding } [] = .ret true { r with encoding := encoding } [] := rfl
      rw [heq]
      cases buf with
      | nil =>
        rw [henc rfl]
        exact Or.inl ⟨rfl, rfl⟩
      | cons c rest => exact Or.inr ⟨.same rfl rfl rfl Or.inl id, Or.inl (Nat.succ_pos _)⟩
    · dsimp only [Result.or]
      rw [spaceOrError_eq]
      exact rfl
    · exact rfl
  next =>
    obtain rfl := Option.some.inj h
    exact simpleCase_sound cfg r buf

theorem Effect.calls_of_content {r r' : Reader} (h : Effect r r') (hs : r.state = .CONTENT) :
    r'.calls = r.calls := by
  cases h with
  | same calls _ _ _ _ => exact calls
  | opened _ _ _ calls _ _ _ => exact calls
  | renamed _ _ _ _ _ _ _ before _ => rw [hs] at before; cases before
  | started _ _ _ _ _ _ _ _ before _ => rw [hs] at before; cases before
  | simple _ _ _ before _ => rw [hs] at before; cases before
  | ended _ _ before _ => rw [hs] at before; cases before
  | undefined before _ => rw [hs] at before; cases before

/-- What a round does: it goes on with an effect, and reports the value when the content ends; or it
changes nothing and makes no callback. -/
inductive RoundSpec (r : Reader) (buf : Bytes) : Round → Prop where
  | wait (state : r.state ≠ .END) : RoundSpec r buf (.done true r buf)
  | finish (state : r.state = .END) : RoundSpec r buf (.done false r [])
  | error (r' : Reader) (buf' : Bytes) (message : String) (calls : r'.calls = r.calls) :
    RoundSpec r buf (.error r' buf' message)
  | next (r' : Reader) (buf' : Bytes) (effect : Effect r r') (consumes : Consumes r buf r' buf') :
    RoundSpec r buf (.next r' buf')
  | data (r' : Reader) (buf' value : Bytes) (effect : Effect r r') (consumes : Consumes r buf r' buf')
    (before : r.state = .CONTENT) (state : r'.state ≠ .CONTENT) :
    RoundSpec r buf (.next { r' with calls := r'.calls ++ [.data value], value := [] } buf')

theorem roundEnd_spec (cfg : Config) {r : Reader} {buf : Bytes} (hend : r.state ≠ .END) {x : Result}
    (hx : x.Sound r buf) : RoundSpec r buf (roundEnd cfg r buf x) := by
  cases x with
  | error r' buf' message => exact .error r' buf' message hx
  | ret applies r' buf' =>
    cases applies with
    | false =>
      obtain ⟨rfl, rfl⟩ := hx
      rw [roundEnd, if_pos ⟨rfl, rfl⟩]
      exact .wait hend
    | true =>
      rw [roundEnd]
      split
      next hsame =>
        obtain ⟨hstate, hlen⟩ := hsame
        obtain ⟨rfl, rfl⟩ | ⟨_, hlt | ⟨_, h, h'⟩⟩ := hx
        · exact .wait hend
        · omega
        · rw [hstate, h] at h'
          cases h'
      next hsame =>
        obtain ⟨rfl, rfl⟩ | ⟨heff, hcons⟩ := hx
        · exact absurd ⟨rfl, rfl⟩ hsame
        · split
          next hdata =>
            obtain ⟨hbefore, hstate, _⟩ := hdata
            split
            next => exact .error r' buf' _ (heff.calls_of_content hbefore)
            next value _ => exact .data r' buf' value heff hcons hbefore hstate
          next => exact .next r' buf' heff hcons

theorem round_spec (cfg : Config) {fuel : Nat} {r : Reader} {buf : Bytes} {x : Round}
    (h : round cfg fuel r buf = some x) : RoundSpec r buf x := by
  rw [round] at h
  split at h
  next hend =>
    obtain rfl := Option.some.inj h
    exact .finish hend
  next hend =>
    obtain ⟨y, hy, rfl⟩ := Option.map_eq_some_iff.mp h
    exact roundEnd_spec cfg hend (switch_sound cfg hy)

end Dcpp.SimpleXMLReader
