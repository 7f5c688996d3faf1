import Dcpp.ReaderStreams
import Dcpp.ReaderSuffixes

-- Documents that the reader reads alike however they are cut into buffers.
namespace Dcpp.SimpleXMLReader

open Incremental

/-- After every ampersand there is something, and it is no number sign. -/
def NoNumbers (w : Bytes) : Prop := ∀ u v, w = u ++ byte '&' :: v → ∃ c v', v = c :: v' ∧ c ≠ byte '#'

theorem noNumbers_of_not_mem {w : Bytes} (h : byte '&' ∉ w) : NoNumbers w := by
  rintro u v rfl
  exact absurd (List.mem_append_right u List.mem_cons_self) h

theorem NoNumbers.append {w w' : Bytes} (h : NoNumbers w) (h' : NoNumbers w') : NoNumbers (w ++ w') := by
  intro u v heq
  obtain ⟨t, rfl, ht⟩ | ⟨t, rfl, ht⟩ := List.append_eq_append_iff.mp heq
  · exact h' t v ht
  · cases t with
    | nil => exact h' [] v ht.symm
    | cons c t =>
      obtain ⟨rfl, hv⟩ := List.cons.inj ht
      obtain ⟨d, v', rfl, hd⟩ := h u t rfl
      exact ⟨d, v' ++ w', hv, hd⟩

theorem NoNumbers.suffix {w w' : Bytes} (h : NoNumbers w) (hs : w' <:+ w) : NoNumbers w' := by
  obtain ⟨t, rfl⟩ := hs
  rintro u v rfl
  exact h (t ++ u) v (List.append_assoc t u _).symm

/-- The references of seven characters begin with a number sign. -/
theorem references_seven {ref : List (UInt8 → Bool) × Bytes} (href : ref ∈ references) (hlen : ref.1.length = 7)
    {buf : Bytes} (h : matchesRef ref.1 buf = true) : buf.headD 0 = byte '#' := by
  simp only [references, List.mem_cons, List.not_mem_nil, or_false] at href
  obtain rfl | rfl | rfl | rfl | rfl | rfl | rfl | rfl | rfl | rfl | rfl | rfl | rfl | rfl := href
  all_goals first
    | exact of_decide_eq_true (Bool.and_eq_true_iff.mp h).1
    | cases hlen

theorem NoNumbers.not_cutRef {amp more : Bytes} (h : NoNumbers (amp ++ more)) : ¬CutRef amp more := by
  rintro ⟨hhead, _, ref, href, hlen, hmatch⟩
  cases amp with
  | nil => cases hhead
  | cons c amp =>
    cases hhead
    obtain ⟨d, v, hv, hd⟩ := h [] (amp ++ more) rfl
    refine hd ?_
    have hhead := references_seven href hlen hmatch
    rwa [List.tail_cons, hv] at hhead

section Declaration

/-- The declaration from the version on, up to the name of the encoding. -/
def versionText : Bytes := str "version=\"1.0\" encoding=\"utf-8\""

/-- What the reader still has to read of the declaration that the program writes. -/
def Declares (s : ParseState) (rest : Bytes) : Prop :=
  match s with
  | .START => ∃ body, rest = str "<?xml " ++ (versionText ++ body)
  | .DECL_VERSION => ∃ body, rest = versionText ++ body
  | .DECL_VERSION_EQ => ∃ body, rest = versionText.drop 7 ++ body
  | .DECL_VERSION_NUM => ∃ body, rest = versionText.drop 8 ++ body
  | .DECL_ENCODING => ∃ n body, (n = 13 ∨ n = 14) ∧ rest = versionText.drop n ++ body
  | .DECL_ENCODING_EQ => ∃ body, rest = versionText.drop 22 ++ body
  | .DECL_ENCODING_NAME => ∃ body, rest = versionText.drop 23 ++ body
  | .DECL_ENCODING_NAME_QUOT => ∃ w body, rest = w ++ byte '"' :: body ∧ byte '&' ∉ w ∧ byte '"' ∉ w
  | .DECL_ENCODING_NAME_APOS => False
  | _ => True

theorem declares_of_past {s : ParseState} (h : past s = true) (rest : Bytes) : Declares s rest := by
  cases s <;> trivial

theorem zip_all_of_append {lit rest buf more : Bytes} (h : buf ++ more = lit ++ rest) :
    (lit.zip buf).all (fun p => p.1 = p.2) = true := by
  induction lit generalizing buf with
  | nil => rfl
  | cons c lit ih =>
    cases buf with
    | nil => rfl
    | cons d buf =>
      obtain ⟨rfl, htail⟩ := List.cons.inj h
      rw [List.zip_cons_cons, List.all_cons, ih htail]
      simp

theorem literal_of_append {lit rest buf more : Bytes} (h : buf ++ more = lit ++ rest) (newState : ParseState) (r : Reader) :
    literal lit false newState r buf =
      if lit.length ≤ buf.length then .ret true { r with state := newState } (buf.drop lit.length)
      else .ret true r buf := by
  rw [literal, if_pos (zip_all_of_append h)]
  rfl

theorem literal_space_of_append {lit rest buf more : Bytes} (h : buf ++ more = lit ++ byte ' ' :: rest)
    (newState : ParseState) (r : Reader) :
    literal lit true newState r buf =
      if lit.length < buf.length then .ret true { r with state := newState } (buf.drop (lit.length + 1))
      else .ret true r buf := by
  rw [literal, if_pos (zip_all_of_append h)]
  by_cases hle : lit.length ≤ buf.length
  · rw [if_pos hle, if_pos rfl]
    by_cases heq : buf.length = lit.length
    · rw [if_pos heq, if_neg (by omega)]
    · have hlt : lit.length < buf.length := by omega
      have hchar : charAt buf lit.length = byte ' ' := by
        rw [← charAt_append hlt more, h]
        simp [charAt]
      rw [if_neg heq, hchar, if_pos hlt]
      rfl
  · rw [if_neg hle, if_neg (by omega)]

theorem literal_at_space {lit : Bytes} (h : lit.headD (byte ' ') ≠ byte ' ') (newState : ParseState) (r : Reader)
    (rest : Bytes) : literal lit false newState r (byte ' ' :: rest) = .ret false r (byte ' ' :: rest) := by
  cases lit with
  | nil => exact absurd rfl h
  | cons c lit => exact literal_false_head h lit rest false newState r

theorem drop_of_append {lit rest buf more : Bytes} (h : buf ++ more = lit ++ rest) (hle : lit.length ≤ buf.length) :
    buf.drop lit.length ++ more = rest := by
  have hdrop := congrArg (List.drop lit.length) h
  rwa [List.drop_append_of_le_length hle, List.drop_left] at hdrop

theorem eq_of_append {lit rest buf more : Bytes} (h : buf ++ more = lit ++ rest) (hle : lit.length ≤ buf.length) :
    buf = lit ++ buf.drop lit.length := by
  have htake := congrArg (List.take lit.length) h
  rw [List.take_append_of_le_length hle, List.take_left] at htake
  conv_lhs => rw [← List.take_append_drop lit.length buf, htake]

theorem ret_of_step {cfg : Config} {r r' : Reader} {buf buf' : Bytes} {x : Result} (hcontent : r.state ≠ .CONTENT)
    (h : (roundEnd cfg r buf x).step = .next r' buf') : ∃ b, x = .ret b r' buf' := by
  cases x with
  | error _ _ _ => cases h
  | ret b _ _ =>
    rw [roundEnd] at h
    split at h
    next => cases h
    next =>
      rw [if_neg fun h => hcontent h.1] at h
      cases h
      exact ⟨b, rfl⟩

/-- What a round that goes on makes of the result of the parsers. -/
theorem next_of_simple {cfg : Config} {r r' r₁ : Reader} {buf buf' buf₁ : Bytes} {b : Bool} (hend : r.state ≠ .END)
    (hname : ¬(r.state = .DECL_ENCODING_NAME_APOS ∨ r.state = .DECL_ENCODING_NAME_QUOT)) (hcontent : r.state ≠ .CONTENT)
    (hcase : simpleCase cfg r buf = .ret b r₁ buf₁) (hm : machine cfg r buf (.next r' buf')) :
    r' = r₁ ∧ buf' = buf₁ ∧ ¬(r₁.state = r.state ∧ buf₁.length = buf.length) := by
  rw [machine_simple hend hname, hcase, roundEnd] at hm
  split at hm
  next => cases hm
  next hmoves =>
    rw [if_neg fun h => hcontent h.1] at hm
    cases hm
    exact ⟨rfl, rfl, hmoves⟩

variable {cfg : Config} {r r' : Reader} {buf buf' more : Bytes}

/-- A literal that is next. -/
theorem next_literal {lit rest : Bytes} {newState : ParseState} (hend : r.state ≠ .END)
    (hname : ¬(r.state = .DECL_ENCODING_NAME_APOS ∨ r.state = .DECL_ENCODING_NAME_QUOT)) (hcontent : r.state ≠ .CONTENT)
    (h : buf ++ more = lit ++ rest)
    (hcase : simpleCase cfg r buf = literal lit false newState r buf) (hm : machine cfg r buf (.next r' buf')) :
    r'.state = newState ∧ buf' ++ more = rest := by
  rw [literal_of_append h] at hcase
  split at hcase
  next hle =>
    obtain ⟨rfl, rfl, _⟩ := next_of_simple hend hname hcontent hcase hm
    exact ⟨rfl, drop_of_append h hle⟩
  next =>
    obtain ⟨_, _, hmoves⟩ := next_of_simple hend hname hcontent hcase hm
    exact absurd ⟨rfl, rfl⟩ hmoves

/-- A character that is next. -/
theorem next_character {c : UInt8} {rest : Bytes} {newState : ParseState} (hend : r.state ≠ .END)
    (hname : ¬(r.state = .DECL_ENCODING_NAME_APOS ∨ r.state = .DECL_ENCODING_NAME_QUOT)) (hcontent : r.state ≠ .CONTENT)
    (h : buf ++ more = c :: rest)
    (hcase : ∀ b, buf = c :: b → simpleCase cfg r buf = .ret true { r with state := newState } b)
    (hnil : simpleCase cfg r [] = .ret true r []) (hm : machine cfg r buf (.next r' buf')) :
    r'.state = newState ∧ buf' ++ more = rest := by
  cases buf with
  | nil =>
    obtain ⟨_, _, hmoves⟩ := next_of_simple hend hname hcontent hnil hm
    exact absurd ⟨rfl, rfl⟩ hmoves
  | cons d buf =>
    obtain ⟨rfl, htail⟩ := List.cons.inj h
    obtain ⟨rfl, rfl, _⟩ := next_of_simple hend hname hcontent (hcase buf rfl) hm
    exact ⟨rfl, htail⟩

/-- The loop over the name of the encoding, where the name is to end without an ampersand. -/
theorem declEncodingValue_declared (cfg : Config) {fuel : Nat} {r : Reader} {buf w body : Bytes} {x : Result}
    (hq : quote r.state = byte '"') (h : buf ++ more = w ++ byte '"' :: body) (hamp : byte '&' ∉ w) (hquot : byte '"' ∉ w)
    (hx : declEncodingValue cfg fuel r buf = some x) :
    (∃ encoding buf', x = .ret true { r with encoding := encoding, state := .DECL_STANDALONE } buf') ∨
      (∃ encoding w', x = .ret true { r with encoding := encoding } [] ∧ more = w' ++ byte '"' :: body ∧
        byte '&' ∉ w' ∧ byte '"' ∉ w') ∨ ∃ r' buf' message, x = .error r' buf' message := by
  induction fuel generalizing r buf w with
  | zero => cases hx
  | succ fuel ih =>
    cases buf with
    | nil =>
      obtain rfl := Option.some.inj hx
      exact Or.inr (Or.inl ⟨r.encoding, w, rfl, h, hamp, hquot⟩)
    | cons c rest =>
      rw [declEncodingValue, hq] at hx
      split at hx
      next =>
        obtain rfl := Option.some.inj hx
        exact Or.inl ⟨_, rest, rfl⟩
      next hc =>
        cases w with
        | nil => exact absurd (List.cons.inj h).1 hc
        | cons d w =>
          obtain ⟨rfl, htail⟩ := List.cons.inj h
          have hc : c ≠ byte '&' := by
            rintro rfl
            exact hamp List.mem_cons_self
          rw [if_neg hc] at hx
          split at hx
          next =>
            obtain rfl := Option.some.inj hx
            exact Or.inr (Or.inr ⟨_, _, _, rfl⟩)
          next encoding _ =>
            exact ih (r := { r with encoding := encoding }) hq htail (fun h => hamp (List.mem_cons_of_mem _ h))
              (fun h => hquot (List.mem_cons_of_mem _ h)) hx

/-- The loop comes to no ampersand there. -/
theorem not_comes {P : Bytes → Bytes → Prop} {d w body : Bytes} (h : buf ++ more = w ++ byte '"' :: body)
    (hamp : byte '&' ∉ w) : ¬Comes (byte '"') P d buf := by
  intro hc
  generalize hq : byte '"' = q at hc
  induction hc generalizing w with
  | here d rest _ =>
    cases w with
    | nil => cases (List.cons.inj h).1
    | cons c w => exact hamp ((List.cons.inj h).1 ▸ List.mem_cons_self)
  | reference d rest _ _ _ _ _ _ =>
    cases w with
    | nil => cases (List.cons.inj h).1
    | cons c w => exact hamp ((List.cons.inj h).1 ▸ List.mem_cons_self)
  | char d c rest hne _ _ _ ih =>
    cases w with
    | nil => exact hne ((List.cons.inj h).1.trans hq)
    | cons c w => exact ih (List.cons.inj h).2 fun h => hamp (List.mem_cons_of_mem _ h)

theorem declares_start (hs : r.state = .START) (h : Declares r.state (buf ++ more))
    (hm : machine cfg r buf (.next r' buf')) : Declares r'.state (buf' ++ more) := by
  rw [hs] at h
  obtain ⟨body, h⟩ := h
  cases buf with
  | nil =>
    have hcase : simpleCase cfg r [] = .ret true r [] := by
      rw [simpleCase, hs]
      rfl
    obtain ⟨_, _, hmoves⟩ := next_of_simple (by simp [hs]) (by simp [hs]) (by simp [hs]) hcase hm
    exact absurd ⟨rfl, rfl⟩ hmoves
  | cons c b =>
    obtain rfl : c = byte '<' := (List.cons.inj h).1
    have hlit := @literal_space_of_append (str "<?xml") (versionText ++ body) _ _ h .DECL_VERSION r
    have hcase : simpleCase cfg r (byte '<' :: b) =
        if (str "<?xml").length < (byte '<' :: b).length then
          .ret true { r with state := .DECL_VERSION } ((byte '<' :: b).drop ((str "<?xml").length + 1))
        else .ret true r (byte '<' :: b) := by
      rw [simpleCase, hs]
      change ((((literal (0xef :: _) _ _ _ (byte '<' :: b)).or _).or _).or _).or _ = _
      rw [literal_false_head (by decide), ret_false_or, hlit]
      split <;> rfl
    split at hcase
    next hlt =>
      obtain ⟨rfl, rfl, _⟩ := next_of_simple (by simp [hs]) (by simp [hs]) (by simp [hs]) hcase hm
      exact ⟨body, @drop_of_append (str "<?xml ") _ _ _ h hlt⟩
    next =>
      obtain ⟨_, _, hmoves⟩ := next_of_simple (by simp [hs]) (by simp [hs]) (by simp [hs]) hcase hm
      exact absurd ⟨rfl, rfl⟩ hmoves

theorem declares_version (hs : r.state = .DECL_VERSION) (h : Declares r.state (buf ++ more))
    (hm : machine cfg r buf (.next r' buf')) : Declares r'.state (buf' ++ more) := by
  rw [hs] at h
  obtain ⟨body, h⟩ := h
  have hcase : simpleCase cfg r buf = literal (str "version") false .DECL_VERSION_EQ r buf := by
    rw [simpleCase, hs]
    change ((skipSpace false r buf).or _).or _ = _
    cases buf with
    | nil => rfl
    | cons c b =>
      obtain rfl : c = byte 'v' := (List.cons.inj h).1
      have hskip : skipSpace false r (byte 'v' :: b) = .ret false r (byte 'v' :: b) := rfl
      rw [hskip, ret_false_or, @literal_of_append (str "version") (versionText.drop 7 ++ body) _ _ h]
      split <;> rfl
  obtain ⟨hs', hrest⟩ := @next_literal cfg r r' buf buf' more (str "version") (versionText.drop 7 ++ body) _ (by simp [hs])
    (by simp [hs]) (by simp [hs]) h hcase hm
  rw [hs']
  exact ⟨body, hrest⟩

theorem declares_version_eq (hs : r.state = .DECL_VERSION_EQ) (h : Declares r.state (buf ++ more))
    (hm : machine cfg r buf (.next r' buf')) : Declares r'.state (buf' ++ more) := by
  rw [hs] at h
  obtain ⟨body, h⟩ := h
  obtain ⟨hs', hrest⟩ := @next_character cfg r r' buf buf' more (byte '=') (versionText.drop 8 ++ body)
    .DECL_VERSION_NUM (by simp [hs]) (by simp [hs]) (by simp [hs]) h
    (fun b hb => by
      rw [simpleCase, hs, hb]
      rfl)
    (by
      rw [simpleCase, hs]
      rfl) hm
  rw [hs']
  exact ⟨body, hrest⟩

theorem declares_version_num (hs : r.state = .DECL_VERSION_NUM) (h : Declares r.state (buf ++ more))
    (hm : machine cfg r buf (.next r' buf')) : Declares r'.state (buf' ++ more) := by
  rw [hs] at h
  obtain ⟨body, h⟩ := h
  by_cases hle : (str "\"1.0\"").length ≤ buf.length
  · have hbuf := @eq_of_append (str "\"1.0\"") (versionText.drop 13 ++ body) _ _ h hle
    have hcase : simpleCase cfg r buf = .ret true { r with state := .DECL_ENCODING } (buf.drop (str "\"1.0\"").length) := by
      rw [simpleCase, hs]
      dsimp only
      rw [hbuf]
      rfl
    obtain ⟨rfl, rfl, _⟩ := next_of_simple (by simp [hs]) (by simp [hs]) (by simp [hs]) hcase hm
    exact ⟨13, body, Or.inl rfl, @drop_of_append (str "\"1.0\"") _ _ _ h hle⟩
  · have hcase : simpleCase cfg r buf = .ret true r buf := by
      have hneeds : needChars buf 5 = false := decide_eq_false hle
      rw [simpleCase, hs]
      dsimp only
      rw [declVersionNum, hneeds]
      rfl
    obtain ⟨_, _, hmoves⟩ := next_of_simple (by simp [hs]) (by simp [hs]) (by simp [hs]) hcase hm
    exact absurd ⟨rfl, rfl⟩ hmoves

theorem declares_encoding (hs : r.state = .DECL_ENCODING) (h : Declares r.state (buf ++ more))
    (hm : machine cfg r buf (.next r' buf')) : Declares r'.state (buf' ++ more) := by
  rw [hs] at h
  obtain ⟨n, body, rfl | rfl, h⟩ := h
  · cases buf with
    | nil =>
      have hcase : simpleCase cfg r [] = .ret true r [] := by
        rw [simpleCase, hs]
        rfl
      obtain ⟨_, _, hmoves⟩ := next_of_simple (by simp [hs]) (by simp [hs]) (by simp [hs]) hcase hm
      exact absurd ⟨rfl, rfl⟩ hmoves
    | cons c b =>
      obtain ⟨rfl, hb⟩ : byte ' ' = c ∧ b ++ more = versionText.drop 14 ++ body :=
        ⟨(List.cons.inj h).1.symm, (List.cons.inj h).2⟩
      have hdrop : b.dropWhile isSpace = b := by
        cases b with
        | nil => rfl
        | cons d b =>
          obtain rfl : d = byte 'e' := (List.cons.inj hb).1
          rfl
      have hcase : simpleCase cfg r (byte ' ' :: b) = .ret true r b := by
        rw [simpleCase, hs]
        dsimp only
        rw [literal_at_space (by decide), ret_false_or, literal_at_space (by decide), ret_false_or,
          literal_at_space (by decide), ret_false_or, spaceOrError_eq, if_pos (by rfl),
          List.dropWhile_cons_of_pos rfl, hdrop]
      obtain ⟨rfl, rfl, _⟩ := next_of_simple (by simp [hs]) (by simp [hs]) (by simp [hs]) hcase hm
      rw [hs]
      exact ⟨14, body, Or.inr rfl, hb⟩
  · have hcase : simpleCase cfg r buf = literal (str "encoding") false .DECL_ENCODING_EQ r buf := by
      rw [simpleCase, hs]
      dsimp only
      rw [@literal_of_append (str "encoding") (versionText.drop 22 ++ body) _ _ h]
      split <;> rfl
    obtain ⟨hs', hrest⟩ := @next_literal cfg r r' buf buf' more (str "encoding") (versionText.drop 22 ++ body) _ (by simp [hs])
      (by simp [hs]) (by simp [hs]) h hcase hm
    rw [hs']
    exact ⟨body, hrest⟩

theorem declares_encoding_eq (hs : r.state = .DECL_ENCODING_EQ) (h : Declares r.state (buf ++ more))
    (hm : machine cfg r buf (.next r' buf')) : Declares r'.state (buf' ++ more) := by
  rw [hs] at h
  obtain ⟨body, h⟩ := h
  obtain ⟨hs', hrest⟩ := @next_character cfg r r' buf buf' more (byte '=') (versionText.drop 23 ++ body)
    .DECL_ENCODING_NAME (by simp [hs]) (by simp [hs]) (by simp [hs]) h
    (fun b hb => by
      rw [simpleCase, hs, hb]
      rfl)
    (by
      rw [simpleCase, hs]
      rfl) hm
  rw [hs']
  exact ⟨body, hrest⟩

theorem declares_encoding_name (hs : r.state = .DECL_ENCODING_NAME) (h : Declares r.state (buf ++ more))
    (hm : machine cfg r buf (.next r' buf')) : Declares r'.state (buf' ++ more) := by
  rw [hs] at h
  obtain ⟨body, h⟩ := h
  obtain ⟨hs', hrest⟩ := @next_character cfg r r' buf buf' more (byte '"') (versionText.drop 24 ++ body)
    .DECL_ENCODING_NAME_QUOT (by simp [hs]) (by simp [hs]) (by simp [hs]) h
    (fun b hb => by
      rw [simpleCase, hs, hb]
      rfl)
    (by
      rw [simpleCase, hs]
      rfl) hm
  rw [hs']
  exact ⟨str "utf-8", body, hrest, by decide, by decide⟩

theorem declares_encoding_name_quot (hs : r.state = .DECL_ENCODING_NAME_QUOT) (h : Declares r.state (buf ++ more))
    (hm : machine cfg r buf (.next r' buf')) : Declares r'.state (buf' ++ more) := by
  rw [hs] at h
  obtain ⟨w, body, h, hamp, hquot⟩ := h
  obtain ⟨fuel, x, hx, hstep⟩ := hm
  rw [round, if_neg (by simp [hs]), switch, if_pos (Or.inr hs)] at hx
  obtain ⟨y, hy, rfl⟩ := Option.map_eq_some_iff.mp hx
  obtain ⟨z, hz, rfl⟩ := Option.map_eq_some_iff.mp hy
  have hcontent : r.state ≠ .CONTENT := by simp [hs]
  obtain ⟨encoding, d, rfl⟩ | ⟨encoding, w', rfl, hmore, hamp', hquot'⟩ | ⟨_, _, _, rfl⟩ :=
    declEncodingValue_declared cfg (by rw [hs]; rfl) h hamp hquot hz
  · have hpast : (standalone { r with encoding := encoding, state := .DECL_STANDALONE } d).Within
        (fun s => past s = true) d :=
    standalone_within (P := fun s => past s = true) (r := { r with encoding := encoding, state := .DECL_STANDALONE })
      rfl rfl rfl d
    obtain ⟨b, heq⟩ := ret_of_step hcontent hstep
    rw [show standalone { r with encoding := encoding, state := .DECL_STANDALONE } d = _ from heq] at hpast
    exact declares_of_past hpast.1 _
  · obtain ⟨b, heq⟩ := ret_of_step hcontent hstep
    cases heq
    change Declares r.state more
    rw [hs]
    exact ⟨w', body, hmore, hamp', hquot'⟩
  · cases hstep

/-- A round leaves what is still to be read of the declaration. -/
theorem machine_declares (h : Declares r.state (buf ++ more)) (hm : machine cfg r buf (.next r' buf')) :
    Declares r'.state (buf' ++ more) := by
  cases hs : r.state with
  | START => exact declares_start hs h hm
  | DECL_VERSION => exact declares_version hs h hm
  | DECL_VERSION_EQ => exact declares_version_eq hs h hm
  | DECL_VERSION_NUM => exact declares_version_num hs h hm
  | DECL_ENCODING => exact declares_encoding hs h hm
  | DECL_ENCODING_EQ => exact declares_encoding_eq hs h hm
  | DECL_ENCODING_NAME => exact declares_encoding_name hs h hm
  | DECL_ENCODING_NAME_QUOT => exact declares_encoding_name_quot hs h hm
  | DECL_ENCODING_NAME_APOS =>
    rw [hs] at h
    exact h.elim
  | _ => exact declares_of_past ((machine_suffix hm).2 (by rw [hs]; rfl)) _

end Declaration

/-- The document has no numeric references, and begins with the declaration that the program writes. -/
theorem whole_of_declares (cfg : Config) {r : Reader} {buf : Bytes} {chunks : List Bytes}
    (hrefs : NoNumbers (buf ++ chunks.flatten)) (h : Declares r.state (buf ++ chunks.flatten)) :
    Whole (machine cfg) Reader.Cut r buf chunks := by
  induction chunks generalizing r buf with
  | nil => exact Whole.nil r buf
  | cons c chunks ih =>
    rw [List.flatten_cons, ← List.append_assoc] at hrefs h
    have hsteps (t : Reader) (d : Bytes) (hst : Steps (machine cfg) r (buf ++ c) t d) :
        NoNumbers (d ++ chunks.flatten) ∧ Declares t.state (d ++ chunks.flatten) := by
      clear ih
      generalize buf ++ c = b at hrefs h hst
      induction hst with
      | refl => exact ⟨hrefs, h⟩
      | next hm _ ih =>
        obtain ⟨p, hp⟩ := (machine_suffix hm).1
        exact ih (hrefs.suffix ⟨p, by rw [← hp, List.append_assoc]⟩) (machine_declares h hm)
    refine Whole.cons (fun t d hst hcut => ?_) fun t d hruns => ?_
    · obtain ⟨hrefs', hdecl⟩ := hsteps t d hst
      cases hcut with
      | stalled hstalled =>
        obtain ⟨hs | hs, hcomes⟩ := hstalled
        · rw [hs] at hdecl
          exact hdecl
        · rw [hs] at hdecl hcomes
          obtain ⟨w, body, heq, hamp, _⟩ := hdecl
          exact not_comes heq hamp hcomes
      | content _ hcut => exact hrefs'.not_cutRef hcut
      | value _ hcut =>
        obtain ⟨p, hp⟩ := List.dropWhile_suffix (l := d) fun c => !valueStops t.state c
        exact (hrefs'.suffix ⟨p, by rw [← List.append_assoc, hp]⟩).not_cutRef hcut
      | encoding hs hcut =>
        obtain hs | hs := hs
        · rw [hs] at hdecl
          exact hdecl
        · rw [hs] at hdecl hcut
          obtain ⟨w, body, heq, hamp, _⟩ := hdecl
          exact not_comes heq hamp hcut
    · obtain ⟨t', d', hst, ⟨_, heq⟩ | ⟨_, _, heq⟩⟩ := hruns.steps
      · obtain ⟨rfl, rfl⟩ := Incremental.Outcome.waiting.inj heq
        obtain ⟨hrefs', hdecl⟩ := hsteps t d hst
        exact ih hrefs' hdecl
      · cases heq

theorem readStream_mono_le (cfg : Config) {fuel fuel' : Nat} (hle : fuel ≤ fuel') {maxSize bytesRead : Nat} {r : Reader}
    {buf : Bytes} {chunks : List Bytes} {x : Reader × Option String}
    (h : readStream cfg fuel maxSize bytesRead r buf chunks = some x) :
    readStream cfg fuel' maxSize bytesRead r buf chunks = some x := by
  induction chunks generalizing r buf bytesRead with
  | nil => exact h
  | cons data chunks ih =>
    rw [readStream] at h ⊢
    split
    next hsize => rwa [if_pos hsize] at h
    next hsize =>
      rw [if_neg hsize] at h
      cases hp : process cfg fuel r (buf ++ data) with
      | none =>
        rw [hp] at h
        cases h
      | some y =>
        rw [hp] at h
        rw [process_mono_le cfg hle hp]
        cases y with
        | next _ _ => exact h
        | error _ _ _ => exact h
        | done more r' buf' =>
          cases more with
          | true => exact ih h
          | false => exact h

/-- A stream whose buffers are all taken, and that is not too long, is read to its end. -/
theorem readStream_of_feeds (cfg : Config) {maxSize bytesRead : Nat} {r t : Reader} {buf d : Bytes} {chunks : List Bytes}
    (h : Feeds (machine cfg) r buf chunks (.waiting t d))
    (hsize : maxSize = 0 ∨ bytesRead + chunks.flatten.length ≤ maxSize) :
    ∃ fuel, readStream cfg fuel maxSize bytesRead r buf chunks =
      some (t, if t.elements = [] then none else some "Unexpected end of stream") := by
  induction chunks generalizing r buf bytesRead with
  | nil =>
    cases h
    exact ⟨0, rfl⟩
  | cons c chunks ih =>
    rw [List.flatten_cons, List.length_append] at hsize
    cases h with
    | wait hr hrest =>
      have hsize' : maxSize = 0 ∨ bytesRead + c.length + chunks.flatten.length ≤ maxSize := by omega
      obtain ⟨fuel, hfuel⟩ := ih hrest hsize'
      obtain ⟨fuel', x, hx, hout⟩ := process_of_runs cfg hr
      refine ⟨max fuel fuel', ?_⟩
      rw [readStream, if_neg (by omega), process_mono_le cfg (Nat.le_max_right fuel fuel') hx]
      cases x with
      | next _ _ => cases hout
      | error _ _ _ => cases hout
      | done more _ _ =>
        cases more with
        | true =>
          cases hout
          exact readStream_mono_le cfg (Nat.le_max_left fuel fuel') hfuel
        | false => cases hout

/-- A document that begins with the declaration of the program and has no numeric references is read from any
buffers as it is read at once. -/
theorem readStream_of_steps (cfg : Config) {t : Reader} {chunks : List Bytes} (hrefs : NoNumbers chunks.flatten)
    (hdecl : Declares .START chunks.flatten) (hruns : Runs (machine cfg) start chunks.flatten (.waiting t []))
    {maxSize : Nat} (hsize : maxSize = 0 ∨ chunks.flatten.length ≤ maxSize) :
    ∃ fuel, readStream cfg fuel maxSize 0 start [] chunks =
      some (t, if t.elements = [] then none else some "Unexpected end of stream") := by
  have hwhole : Whole (machine cfg) Reader.Cut start [] chunks := whole_of_declares cfg hrefs hdecl
  obtain ⟨o, ho⟩ := feeds_of_whole cfg hwhole
  obtain ⟨w, hw, hobs⟩ := (machine_extends cfg).feeds ho start_nested hwhole fun _ => start_waits cfg
  obtain rfl := hw.det (machine_det cfg) hruns
  cases o with
  | stopped e => cases hobs
  | waiting r d =>
    obtain rfl : t = r := Except.ok.inj hobs
    exact readStream_of_feeds cfg ho (by rwa [Nat.zero_add])

end Dcpp.SimpleXMLReader
