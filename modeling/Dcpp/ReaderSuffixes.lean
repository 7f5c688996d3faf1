import Dcpp.ReaderEffects
import Dcpp.ReaderProgress

namespace Dcpp.SimpleXMLReader

open Incremental

/-- The states from which the reader never comes back to the name of the encoding. -/
def past : ParseState → Bool
  | .START | .DECL_VERSION | .DECL_VERSION_EQ | .DECL_VERSION_NUM | .DECL_ENCODING | .DECL_ENCODING_EQ
  | .DECL_ENCODING_NAME | .DECL_ENCODING_NAME_APOS | .DECL_ENCODING_NAME_QUOT => false
  | _ => true

/-- What is left is the end of the buffer, and `P` holds of the state. -/
def Result.Within (P : ParseState → Prop) (buf : Bytes) : Result → Prop
  | .ret _ r' buf' => P r'.state ∧ buf' <:+ buf
  | .error _ _ _ => True

section Parsers

variable {P : ParseState → Prop} {r : Reader} {buf : Bytes}

theorem Result.Within.mono {x : Result} {buf' : Bytes} (h : x.Within P buf') (hbuf : buf' <:+ buf) : x.Within P buf := by
  cases x with
  | ret _ _ _ => exact ⟨h.1, h.2.trans hbuf⟩
  | error _ _ _ => trivial

theorem Result.Within.or {x : Result} {f : Reader → Bytes → Result} (hx : x.Within P buf)
    (hf : ∀ r' buf', P r'.state → (f r' buf').Within P buf') : (x.or f).Within P buf := by
  cases x with
  | ret applies r' buf' =>
    cases applies with
    | false => exact (hf r' buf' hx.1).mono hx.2
    | true => exact hx
  | error _ _ _ => trivial

theorem error_within (message : String) (r : Reader) (buf : Bytes) : (error message r buf).Within P buf := trivial

variable (hr : P r.state)

include hr

theorem literal_within (lit : Bytes) (withSpace : Bool) {newState : ParseState} (hnew : P newState) (buf : Bytes) :
    (literal lit withSpace newState r buf).Within P buf := by
  rw [literal]
  split
  next =>
    split
    next =>
      split
      next =>
        split
        next => exact ⟨hr, List.suffix_rfl⟩
        next =>
          split
          next => exact ⟨hr, List.suffix_rfl⟩
          next => exact ⟨hnew, List.drop_suffix _ _⟩
      next => exact ⟨hnew, List.drop_suffix _ _⟩
    next => exact ⟨hr, List.suffix_rfl⟩
  next => exact ⟨hr, List.suffix_rfl⟩

/-- A parser that looks at one character. -/
theorem head_within {f : Bytes → Result} {p : UInt8 → Prop} [DecidablePred p] {next : UInt8 → Reader}
    (hnil : f [] = .ret true r [])
    (hcons : ∀ c rest, f (c :: rest) = if p c then .ret true (next c) rest else .ret false r (c :: rest))
    (hnext : ∀ c, P (next c).state) (buf : Bytes) : (f buf).Within P buf := by
  cases buf with
  | nil =>
    rw [hnil]
    exact ⟨hr, List.suffix_rfl⟩
  | cons c rest =>
    rw [hcons]
    split
    next => exact ⟨hnext c, List.suffix_cons c rest⟩
    next => exact ⟨hr, List.suffix_rfl⟩

theorem character_within (c : UInt8) {newState : ParseState} (hnew : P newState) (buf : Bytes) :
    (character c newState r buf).Within P buf :=
  head_within hr (f := character c newState r) rfl (fun _ _ => rfl) (fun _ => hnew) buf

theorem skipSpace_within (store : Bool) (buf : Bytes) : (skipSpace store r buf).Within P buf := by
  rw [skipSpace]
  split
  next h => exact ⟨hr, h ▸ List.suffix_rfl⟩
  next =>
    obtain ⟨_, _, heq, _⟩ | ⟨_, _, _, heq⟩ := skipLoop_spec store false r buf
    · rw [heq]
      exact ⟨hr, List.drop_suffix _ _⟩
    · rw [heq]
      trivial

theorem spaceOrError_within (message : String) (buf : Bytes) : (spaceOrError message r buf).Within P buf :=
  (skipSpace_within hr false buf).or fun _ _ _ => trivial

theorem element_within (hnew : P .ELEMENT_NAME) (buf : Bytes) : (element r buf).Within P buf := by
  match buf with
  | [] => exact ⟨hr, List.suffix_rfl⟩
  | [c] => exact ⟨hr, List.suffix_rfl⟩
  | c₀ :: c :: rest =>
    rw [element]
    split
    next =>
      split
      next => trivial
      next => exact ⟨hnew, (List.suffix_cons c rest).trans (List.suffix_cons c₀ _)⟩
    next => exact ⟨hr, List.suffix_rfl⟩

theorem elementName_within (hattr : P .ELEMENT_ATTR) (hsimple : P .ELEMENT_END_SIMPLE) (hcontent : P .CONTENT)
    (buf : Bytes) : (elementName r buf).Within P buf := by
  have hsuffix {c : UInt8} {rest : Bytes} (h : buf.dropWhile isNameChar = c :: rest) : rest <:+ buf :=
    (List.suffix_cons c rest).trans (h ▸ List.dropWhile_suffix _)
  rw [elementName]
  split
  next => trivial
  next =>
    split
    next =>
      split
      next => trivial
      next => exact ⟨hr, List.nil_suffix⟩
    next c rest hdrop =>
      split
      next =>
        split
        next => trivial
        next =>
          dsimp only
          split
          next => exact ⟨hattr, hsuffix hdrop⟩
          next =>
            split
            next => exact ⟨hsimple, hsuffix hdrop⟩
            next => exact ⟨hcontent, hsuffix hdrop⟩
      next => exact ⟨hr, List.suffix_rfl⟩

theorem elementAttrName_within (heq : P .ELEMENT_ATTR_EQ) (hvalue : P .ELEMENT_ATTR_VALUE) (buf : Bytes) :
    (elementAttrName r buf).Within P buf := by
  rw [elementAttrName]
  split
  next => trivial
  next =>
    split
    next =>
      split
      next => trivial
      next => exact ⟨hr, List.nil_suffix⟩
    next c rest hdrop =>
      split
      next =>
        split
        next => trivial
        next =>
          refine ⟨?_, (List.suffix_cons c rest).trans (hdrop ▸ List.dropWhile_suffix _)⟩
          dsimp only
          split
          next => exact heq
          next => exact hvalue
      next => exact ⟨hr, List.suffix_rfl⟩

omit hr in
theorem entref_suffix {d d' buf buf' : Bytes} (h : entref d buf = .yes d' buf') : buf' <:+ buf := by
  obtain ⟨_, _, rfl⟩ | ⟨_, _, _, _, _, rfl⟩ := entref_yes h
  · exact List.suffix_rfl
  · exact List.drop_suffix _ _

theorem elementAttrValue_within (cfg : Config) (hattr : P .ELEMENT_ATTR) (buf : Bytes) :
    (elementAttrValue cfg r buf).Within P buf := by
  rw [elementAttrValue]
  split
  next => trivial
  next =>
    dsimp only
    split
    next => trivial
    next =>
      split
      next => exact ⟨hr, List.nil_suffix⟩
      next c rest hdrop =>
        have hsuffix : c :: rest <:+ buf := hdrop ▸ List.dropWhile_suffix _
        split
        next =>
          split
          next => trivial
          next => exact ⟨hattr, (List.suffix_cons c rest).trans hsuffix⟩
        next =>
          split
          next => trivial
          next => exact ⟨hr, hsuffix⟩
          next hent => exact ⟨hr, (entref_suffix hent).trans hsuffix⟩

theorem versionDigits_within (sep : UInt8) (hnew : P .DECL_ENCODING) {whole buf : Bytes} (hbuf : buf <:+ whole) :
    (versionDigits sep r whole buf).Within P whole := by
  induction buf with
  | nil => exact ⟨hr, List.suffix_rfl⟩
  | cons c buf ih =>
    have htail : buf <:+ whole := (List.suffix_cons c buf).trans hbuf
    rw [versionDigits]
    split
    next => exact ⟨hnew, htail⟩
    next =>
      split
      next => exact ⟨hr, List.suffix_rfl⟩
      next => exact ih htail

theorem declVersionNum_within (hnew : P .DECL_ENCODING) (buf : Bytes) : (declVersionNum r buf).Within P buf := by
  rw [declVersionNum]
  split
  next => exact ⟨hr, List.suffix_rfl⟩
  next =>
    dsimp only
    split
    next =>
      split
      next => exact ⟨hr, List.suffix_rfl⟩
      next => exact versionDigits_within hr _ hnew (List.drop_suffix 4 buf)
    next => exact ⟨hr, List.suffix_rfl⟩

theorem comment_within (hnew : P .CONTENT) (buf : Bytes) : (comment r buf).Within P buf := by
  induction buf with
  | nil => exact ⟨hr, List.suffix_rfl⟩
  | cons c buf ih =>
    rw [comment.eq_def]
    dsimp only
    split
    next =>
      split
      next c₁ c₂ rest =>
        split
        next => exact ⟨hnew, List.suffix_append [c, c₁, c₂] rest⟩
        next => exact ih.mono (List.suffix_cons c _)
      next => exact ⟨hr, List.suffix_rfl⟩
    next => exact ih.mono (List.suffix_cons c buf)

theorem cdata_within (hnew : P .CONTENT) (buf : Bytes) : (cdata r buf).Within P buf := by
  induction buf generalizing r with
  | nil => exact ⟨hr, List.suffix_rfl⟩
  | cons c buf ih =>
    have hrec (value : Bytes) : (cdata { r with value := value } buf).Within P (c :: buf) :=
      (ih (r := { r with value := value }) hr).mono (List.suffix_cons c buf)
    rw [cdata.eq_def]
    dsimp only
    split
    next =>
      split
      next c₁ c₂ rest =>
        split
        next => exact ⟨hnew, List.suffix_append [c, c₁, c₂] rest⟩
        next =>
          split
          next => trivial
          next value _ => exact hrec value
      next => exact ⟨hr, List.suffix_rfl⟩
    next =>
      split
      next => trivial
      next value _ => exact hrec value

theorem content_within (buf : Bytes) : (content r buf).Within P buf := by
  cases buf with
  | nil => exact ⟨hr, List.suffix_rfl⟩
  | cons c rest =>
    rw [content]
    split
    next =>
      split
      next => trivial
      next => exact ⟨hr, List.suffix_rfl⟩
      next hent => exact ⟨hr, entref_suffix hent⟩
    next =>
      split
      next => trivial
      next => exact ⟨hr, List.suffix_cons c rest⟩

theorem elementEnd_within (hnew : P .ELEMENT_END_END) (buf : Bytes) : (elementEnd r buf).Within P buf := by
  rw [elementEnd]
  split
  next => exact ⟨hr, List.suffix_rfl⟩
  next =>
    split
    next => exact ⟨hr, List.suffix_rfl⟩
    next =>
      split
      next => exact ⟨hnew, List.drop_suffix _ _⟩
      next => exact ⟨hr, List.suffix_rfl⟩

theorem standalone_within (hnew : P .DECL_STANDALONE_EQ) (hcontent : P .CONTENT) (buf : Bytes) :
    (standalone r buf).Within P buf :=
  ((literal_within hr _ _ hnew buf).or fun _ _ h => literal_within h _ _ hcontent _).or
    fun _ _ h => spaceOrError_within h _ _

end Parsers

/-- The parsers leave the end of the buffer, and do not come back from a state that is past the encoding. -/
theorem simpleCase_within (cfg : Config) (r : Reader) (buf : Bytes) :
    (simpleCase cfg r buf).Within (fun s => past r.state = true → past s = true) buf := by
  have hr : past r.state = true → past r.state = true := id
  have hnew (s : ParseState) (h : past s = true) : past r.state = true → past s = true := fun _ => h
  have hold (h : past r.state = false) (s : ParseState) : past r.state = true → past s = true := fun h' => by
    rw [h] at h'
    cases h'
  rw [simpleCase]
  split
  next h =>
    have hold := hold (by rw [h]; rfl)
    exact ((((literal_within hr _ _ (hold _) buf).or fun _ _ h => literal_within h _ _ (hold _) _).or
      fun _ _ h => literal_within h _ _ (hold _) _).or fun _ _ h => element_within h (hold _) _).or
      fun _ _ h => spaceOrError_within h _ _
  next h =>
    have hold := hold (by rw [h]; rfl)
    exact ((skipSpace_within hr _ buf).or fun _ _ h => literal_within h _ _ (hold _) _).or
      fun _ _ h => spaceOrError_within h _ _
  next h =>
    have hold := hold (by rw [h]; rfl)
    exact (character_within hr _ (hold _) buf).or fun _ _ h => spaceOrError_within h _ _
  next h =>
    have hold := hold (by rw [h]; rfl)
    exact (declVersionNum_within hr (hold _) buf).or fun _ _ h => spaceOrError_within h _ _
  next h =>
    have hold := hold (by rw [h]; rfl)
    exact (((literal_within hr _ _ (hold _) buf).or fun _ _ h => literal_within h _ _ (hold _) _).or
      fun _ _ h => literal_within h _ _ (hold _) _).or fun _ _ h => spaceOrError_within h _ _
  next h =>
    have hold := hold (by rw [h]; rfl)
    exact (character_within hr _ (hold _) buf).or fun _ _ h => spaceOrError_within h _ _
  next h =>
    have hold := hold (by rw [h]; rfl)
    exact ((character_within hr _ (hold _) buf).or fun _ _ h => character_within h _ (hold _) _).or
      fun _ _ h => spaceOrError_within h _ _
  next => exact standalone_within hr (hnew _ rfl) (hnew _ rfl) buf
  next => exact (character_within hr _ (hnew _ rfl) buf).or fun _ _ h => spaceOrError_within h _ _
  next =>
    exact ((literal_within hr _ _ (hnew _ rfl) buf).or fun _ _ h => literal_within h _ _ (hnew _ rfl) _).or
      fun _ _ h => spaceOrError_within h _ _
  next => exact (literal_within hr _ _ (hnew _ rfl) buf).or fun _ _ h => spaceOrError_within h _ _
  next => exact (elementName_within hr (hnew _ rfl) (hnew _ rfl) (hnew _ rfl) buf).or fun _ _ _ => trivial
  next =>
    exact (head_within hr (f := elementEndSimple r) rfl (fun _ _ => rfl) (fun _ => hnew _ rfl) buf).or
      fun _ _ _ => trivial
  next => exact (elementEnd_within hr (hnew _ rfl) buf).or fun _ _ h => spaceOrError_within h _ _
  next =>
    exact (head_within hr (f := elementEndEnd r) rfl (fun _ _ => rfl) (fun _ => hnew _ rfl) buf).or
      fun _ _ h => spaceOrError_within h _ _
  next =>
    exact (((head_within hr (f := elementAttr r) rfl (fun _ _ => rfl) (fun _ => hnew _ rfl) buf).or
      fun r' _ h => head_within h (f := elementEndComplex r') rfl (fun _ _ => rfl) (fun _ => hnew _ rfl) _).or
      fun _ _ h => character_within h _ (hnew _ rfl) _).or fun _ _ h => spaceOrError_within h _ _
  next => exact (elementAttrName_within hr (hnew _ rfl) (hnew _ rfl) buf).or fun _ _ _ => trivial
  next => exact (character_within hr _ (hnew _ rfl) buf).or fun _ _ h => spaceOrError_within h _ _
  next =>
    exact ((character_within hr _ (hnew _ rfl) buf).or fun _ _ h => character_within h _ (hnew _ rfl) _).or
      fun _ _ h => spaceOrError_within h _ _
  next => exact (elementAttrValue_within hr cfg (hnew _ rfl) buf).or fun _ _ _ => trivial
  next => exact (elementAttrValue_within hr cfg (hnew _ rfl) buf).or fun _ _ _ => trivial
  next => exact (comment_within hr (hnew _ rfl) buf).or fun _ _ _ => trivial
  next => exact (cdata_within hr (hnew _ rfl) buf).or fun _ _ _ => trivial
  next =>
    exact ((((((skipSpace_within hr _ buf).or fun _ _ h => literal_within h _ _ (hnew _ rfl) _).or
      fun _ _ h => literal_within h _ _ (hnew _ rfl) _).or fun _ _ h => element_within h (hnew _ rfl) _).or
      fun _ _ h => literal_within h _ _ (hnew _ rfl) _).or fun _ _ h => content_within h _).or fun _ _ _ => trivial
  next => trivial
  next => trivial
  next => trivial

theorem declEncodingValue_suffix (cfg : Config) {fuel : Nat} {r : Reader} {buf : Bytes} {x : Result}
    (h : declEncodingValue cfg fuel r buf = some x) : x.Within (fun _ => True) buf := by
  induction fuel generalizing r buf with
  | zero => cases h
  | succ fuel ih =>
    cases buf with
    | nil =>
      obtain rfl := Option.some.inj h
      exact ⟨trivial, List.suffix_rfl⟩
    | cons c rest =>
      rw [declEncodingValue] at h
      split at h
      next =>
        obtain rfl := Option.some.inj h
        exact ⟨trivial, List.suffix_cons c rest⟩
      next =>
        split at h
        next =>
          split at h
          next =>
            obtain rfl := Option.some.inj h
            trivial
          next =>
            obtain rfl := Option.some.inj h
            exact ⟨trivial, List.suffix_rfl⟩
          next hent => exact (ih h).mono (entref_suffix hent)
        next =>
          split at h
          next =>
            obtain rfl := Option.some.inj h
            trivial
          next => exact (ih h).mono (List.suffix_cons c rest)

theorem switch_within (cfg : Config) {fuel : Nat} {r : Reader} {buf : Bytes} {x : Result}
    (h : switch cfg fuel r buf = some x) : x.Within (fun s => past r.state = true → past s = true) buf := by
  rw [switch] at h
  split at h
  next hstate =>
    have hold (s : ParseState) : past r.state = true → past s = true := by
      obtain hs | hs := hstate <;> rw [hs] <;> exact fun h => (by cases h)
    obtain ⟨y, hy, rfl⟩ := Option.map_eq_some_iff.mp h
    have hloop : y.Within (fun s => past r.state = true → past s = true) buf := by
      have hsuffix := declEncodingValue_suffix cfg hy
      cases y with
      | ret _ r' _ => exact ⟨hold _, hsuffix.2⟩
      | error _ _ _ => trivial
    have hvalue := hloop.or (f := spaceOrError "Expecting encoding value") fun _ _ h => spaceOrError_within h _ _
    cases hor : y.or (spaceOrError "Expecting encoding value") with
    | ret _ r' buf' =>
      rw [hor] at hvalue
      exact (standalone_within hvalue.1 (hold _) (hold _) buf').mono hvalue.2
    | error _ _ _ => trivial
  next =>
    obtain rfl := Option.some.inj h
    exact simpleCase_within cfg r buf

/-- A round that goes on leaves the end of the buffer. -/
theorem machine_suffix {cfg : Config} {r r' : Reader} {buf buf' : Bytes} (h : machine cfg r buf (.next r' buf')) :
    buf' <:+ buf ∧ (past r.state = true → past r'.state = true) := by
  obtain ⟨fuel, x, hx, hstep⟩ := h
  rw [round] at hx
  split at hx
  next =>
    obtain rfl := Option.some.inj hx
    cases hstep
  next =>
    obtain ⟨y, hy, rfl⟩ := Option.map_eq_some_iff.mp hx
    have hwithin := switch_within cfg hy
    cases y with
    | error _ _ _ => cases hstep
    | ret _ t d =>
      rw [roundEnd] at hstep
      split at hstep
      next => cases hstep
      next =>
        split at hstep
        next =>
          split at hstep
          next => cases hstep
          next =>
            cases hstep
            exact ⟨hwithin.2, hwithin.1⟩
        next =>
          cases hstep
          exact ⟨hwithin.2, hwithin.1⟩

end Dcpp.SimpleXMLReader
