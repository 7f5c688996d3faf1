import Dcpp.ReaderAbsorbs

namespace Dcpp.SimpleXMLReader

open Incremental

/-- No character of a reference is NUL, which is what follows the last byte. -/
theorem references_nul : ∀ ref ∈ references, ∀ p ∈ ref.1, p 0 = false := by
  have h : (references.all fun ref => ref.1.all fun p => !p 0) = true := by decide
  intro ref href p hp
  have := List.all_eq_true.mp (List.all_eq_true.mp h ref href) p hp
  simpa using this

theorem references_length : ∀ ref ∈ references, ref.1.length ≤ 7 := by
  have h : (references.all fun ref => decide (ref.1.length ≤ 7)) = true := by decide
  intro ref href
  exact of_decide_eq_true (List.all_eq_true.mp h ref href)

/-- Two patterns of which some position cannot be the same character. -/
def apart (ps qs : List (UInt8 → Bool)) : Bool :=
  (ps.zip qs).any fun (p, q) => (List.range 256).all fun n => !(p (UInt8.ofNat n) && q (UInt8.ofNat n))

theorem apart_not_both {ps qs : List (UInt8 → Bool)} (h : apart ps qs = true) (buf : Bytes)
    (hp : matchesRef ps buf = true) : matchesRef qs buf = false := by
  induction ps generalizing qs buf with
  | nil => cases h
  | cons p ps ih =>
    cases qs with
    | nil => cases h
    | cons q qs =>
      rw [matchesRef, Bool.and_eq_true] at hp
      rw [matchesRef]
      rw [apart, List.zip_cons_cons, List.any_cons, Bool.or_eq_true] at h
      obtain h | h := h
      · have hc := List.all_eq_true.mp h (buf.headD 0).toNat (List.mem_range.mpr (buf.headD 0).toNat_lt)
        rw [UInt8.ofNat_toNat, hp.1] at hc
        have hq : q (buf.headD 0) = false := by simpa using hc
        rw [hq]
        rfl
      · rw [ih h buf.tail hp.2, Bool.and_false]

/-- Two references begin differently. -/
theorem references_apart : references.Pairwise fun ref ref' => apart ref.1 ref'.1 = true := by
  decide +kernel

/-- More characters do not change a match. -/
theorem matchesRef_append {ps : List (UInt8 → Bool)} {buf : Bytes} (h : ps.length ≤ buf.length) (more : Bytes) :
    matchesRef ps (buf ++ more) = matchesRef ps buf := by
  induction ps generalizing buf with
  | nil => rfl
  | cons p ps ih =>
    cases buf with
    | nil => cases h
    | cons c buf =>
      rw [List.cons_append, matchesRef, matchesRef, List.tail_cons, List.tail_cons, ih (Nat.le_of_succ_le_succ h)]
      rfl

theorem length_le_of_matchesRef {ps : List (UInt8 → Bool)} {buf : Bytes} (hnul : ∀ p ∈ ps, p 0 = false)
    (h : matchesRef ps buf = true) : ps.length ≤ buf.length := by
  induction ps generalizing buf with
  | nil => exact Nat.zero_le _
  | cons p ps ih =>
    rw [matchesRef, Bool.and_eq_true] at h
    cases buf with
    | nil =>
      have hp : p 0 = true := h.1
      rw [hnul p List.mem_cons_self] at hp
      cases hp
    | cons c buf =>
      exact Nat.succ_le_succ (ih (fun q hq => hnul q (List.mem_cons_of_mem _ hq)) h.2)

/-- What is found stays found when more is true, as long as what is true excludes what follows. -/
theorem find?_mono {α : Type*} {p q : α → Bool} {l : List α} {b : α} (hpq : ∀ a ∈ l, p a = true → q a = true)
    (hl : l.Pairwise fun a a' => q a = true → q a' = false) (h : l.find? p = some b) : l.find? q = some b := by
  induction l with
  | nil => cases h
  | cons a l ih =>
    obtain ⟨hhead, htail⟩ := List.pairwise_cons.mp hl
    rw [List.find?_cons] at h ⊢
    cases hp : p a with
    | true =>
      rw [hp] at h
      rw [hpq a List.mem_cons_self hp]
      exact h
    | false =>
      rw [hp] at h
      have hb := List.mem_of_find?_eq_some h
      have hqb := hpq b (List.mem_cons_of_mem a hb) (List.find?_some h)
      have hqa : q a = false := eq_false_of_ne_true fun hqa => by
        rw [hhead b hb hqa] at hqb
        cases hqb
      rw [hqa]
      exact ih (fun a ha => hpq a (List.mem_cons_of_mem _ ha)) htail h

/-- The buffer ends one character before a reference does. -/
def CutRef (amp more : Bytes) : Prop :=
  amp.head? = some (byte '&') ∧ amp.length = 7 ∧
    ∃ ref ∈ references, ref.1.length = 7 ∧ matchesRef ref.1 (amp.tail ++ more) = true

theorem entref_append_overflow {d buf : Bytes} (h : entref d buf = .overflow) (buf' : Bytes) :
    entref d buf' = .overflow := by
  rw [entref] at h ⊢
  split at h
  next hd => rw [if_pos hd]
  next =>
    split at h
    · split at h <;> cases h
    · cases h

theorem tail_append {buf : Bytes} (h : 6 < buf.length) (more : Bytes) : (buf ++ more).tail = buf.tail ++ more := by
  cases buf with
  | nil => cases h
  | cons c buf => rfl

theorem length_lt_of_entref_yes {d buf d' buf' : Bytes} (h : entref d buf = .yes d' buf') :
    d.length + 1 < MAX_VALUE_SIZE := by
  by_cases hd : d.length + 1 ≥ MAX_VALUE_SIZE
  · rw [entref, if_pos hd] at h
    cases h
  · exact Nat.lt_of_not_le hd

theorem entref_append_yes {d buf d' buf' : Bytes} (hlen : 6 < buf.length) (h : entref d buf = .yes d' buf')
    (more : Bytes) : entref d (buf ++ more) = .yes d' (buf' ++ more) := by
  obtain ⟨hle, _⟩ | ⟨_, pattern, c, hfind, rfl, rfl⟩ := entref_yes h
  · omega
  have hmem := List.mem_of_find?_eq_some hfind
  have hmatch := List.find?_some hfind
  have hpattern := length_le_of_matchesRef (references_nul _ hmem) hmatch
  have hfind' : references.find? (fun ref => matchesRef ref.1 (buf.tail ++ more)) = some (pattern, c) := by
    refine find?_mono (fun ref href hm => ?_) (references_apart.imp fun hap => apart_not_both hap _) hfind
    rw [matchesRef_append (length_le_of_matchesRef (references_nul ref href) hm)]
    exact hm
  rw [entref, if_neg (Nat.not_le_of_lt (length_lt_of_entref_yes h)), if_pos (by rw [List.length_append]; omega), tail_append hlen, hfind']
  dsimp only
  rw [List.length_tail] at hpattern
  rw [List.drop_append_of_le_length (by dsimp only at hpattern; omega)]

theorem entref_append_no {d buf : Bytes} (hamp : buf.head? = some (byte '&')) (h : entref d buf = .no) {more : Bytes}
    (hcut : ¬CutRef buf more) : entref d (buf ++ more) = .no := by
  rw [entref] at h
  split at h
  next => cases h
  next hd =>
    split at h
    next hlen =>
      split at h
      next => cases h
      next hfind =>
        have hfind' : references.find? (fun ref => matchesRef ref.1 (buf.tail ++ more)) = none := by
          rw [List.find?_eq_none] at hfind ⊢
          intro ref href hm
          have hmax := references_length ref href
          have htail := List.length_tail (l := buf)
          by_cases hle : ref.1.length ≤ buf.tail.length
          · rw [matchesRef_append hle] at hm
            exact hfind ref href hm
          · exact hcut ⟨hamp, by omega, ref, href, by omega, hm⟩
        rw [entref, if_neg hd, if_pos (by rw [List.length_append]; omega), tail_append hlen, hfind']
    next => cases h

/-- What a parser did with a buffer it does with more of it, unless it waits. -/
def Result.Stable (x y : Result) (r : Reader) (buf more : Bytes) : Prop :=
  match x with
  | .ret false r' buf' => (r' = r ∧ buf' = buf) ∧ y = .ret false r (buf ++ more)
  | .ret true r' buf' => (r' = r ∧ buf' = buf) ∨ y = .ret true r' (buf' ++ more)
  | .error r' _ _ => ∃ r'' buf'' message, y = .error r'' buf'' message ∧ r''.calls = r'.calls

theorem Result.Stable.or {x y : Result} {f : Reader → Bytes → Result} {r : Reader} {buf more : Bytes}
    (h : x.Stable y r buf more) (hf : (f r buf).Stable (f r (buf ++ more)) r buf more) :
    (x.or f).Stable (y.or f) r buf more := by
  cases x with
  | error r' buf' message =>
    obtain ⟨r'', buf'', message', rfl, hcalls⟩ := h
    exact ⟨r'', buf'', message', rfl, hcalls⟩
  | ret b r' buf' =>
    cases b with
    | false =>
      obtain ⟨⟨rfl, rfl⟩, rfl⟩ := h
      exact hf
    | true =>
      obtain h | rfl := h
      · exact Or.inl h
      · exact Or.inr rfl

theorem stable_wait (y : Result) (r : Reader) (buf more : Bytes) : (Result.ret true r buf).Stable y r buf more :=
  Or.inl ⟨rfl, rfl⟩

theorem stable_false (r : Reader) (buf more : Bytes) :
    (Result.ret false r buf).Stable (.ret false r (buf ++ more)) r buf more := ⟨⟨rfl, rfl⟩, rfl⟩

theorem stable_error (message : String) (r : Reader) (buf more : Bytes) :
    (error message r buf).Stable (error message r (buf ++ more)) r buf more := ⟨_, _, _, rfl, rfl⟩

/-- A literal that does not begin a buffer does not begin it with more. -/
theorem zip_all_append (lit buf more : Bytes) :
    ((lit.zip (buf ++ more)).all fun p => p.1 = p.2) =
      (((lit.zip buf).all fun p => p.1 = p.2) && ((lit.drop buf.length).zip more).all fun p => p.1 = p.2) := by
  induction lit generalizing buf with
  | nil => simp
  | cons a lit ih =>
    cases buf with
    | nil => simp
    | cons c buf => simp [ih, Bool.and_assoc]

theorem charAt_append {buf : Bytes} {n : Nat} (h : n < buf.length) (more : Bytes) :
    charAt (buf ++ more) n = charAt buf n := by
  rw [charAt, charAt, List.getD_eq_getElem?_getD, List.getD_eq_getElem?_getD, List.getElem?_append_left h]

theorem literal_stable (lit : Bytes) (withSpace : Bool) (newState : ParseState) (r : Reader) (buf more : Bytes) :
    (literal lit withSpace newState r buf).Stable (literal lit withSpace newState r (buf ++ more)) r buf more := by
  rw [literal, literal, zip_all_append]
  by_cases hall : ((lit.zip buf).all fun p => p.1 = p.2) = true
  · rw [if_pos hall, hall, Bool.true_and]
    by_cases hle : lit.length ≤ buf.length
    · have hle' : lit.length ≤ (buf ++ more).length := by
        rw [List.length_append]
        omega
      rw [List.drop_eq_nil_of_le hle, List.zip_nil_left, List.all_nil, if_pos hle, if_pos rfl, if_pos hle']
      cases withSpace with
      | false => exact Or.inr (by rw [List.drop_append_of_le_length hle]; rfl)
      | true =>
        rw [if_pos rfl, if_pos rfl]
        by_cases heq : buf.length = lit.length
        · rw [if_pos heq]
          exact stable_wait _ _ _ _
        · have heq' : (buf ++ more).length ≠ lit.length := by
            rw [List.length_append]
            omega
          rw [if_neg heq, if_neg heq', charAt_append (by omega), List.drop_append_of_le_length (by omega)]
          split
          next => exact stable_false _ _ _
          next => exact Or.inr rfl
    · rw [if_neg hle]
      exact stable_wait _ _ _ _
  · rw [if_neg hall, eq_false_of_ne_true hall, Bool.false_and, if_neg (by decide)]
    exact stable_false _ _ _

/-- A parser that looks at one character does not need more than that. -/
theorem head_stable {f : Bytes → Result} {p : UInt8 → Prop} [DecidablePred p] {next : UInt8 → Reader} {r : Reader}
    (hnil : f [] = .ret true r [])
    (hcons : ∀ c rest, f (c :: rest) = if p c then .ret true (next c) rest else .ret false r (c :: rest))
    (buf more : Bytes) : (f buf).Stable (f (buf ++ more)) r buf more := by
  cases buf with
  | nil =>
    rw [hnil]
    exact stable_wait _ _ _ _
  | cons c rest =>
    rw [List.cons_append, hcons, hcons]
    split
    next => exact Or.inr rfl
    next => exact stable_false _ _ _

theorem character_stable (c : UInt8) (newState : ParseState) (r : Reader) (buf more : Bytes) :
    (character c newState r buf).Stable (character c newState r (buf ++ more)) r buf more :=
  head_stable (f := character c newState r) rfl (fun _ _ => rfl) buf more

theorem element_stable (r : Reader) (buf more : Bytes) :
    (element r buf).Stable (element r (buf ++ more)) r buf more := by
  match buf with
  | [] => exact stable_wait _ _ _ _
  | [c] => exact stable_wait _ _ _ _
  | c₀ :: c :: rest =>
    rw [List.cons_append, List.cons_append, element, element]
    split
    next =>
      split
      next => exact ⟨_, _, _, rfl, rfl⟩
      next => exact Or.inr rfl
    next => exact stable_false _ _ _

theorem elementAttr_stable (r : Reader) (buf more : Bytes) :
    (elementAttr r buf).Stable (elementAttr r (buf ++ more)) r buf more :=
  head_stable (f := elementAttr r) rfl (fun _ _ => rfl) buf more

theorem elementEndSimple_stable (r : Reader) (buf more : Bytes) :
    (elementEndSimple r buf).Stable (elementEndSimple r (buf ++ more)) r buf more :=
  head_stable (f := elementEndSimple r) rfl (fun _ _ => rfl) buf more

theorem elementEndComplex_stable (r : Reader) (buf more : Bytes) :
    (elementEndComplex r buf).Stable (elementEndComplex r (buf ++ more)) r buf more :=
  head_stable (f := elementEndComplex r) rfl (fun _ _ => rfl) buf more

theorem elementEndEnd_stable (r : Reader) (buf more : Bytes) :
    (elementEndEnd r buf).Stable (elementEndEnd r (buf ++ more)) r buf more :=
  head_stable (f := elementEndEnd r) rfl (fun _ _ => rfl) buf more

theorem elementEnd_stable (r : Reader) (buf more : Bytes) :
    (elementEnd r buf).Stable (elementEnd r (buf ++ more)) r buf more := by
  rw [elementEnd, elementEnd]
  split
  next => exact stable_false _ _ _
  next top elements _ =>
    by_cases hlen : top.length ≤ buf.length
    · have hlen' : top.length ≤ (buf ++ more).length := by
        rw [List.length_append]
        omega
      have hneed : needChars buf top.length = true := decide_eq_true hlen
      have hneed' : needChars (buf ++ more) top.length = true := decide_eq_true hlen'
      have hno : ¬(!true) = true := by decide
      rw [hneed, hneed', if_neg hno, if_neg hno, List.take_append_of_le_length hlen, List.drop_append_of_le_length hlen]
      split
      next => exact Or.inr rfl
      next => exact stable_false _ _ _
    · rw [if_pos (by simpa [needChars] using hlen)]
      exact stable_wait _ _ _ _

theorem versionDigits_stable (sep : UInt8) (r : Reader) (whole buf more : Bytes) :
    (versionDigits sep r whole buf).Stable (versionDigits sep r (whole ++ more) (buf ++ more)) r whole more := by
  induction buf with
  | nil => exact stable_wait _ _ _ _
  | cons c buf ih =>
    rw [List.cons_append, versionDigits, versionDigits]
    split
    next => exact Or.inr rfl
    next =>
      split
      next => exact stable_false _ _ _
      next => exact ih

theorem declVersionNum_stable (r : Reader) (buf more : Bytes) :
    (declVersionNum r buf).Stable (declVersionNum r (buf ++ more)) r buf more := by
  have hno : ¬(!true) = true := by decide
  by_cases hlen : 5 ≤ buf.length
  · have hneed : needChars buf 5 = true := decide_eq_true hlen
    have hneed' : needChars (buf ++ more) 5 = true := decide_eq_true (by rw [List.length_append]; omega)
    rw [declVersionNum, declVersionNum, hneed, hneed', if_neg hno, if_neg hno]
    dsimp only
    rw [charAt_append (by omega), charAt_append (by omega), charAt_append (by omega), charAt_append (by omega),
      List.drop_append_of_le_length (by omega)]
    split
    next =>
      split
      next => exact stable_false _ _ _
      next => exact versionDigits_stable _ r buf (buf.drop 4) more
    next => exact stable_false _ _ _
  · have hneed : needChars buf 5 = false := decide_eq_false hlen
    rw [declVersionNum, hneed, if_pos (by decide)]
    exact stable_wait _ _ _ _

/-- Content, unless its first reference is cut off. -/
theorem content_stable (r : Reader) {buf more : Bytes} (hcut : ¬CutRef buf more) :
    (content r buf).Stable (content r (buf ++ more)) r buf more := by
  cases buf with
  | nil => exact stable_wait _ _ _ _
  | cons c rest =>
    rw [List.cons_append, content, content]
    by_cases hamp : c = byte '&'
    · subst hamp
      rw [if_pos rfl, if_pos rfl]
      cases hent : entref r.value (byte '&' :: rest) with
      | overflow =>
        rw [← List.cons_append, entref_append_overflow hent]
        exact ⟨_, _, _, rfl, rfl⟩
      | no =>
        rw [← List.cons_append, entref_append_no rfl hent hcut]
        exact stable_false _ _ _
      | yes d buf' =>
        by_cases hlen : 6 < (byte '&' :: rest).length
        · rw [← List.cons_append, entref_append_yes hlen hent]
          exact Or.inr rfl
        · obtain ⟨_, rfl, rfl⟩ | ⟨hlt, _⟩ := entref_yes hent
          · exact stable_wait _ _ _ _
          · exact absurd hlt hlen
    · rw [if_neg hamp, if_neg hamp]
      cases append r.value MAX_VALUE_SIZE [c] with
      | none => exact ⟨_, _, _, rfl, rfl⟩
      | some value => exact Or.inr rfl

end Dcpp.SimpleXMLReader
