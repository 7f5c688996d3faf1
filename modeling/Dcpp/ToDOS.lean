import Dcpp.Bytes
import Dcpp.Library.Edit

-- The line ends of DOS.
namespace Dcpp.Text

open Edit

/-- The loop of `toDOS`, from `i`. -/
def toDOSLoop (tmp : Bytes) (i : Nat) : Bytes :=
  if i < tmp.length - 1 then
    if tmp.getD i 0 = byte '\r' ∧ tmp.getD (i + 1) 0 ≠ byte '\n' then
      -- Mac ending
      toDOSLoop (replace tmp (i + 1) 0 (str "\n")) (i + 2)
    else if tmp.getD i 0 = byte '\n' ∧ tmp.getD (i - 1) 0 ≠ byte '\r' then
      -- Unix encoding
      toDOSLoop (replace tmp i 0 (str "\r")) (i + 2)
    else toDOSLoop tmp (i + 1)
  else tmp
termination_by tmp.length - i
decreasing_by
  · simp [replace, str]
    omega
  · simp [replace, str]
    omega
  · omega

def toDOS (tmp : Bytes) : Bytes :=
  if tmp = [] then []
  else if tmp.getD 0 0 = byte '\r' ∧ (tmp.length = 1 ∨ tmp.getD 1 0 ≠ byte '\n') then
    toDOSLoop (replace tmp 1 0 (str "\n")) 1
  else toDOSLoop tmp 1

/-- What the loop makes of the rest of a string behind the character `p`. The last character stays as it is. -/
def dosRest (p : UInt8) : Bytes → Bytes
  | [] => []
  | [c] => [c]
  | c :: d :: s =>
    if c = byte '\r' ∧ d ≠ byte '\n' ∨ c = byte '\n' ∧ p ≠ byte '\r' then
      byte '\r' :: byte '\n' :: dosRest (byte '\n') (d :: s)
    else c :: dosRest c (d :: s)

theorem toDOSLoop_eq (u : Bytes) (p : UInt8) (s : Bytes) :
    toDOSLoop (u ++ p :: s) (u.length + 1) = u ++ p :: dosRest p s := by
  induction s generalizing u p with
  | nil => rw [toDOSLoop, if_neg (by simp), dosRest]
  | cons c s ih =>
    cases s with
    | nil => rw [toDOSLoop, if_neg (by simp), dosRest]
    | cons d s =>
      have hc : (u ++ p :: c :: d :: s).getD (u.length + 1) 0 = c := by simp
      have hd : (u ++ p :: c :: d :: s).getD (u.length + 1 + 1) 0 = d := by simp [Nat.add_assoc]
      have hp : (u ++ p :: c :: d :: s).getD (u.length + 1 - 1) 0 = p := by simp
      -- behind the two characters of a line end
      have hnext : toDOSLoop (u ++ p :: byte '\r' :: byte '\n' :: d :: s) (u.length + 1 + 2) =
          u ++ p :: byte '\r' :: byte '\n' :: dosRest (byte '\n') (d :: s) := by
        have h := ih (u ++ [p, byte '\r']) (byte '\n')
        simpa [Nat.add_assoc] using h
      rw [toDOSLoop, if_pos (by simp), hc, hd, hp, dosRest]
      by_cases hmac : c = byte '\r' ∧ d ≠ byte '\n'
      · have hinsert : replace (u ++ p :: c :: d :: s) (u.length + 1 + 1) 0 (str "\n") =
            u ++ p :: byte '\r' :: byte '\n' :: d :: s := by
          have h := replace_append (u ++ [p, c]) [] (d :: s) 0 (str "\n") (Nat.zero_le _)
          simpa [Nat.add_assoc, hmac.1, str] using h
        rw [if_pos hmac, if_pos (Or.inl hmac), hinsert, hnext]
      · rw [if_neg hmac]
        by_cases hunix : c = byte '\n' ∧ p ≠ byte '\r'
        · have hinsert : replace (u ++ p :: c :: d :: s) (u.length + 1) 0 (str "\r") =
              u ++ p :: byte '\r' :: byte '\n' :: d :: s := by
            have h := replace_append (u ++ [p]) [] (c :: d :: s) 0 (str "\r") (Nat.zero_le _)
            simpa [hunix.1, str] using h
          rw [if_pos hunix, if_pos (Or.inr hunix), hinsert, hnext]
        · rw [if_neg hunix, if_neg (not_or.mpr ⟨hmac, hunix⟩)]
          have h := ih (u ++ [p]) c
          simpa using h

/-- The text of a string, without its line ends. -/
def textOf (s : Bytes) : Bytes := s.filter fun c => c ≠ byte '\r' ∧ c ≠ byte '\n'

/-- The line ends of a string: CR LF, a lone CR and a lone LF count as one each. -/
def lineEnds : Bytes → Nat
  | [] => 0
  | [c] => if c = byte '\r' ∨ c = byte '\n' then 1 else 0
  | c :: d :: s =>
    if c = byte '\r' ∧ d = byte '\n' then lineEnds s + 1
    else if c = byte '\r' ∨ c = byte '\n' then lineEnds (d :: s) + 1
    else lineEnds (d :: s)

/-- Every CR that is not at the end stands in front of an LF, and every LF that is neither first nor last behind a CR. -/
structure InnerPaired (s : Bytes) : Prop where
  cr : ∀ i, i + 1 < s.length → s[i]? = some (byte '\r') → s[i + 1]? = some (byte '\n')
  lf : ∀ i, i + 2 < s.length → s[i + 1]? = some (byte '\n') → s[i]? = some (byte '\r')

/-- Every CR stands in front of an LF, and every LF behind a CR. -/
structure Paired (s : Bytes) : Prop where
  cr : ∀ i, s[i]? = some (byte '\r') → s[i + 1]? = some (byte '\n')
  lf : ∀ i, s[i]? = some (byte '\n') → 0 < i ∧ s[i - 1]? = some (byte '\r')

/-- The first character is no LF, and the last one no CR and no lone LF, but for the string of one CR. -/
def EndsPaired (s : Bytes) : Prop :=
  s = [byte '\r'] ∨ s.head? ≠ some (byte '\n') ∧ s.getLast? ≠ some (byte '\r') ∧
    (s.getLast? = some (byte '\n') → str "\r\n" <:+ s)

theorem cr_ne_lf : byte '\r' ≠ byte '\n' := by decide

theorem dosRest_lf (s : Bytes) : dosRest (byte '\r') (byte '\n' :: s) = byte '\n' :: dosRest (byte '\n') s := by
  cases s with
  | nil => rfl
  | cons d s => rw [dosRest, if_neg (by simp [cr_ne_lf.symm])]

theorem toDOS_eq (s : Bytes) : toDOS s = if s = [byte '\r'] then str "\r\n" else dosRest (byte '\r') s := by
  cases s with
  | nil => rfl
  | cons c s =>
    rw [toDOS, if_neg (List.cons_ne_nil c s)]
    cases s with
    | nil =>
      by_cases hc : c = byte '\r'
      · subst hc
        rw [if_pos (by simp), if_pos rfl, toDOSLoop, if_neg (by decide)]
        rfl
      · rw [if_neg (by simp [hc]), if_neg (by simp [hc]), toDOSLoop, if_neg (by simp), dosRest]
    | cons d s =>
      rw [if_neg (c := c :: d :: s = [byte '\r']) (by simp), dosRest]
      by_cases hmac : c = byte '\r' ∧ d ≠ byte '\n'
      · have h := toDOSLoop_eq [] (byte '\r') (byte '\n' :: d :: s)
        rw [dosRest_lf] at h
        rw [if_pos (by simpa using hmac), if_pos (Or.inl hmac), hmac.1]
        exact h
      · rw [if_neg (by simpa using hmac), if_neg (by simpa using hmac)]
        exact toDOSLoop_eq [] c (d :: s)

/-- Behind the character `p`, a string that the loop leaves as it is. -/
def Converted (p : UInt8) : Bytes → Prop
  | c :: d :: s => ¬(c = byte '\r' ∧ d ≠ byte '\n' ∨ c = byte '\n' ∧ p ≠ byte '\r') ∧ Converted c (d :: s)
  | _ => True

section Rest

variable {p : UInt8} {s : Bytes}

/-- The first character of what is made of a string with more than one. -/
theorem converted_cons {c d : UInt8} (hc : ¬(c = byte '\r' ∧ d ≠ byte '\n' ∨ c = byte '\n' ∧ p ≠ byte '\r'))
    (h : Converted c (dosRest c (d :: s))) : Converted p (c :: dosRest c (d :: s)) := by
  have hhead : c = byte '\r' → ∃ t, dosRest c (d :: s) = d :: t := by
    intro hcr
    have hd : d = byte '\n' := by simpa [hcr, cr_ne_lf] using hc
    subst hcr hd
    exact ⟨dosRest (byte '\n') s, dosRest_lf s⟩
  cases hr : dosRest c (d :: s) with
  | nil => trivial
  | cons e t =>
    rw [hr] at h
    refine ⟨fun hno => ?_, h⟩
    obtain ⟨hcr, he⟩ | ⟨hlf, hp⟩ := hno
    · obtain ⟨t', ht'⟩ := hhead hcr
      rw [hr] at ht'
      obtain ⟨rfl, -⟩ := List.cons.inj ht'
      exact hc (Or.inl ⟨hcr, he⟩)
    · exact hc (Or.inr ⟨hlf, hp⟩)

theorem dosRest_converted (p : UInt8) (s : Bytes) : Converted p (dosRest p s) := by
  fun_induction dosRest p s with
  | case1 => trivial
  | case2 p c => trivial
  | case3 p c d s hends ih =>
    refine ⟨by simp [cr_ne_lf], ?_⟩
    cases hr : dosRest (byte '\n') (d :: s) with
    | nil => trivial
    | cons e t =>
      rw [hr] at ih
      exact ⟨by simp [cr_ne_lf.symm], ih⟩
  | case4 p c d s hends ih => exact converted_cons hends ih

theorem dosRest_of_converted (h : Converted p s) : dosRest p s = s := by
  fun_induction dosRest p s with
  | case1 => rfl
  | case2 p c => rfl
  | case3 p c d s hends ih => exact absurd hends h.1
  | case4 p c d s hends ih => rw [ih h.2]

theorem Converted.cr (h : Converted p s) {i : Nat} (hi : i + 1 < s.length) (hs : s[i]? = some (byte '\r')) :
    s[i + 1]? = some (byte '\n') := by
  induction s generalizing p i with
  | nil => cases hi
  | cons c s ih =>
    cases s with
    | nil => exact absurd hi (by simp)
    | cons d s =>
      cases i with
      | zero =>
        obtain rfl := Option.some_inj.mp hs
        by_contra hd
        exact h.1 (Or.inl ⟨rfl, fun hlf => hd (congrArg some hlf)⟩)
      | succ i => exact ih h.2 (Nat.lt_of_succ_lt_succ hi) hs

theorem Converted.lf (h : Converted p s) {i : Nat} (hi : i + 1 < s.length) (hs : s[i]? = some (byte '\n')) :
    (p :: s)[i]? = some (byte '\r') := by
  induction s generalizing p i with
  | nil => cases hi
  | cons c s ih =>
    cases s with
    | nil => exact absurd hi (by simp)
    | cons d s =>
      cases i with
      | zero =>
        obtain rfl := Option.some_inj.mp hs
        by_contra hp
        exact h.1 (Or.inr ⟨rfl, fun hcr => hp (congrArg some hcr)⟩)
      | succ i => exact ih h.2 (Nat.lt_of_succ_lt_succ hi) hs

theorem textOf_cons (c : UInt8) (s : Bytes) :
    textOf (c :: s) = if c = byte '\r' ∨ c = byte '\n' then textOf s else c :: textOf s := by
  by_cases hcr : c = byte '\r'
  · simp [textOf, hcr]
  · by_cases hlf : c = byte '\n' <;> simp [textOf, hcr, hlf]

theorem textOf_dosRest (p : UInt8) (s : Bytes) : textOf (dosRest p s) = textOf s := by
  fun_induction dosRest p s with
  | case1 => rfl
  | case2 p c => rfl
  | case3 p c d s hends ih =>
    have hc : c = byte '\r' ∨ c = byte '\n' := hends.imp And.left And.left
    rw [textOf_cons, textOf_cons, textOf_cons c, if_pos (Or.inl rfl), if_pos (Or.inr rfl), if_pos hc, ih]
  | case4 p c d s hends ih => rw [textOf_cons, textOf_cons, ih]

/-- A line end of two characters. -/
theorem lineEnds_crlf (s : Bytes) : lineEnds (byte '\r' :: byte '\n' :: s) = lineEnds s + 1 := by
  rw [lineEnds, if_pos ⟨rfl, rfl⟩]

/-- Another character than the CR of a line end of two. -/
theorem lineEnds_cons {c : UInt8} {s : Bytes} (h : c = byte '\r' → s.head? ≠ some (byte '\n')) :
    lineEnds (c :: s) = lineEnds s + if c = byte '\r' ∨ c = byte '\n' then 1 else 0 := by
  cases s with
  | nil => simp [lineEnds]
  | cons d s =>
    have hpair : ¬(c = byte '\r' ∧ d = byte '\n') := fun ⟨hc, hd⟩ => h hc (congrArg some hd)
    rw [lineEnds, if_neg hpair]
    split <;> rfl

theorem lineEnds_dosRest (p : UInt8) (s : Bytes) : lineEnds (dosRest p s) = lineEnds s := by
  fun_induction lineEnds s generalizing p with
  | case1 => rfl
  | case2 c hc => simp [dosRest, lineEnds, hc]
  | case3 c hc => simp [dosRest, lineEnds, hc]
  | case4 c d s hpair ih =>
    obtain ⟨rfl, rfl⟩ := hpair
    rw [dosRest, if_neg (by simp [cr_ne_lf]), dosRest_lf, lineEnds_crlf, ih]
  | case5 c d s hpair hc ih =>
    rw [dosRest]
    split
    next => rw [lineEnds_crlf, ih]
    next hends =>
      have hlf : c = byte '\n' := hc.resolve_left fun hcr => hends (Or.inl ⟨hcr, fun hd => hpair ⟨hcr, hd⟩⟩)
      have hcr : c ≠ byte '\r' := fun h => cr_ne_lf (h.symm.trans hlf)
      rw [lineEnds_cons fun h => absurd h hcr, if_pos hc, ih]
  | case6 c d s hpair hc ih =>
    have hends : ¬(c = byte '\r' ∧ d ≠ byte '\n' ∨ c = byte '\n' ∧ p ≠ byte '\r') :=
      fun h => hc (h.imp And.left And.left)
    rw [dosRest, if_neg hends, lineEnds_cons fun h => absurd (Or.inl h) hc, if_neg hc, ih, Nat.add_zero]

/-- Without a lone CR only CRs are inserted. -/
theorem filter_dosRest (p : UInt8) {s : Bytes} (hs : ∀ i, s[i]? = some (byte '\r') → s[i + 1]? = some (byte '\n')) :
    (dosRest p s).filter (· ≠ byte '\r') = s.filter (· ≠ byte '\r') := by
  fun_induction dosRest p s with
  | case1 => rfl
  | case2 p c => rfl
  | case3 p c d s hends ih =>
    have hlf : c = byte '\n' := by
      refine hends.elim (fun h => ?_) And.left
      have hd := hs 0 (congrArg some h.1)
      exact absurd (Option.some_inj.mp hd) h.2
    have ih := ih fun i hi => hs (i + 1) hi
    subst hlf
    simpa [cr_ne_lf.symm] using ih
  | case4 p c d s hends ih =>
    have ih := ih fun i hi => hs (i + 1) hi
    rw [List.filter_cons, List.filter_cons, ih]

theorem dosRest_ne_nil (hs : s ≠ []) : dosRest p s ≠ [] := by
  fun_cases dosRest p s with
  | case1 => exact absurd rfl hs
  | case2 c => exact List.cons_ne_nil _ _
  | case3 c d s h => exact List.cons_ne_nil _ _
  | case4 c d s h => exact List.cons_ne_nil _ _

/-- The last character stays the last one. -/
theorem getLast?_dosRest (p : UInt8) (s : Bytes) : (dosRest p s).getLast? = s.getLast? := by
  fun_induction dosRest p s with
  | case1 => rfl
  | case2 p c => rfl
  | case3 p c d s hends ih =>
    obtain ⟨e, t, hr⟩ := List.exists_cons_of_ne_nil (dosRest_ne_nil (p := byte '\n') (List.cons_ne_nil d s))
    rw [hr] at ih ⊢
    simpa using ih
  | case4 p c d s hends ih =>
    obtain ⟨e, t, hr⟩ := List.exists_cons_of_ne_nil (dosRest_ne_nil (p := c) (List.cons_ne_nil d s))
    rw [hr] at ih ⊢
    simpa using ih

/-- A line end at the end is kept. -/
theorem crlf_suffix_dosRest (p : UInt8) (u : Bytes) : str "\r\n" <:+ dosRest p (u ++ str "\r\n") := by
  induction u generalizing p with
  | nil =>
    rw [List.nil_append]
    exact ⟨[], by simp [dosRest, str, cr_ne_lf]⟩
  | cons c u ih =>
    obtain ⟨d, t, hd⟩ := List.exists_cons_of_ne_nil (l := u ++ str "\r\n") (by simp [str])
    rw [List.cons_append, hd, dosRest, ← hd]
    split
    next => exact (ih (byte '\n')).trans ⟨[byte '\r', byte '\n'], rfl⟩
    next => exact (ih c).trans (List.suffix_cons c _)

theorem head?_dosRest (h : s.head? ≠ some (byte '\n')) : (dosRest p s).head? ≠ some (byte '\n') := by
  fun_cases dosRest p s with
  | case1 => exact h
  | case2 c => exact h
  | case3 c d s hends => simp [cr_ne_lf]
  | case4 c d s hends => exact h

end Rest

theorem paired_crlf : Paired (str "\r\n") := by
  constructor
  · intro i hi
    match i with
    | 0 => rfl
    | 1 => exact absurd (Option.some_inj.mp hi) cr_ne_lf.symm
  · intro i hi
    match i with
    | 0 => exact absurd (Option.some_inj.mp hi) cr_ne_lf
    | 1 => exact ⟨Nat.one_pos, rfl⟩

theorem Paired.inner {s : Bytes} (h : Paired s) : InnerPaired s :=
  ⟨fun i _ hi => h.cr i hi, fun i _ hi => (h.lf (i + 1) hi).2⟩

theorem toDOS_innerPaired (s : Bytes) : InnerPaired (toDOS s) := by
  rw [toDOS_eq]
  split
  next => exact paired_crlf.inner
  next =>
    have h := dosRest_converted (byte '\r') s
    refine ⟨fun i hi => h.cr hi, fun i hi hlf => ?_⟩
    have hcr := h.lf hi hlf
    rwa [List.getElem?_cons_succ] at hcr

theorem toDOS_paired {s : Bytes} (h : EndsPaired s) : Paired (toDOS s) := by
  obtain rfl | ⟨hfirst, hlast, hpair⟩ := h
  · rw [toDOS_eq, if_pos rfl]
    exact paired_crlf
  · have hs : s ≠ [byte '\r'] := fun hs => hlast (by rw [hs]; rfl)
    obtain ⟨hcr, hlf⟩ := toDOS_innerPaired s
    rw [toDOS_eq, if_neg hs] at hcr hlf ⊢
    have hlast' := getLast?_dosRest (byte '\r') s
    constructor
    · intro i hi
      have hlt := (List.getElem?_eq_some_iff.mp hi).1
      refine hcr i ?_ hi
      by_contra hend
      rw [List.getLast?_eq_getElem?, show (dosRest (byte '\r') s).length - 1 = i by omega, hi] at hlast'
      exact hlast hlast'.symm
    · intro i hi
      have hlt := (List.getElem?_eq_some_iff.mp hi).1
      cases i with
      | zero => exact absurd (by rw [List.head?_eq_getElem?, hi]) (head?_dosRest hfirst)
      | succ i =>
        refine ⟨Nat.succ_pos i, ?_⟩
        by_cases hend : i + 2 < (dosRest (byte '\r') s).length
        · exact hlf i hend hi
        · rw [List.getLast?_eq_getElem?, show (dosRest (byte '\r') s).length - 1 = i + 1 by omega, hi] at hlast'
          obtain ⟨u, rfl⟩ := hpair hlast'.symm
          obtain ⟨v, hv⟩ := crlf_suffix_dosRest (byte '\r') u
          rw [← hv, List.length_append] at hend hlt
          have hv' : v.length = i := by
            simp only [str] at hend hlt
            simp at hend hlt
            omega
          rw [← hv, Nat.add_sub_cancel, ← hv']
          simp [str]

theorem toDOS_toDOS (s : Bytes) : toDOS (toDOS s) = toDOS s := by
  rw [toDOS_eq s]
  split
  next =>
    rw [toDOS_eq]
    decide
  next hs =>
    have hne : dosRest (byte '\r') s ≠ [byte '\r'] := by
      fun_cases dosRest (byte '\r') s with
      | case1 => exact (List.cons_ne_nil _ _).symm
      | case2 c => exact hs
      | case3 c d s => simp
      | case4 c d s =>
        rw [ne_eq, List.cons.injEq, not_and]
        exact fun _ => dosRest_ne_nil (List.cons_ne_nil d s)
    rw [toDOS_eq, if_neg hne, dosRest_of_converted (dosRest_converted _ s)]

/-- Inside of what it returns all line ends are those of DOS; it keeps the text and the number of the line ends, takes
no line end away, and does nothing the second time. -/
theorem toDOS_spec (s : Bytes) : InnerPaired (toDOS s) ∧ (EndsPaired s → Paired (toDOS s)) ∧
    textOf (toDOS s) = textOf s ∧ lineEnds (toDOS s) = lineEnds s ∧
    ((∀ i, s[i]? = some (byte '\r') → s[i + 1]? = some (byte '\n')) →
      (toDOS s).filter (· ≠ byte '\r') = s.filter (· ≠ byte '\r')) ∧
    toDOS (toDOS s) = toDOS s := by
  refine ⟨toDOS_innerPaired s, toDOS_paired, ?_, ?_, fun hcr => ?_, toDOS_toDOS s⟩
  · rw [toDOS_eq]
    split
    next hs => rw [hs]; rfl
    next => exact textOf_dosRest _ s
  · rw [toDOS_eq]
    split
    next hs => rw [hs]; rfl
    next => exact lineEnds_dosRest _ s
  · rw [toDOS_eq]
    split
    next hs =>
      subst hs
      exact absurd (hcr 0 rfl) (by decide)
    next => exact filter_dosRest _ hcr

/-- What is asked of `toDOS`: without their CRs, the string and the result have the same text and as many line ends. -/
structure ToDOS (s : Bytes) : Prop where
  paired : Paired (toDOS s)
  text : textOf ((toDOS s).filter (· ≠ byte '\r')) = textOf (s.filter (· ≠ byte '\r'))
  lineEnds : lineEnds ((toDOS s).filter (· ≠ byte '\r')) = lineEnds (s.filter (· ≠ byte '\r'))
  again : toDOS (toDOS s) = toDOS s

/-- A Mac ending is no line end any more without its CR. -/
theorem not_toDOS : ¬∀ s, ToDOS s := by
  intro h
  have hends := (h (str "a\rb")).lineEnds
  rw [toDOS_eq] at hends
  exact absurd hends (by decide)

end Dcpp.Text
