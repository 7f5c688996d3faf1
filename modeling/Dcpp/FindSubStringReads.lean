import Dcpp.FindSubString

-- The search for a part of a string with its reads, which are of the strings and the NUL behind each.
namespace Dcpp.Util

variable (l : Locale)

/-- `utf8ToLC` of what is left of a string with its NUL; it is undefined to read behind that. -/
def utf8ToLCRead (str : Bytes) : Option (Nat × Nat) :=
  let further (c : UInt8) : Bool := c &&& 0xc0 = 0x80
  match str with
  | [] => none
  | c₀ :: str₁ =>
    if c₀ &&& 0x80 ≠ 0 then
      if c₀ &&& 0x40 ≠ 0 then
        if c₀ &&& 0x20 ≠ 0 then
          match str₁ with
          | [] => none
          | c₁ :: str₂ =>
            if c₁ = 0 then some (0, 1)
            else
              match str₂ with
              | [] => none
              | c₂ :: _ =>
                if c₂ = 0 ∨ ¬further c₁ ∨ ¬further c₂ then some (0, 1)
                else
                  some (l.toLower (((c₀.toNat &&& 0xf) <<< 12) ||| ((c₁.toNat &&& 0x3f) <<< 6) |||
                    (c₂.toNat &&& 0x3f)), 3)
        else
          match str₁ with
          | [] => none
          | c₁ :: _ =>
            if c₁ = 0 ∨ ¬further c₁ then some (0, 1)
            else some (l.toLower (((c₀.toNat &&& 0x1f) <<< 6) ||| (c₁.toNat &&& 0x3f)), 2)
      else some (0, 1)
    else some ((asciiToLower c₀).toNat, 1)

/-- No read is behind the NUL. -/
theorem utf8ToLCRead_eq {str : Bytes} (h : str.getLast? = some 0) : utf8ToLCRead l str = some (utf8ToLC l str) := by
  have hlead : ∀ c : UInt8, c &&& 0x80 ≠ 0 → c ≠ 0 := by
    rintro _ hc rfl
    exact hc rfl
  -- Behind a byte that is not NUL there is another one.
  have hmore : ∀ (c : UInt8) (s : Bytes), (c :: s).getLast? = some 0 → c ≠ 0 → ∃ d s', s = d :: s' := by
    intro c s hlast hc
    cases s with
    | nil => exact absurd (Option.some.inj hlast) hc
    | cons d s' => exact ⟨d, s', rfl⟩
  cases str with
  | nil => cases h
  | cons c₀ str₁ =>
    rw [utf8ToLCRead.eq_def, utf8ToLC, List.headD_cons]
    by_cases h80 : c₀ &&& 0x80 = 0
    · simp [h80]
    · obtain ⟨c₁, str₂, rfl⟩ := hmore c₀ str₁ h (hlead c₀ h80)
      rw [List.getLast?_cons_cons] at h
      by_cases h40 : c₀ &&& 0x40 = 0
      · simp [h80, h40]
      · by_cases hc₁ : c₁ = 0
        · by_cases h20 : c₀ &&& 0x20 = 0 <;> simp [h80, h40, h20, hc₁]
        · obtain ⟨c₂, str₃, rfl⟩ := hmore c₁ str₂ h hc₁
          by_cases h20 : c₀ &&& 0x20 = 0
          · simp [h80, h40, h20, hc₁, apply_ite]
          · by_cases hc₂ : c₂ = 0
            · simp [h80, h40, h20, hc₁, hc₂]
            · by_cases hfurther : c₁ &&& 0xc0 = 0x80 <;> simp [h80, h40, h20, hc₁, hc₂, hfurther, apply_ite]

/-- A character that is not NUL ends before the NUL behind the string. -/
theorem utf8ToLC_lt {str : Bytes} (h : str.getLast? = some 0) (hhead : str.headD 0 ≠ 0) :
    (utf8ToLC l str).2 < str.length := by
  rw [List.getLast?_eq_getElem?] at h
  by_contra hle
  have hlast : str.getD (str.length - 1) 0 = 0 := by rw [List.getD_eq_getElem?_getD, h, Option.getD_some]
  have hpos : 0 < str.length := by
    cases str with
    | nil => cases h
    | cons c str => exact Nat.succ_pos _
  by_cases hone : (utf8ToLC l str).2 = 1
  · have hzero : str.length - 1 = 0 := by omega
    rw [hzero] at hlast
    cases str with
    | nil => cases h
    | cons c str => exact hhead hlast
  · have hlarge := utf8ToLC_several l hone (show str.length - 1 < (utf8ToLC l str).2 by omega)
    rw [hlast] at hlarge
    exact absurd hlarge (by decide)

theorem utf8ToLCRead_pos {str : Bytes} {r : Nat × Nat} (h : utf8ToLCRead l str = some r) : 0 < r.2 := by
  rw [utf8ToLCRead.eq_def] at h
  grind

/-- Whether the text goes on with the rest of the pattern, both with their NUL. -/
def matchRestRead (px tx : Bytes) : Option Bool :=
  if _hpx : px = [] then none
  else if px.headD 0 = 0 then some true
  else
    match _hp : utf8ToLCRead l px, utf8ToLCRead l tx with
    | some p, some t => if p.1 ≠ t.1 then some false else matchRestRead (px.drop p.2) (tx.drop t.2)
    | _, _ => none
termination_by px.length
decreasing_by
  have hpos := utf8ToLCRead_pos l _hp
  have hlength := List.length_pos_iff.mpr _hpx
  rw [List.length_drop]
  omega

/-- The loop of `findSubString` with its reads, from `tx`. -/
def findLoopRead (aString : Bytes) (wp : Nat) (px : Bytes) (tx stop : Nat) : Option (Option Nat) :=
  if tx < stop then
    match _ht : utf8ToLCRead l (aString.drop tx) with
    | none => none
    | some t =>
      if wp = t.1 then
        match matchRestRead l px (aString.drop (tx + t.2)) with
        | none => none
        | some true => some (some tx)
        | some false => findLoopRead aString wp px (tx + t.2) stop
      else findLoopRead aString wp px (tx + t.2) stop
  else some none
termination_by stop - tx
decreasing_by
  all_goals
    have hpos := utf8ToLCRead_pos l _ht
    omega

/-- `findSubString` with its reads: it is undefined where one of them is behind a NUL. -/
def findSubStringRead (aString aSubString : Bytes) (start : Nat) : Option (Option Nat) :=
  if aString.length < start then some none
  else if aString.length - start < aSubString.length then some none
  else if aSubString = [] then some (some 0)
  else
    (utf8ToLCRead l (aSubString ++ [0])).bind fun p =>
      findLoopRead l (aString ++ [0]) p.1 ((aSubString ++ [0]).drop p.2) start
        (aString.length - aSubString.length + 1)

theorem utf8ToLC_nul (m : Bytes) : utf8ToLC l (m ++ [0]) = utf8ToLC l m := by
  have hhead : (m ++ [0]).headD 0 = m.headD 0 := by cases m <;> rfl
  have hget : ∀ k, (m ++ [0]).getD k 0 = m.getD k 0 := fun k => by
    rw [List.getD_eq_getElem?_getD, List.getD_eq_getElem?_getD, List.getElem?_append]
    split
    · rfl
    · rw [List.getElem?_eq_none (show m.length ≤ k by omega)]
      cases k - m.length <;> rfl
  rw [utf8ToLC, utf8ToLC, hhead, hget, hget]

theorem getLast?_nul (m : Bytes) : (m ++ [0]).getLast? = some 0 := List.getLast?_concat

theorem drop_nul_cases (m : Bytes) (k : Nat) :
    (m ++ [0]).drop k = m.drop k ++ [0] ∨ (m ++ [0]).drop k = [] ∧ m.drop k = [] := by
  obtain hgt | hle := Nat.lt_or_ge m.length k
  · refine Or.inr ⟨List.drop_eq_nil_of_le ?_, List.drop_eq_nil_of_le (by omega)⟩
    rw [List.length_append, List.length_singleton]
    omega
  · exact Or.inl (List.drop_append_of_le_length hle)

/-- A character is none of it behind the string. -/
theorem utf8ToLC_le {str : Bytes} (h : str ≠ []) : (utf8ToLC l str).2 ≤ str.length := by
  obtain ⟨c, s, rfl⟩ := List.exists_cons_of_ne_nil h
  by_cases hzero : c = 0
  · rw [hzero, utf8ToLC_ascii l (by decide), List.length_cons]
    omega
  · have hlt := utf8ToLC_lt l (getLast?_nul (c :: s)) hzero
    rw [utf8ToLC_nul, List.length_append, List.length_singleton] at hlt
    omega

theorem matchRest_of_read {px tx tx' : Bytes} {b : Bool} (htx : tx' = tx ++ [0] ∨ tx' = [] ∧ tx = [])
    (h : matchRestRead l (px ++ [0]) tx' = some b) : matchRest l px tx = b := by
  induction hn : px.length using Nat.strong_induction_on generalizing px tx tx' with
  | _ n ih =>
    subst hn
    have hhead : (px ++ [0]).headD 0 = px.headD 0 := by cases px <;> rfl
    rw [matchRestRead, dif_neg (List.append_ne_nil_of_right_ne_nil px (List.cons_ne_nil 0 [])), hhead] at h
    rw [matchRest]
    by_cases hend : px.headD 0 = 0
    · rw [if_pos hend] at h
      rw [dif_pos hend]
      exact Option.some.inj h
    · rw [if_neg hend, utf8ToLCRead_eq l (getLast?_nul px)] at h
      rw [dif_neg hend]
      obtain rfl | ⟨rfl, -⟩ := htx
      · rw [utf8ToLCRead_eq l (getLast?_nul tx), utf8ToLC_nul, utf8ToLC_nul] at h
        dsimp only at h ⊢
        split
        next hne =>
          rw [if_pos hne] at h
          exact Option.some.inj h
        next heq =>
          have hlt := utf8ToLC_lt l (getLast?_nul px) (by rwa [hhead])
          have hpos := utf8ToLC_pos l px
          rw [utf8ToLC_nul, List.length_append, List.length_singleton] at hlt
          rw [if_neg heq, List.drop_append_of_le_length (by omega)] at h
          refine ih (px.drop (utf8ToLC l px).2).length ?_ (drop_nul_cases tx _) h rfl
          rw [List.length_drop]
          omega
      · cases h

theorem findLoop_of_read {aString px : Bytes} {wp tx stop : Nat} {r : Option Nat} (hstop : stop ≤ aString.length + 1)
    (h : findLoopRead l (aString ++ [0]) wp (px ++ [0]) tx stop = some r) : findLoop l aString wp px tx stop = r := by
  induction hn : stop - tx using Nat.strong_induction_on generalizing tx with
  | _ n ih =>
    subst hn
    rw [findLoopRead] at h
    rw [findLoop]
    by_cases hlt : tx < stop
    · have hdrop : (aString ++ [0]).drop tx = aString.drop tx ++ [0] := List.drop_append_of_le_length (by omega)
      have hpos := utf8ToLC_pos l (aString.drop tx)
      rw [if_pos hlt, hdrop, utf8ToLCRead_eq l (getLast?_nul _), utf8ToLC_nul] at h
      rw [if_pos hlt]
      dsimp only at h ⊢
      have hih : findLoopRead l (aString ++ [0]) wp (px ++ [0]) (tx + (utf8ToLC l (aString.drop tx)).2) stop = some r →
          findLoop l aString wp px (tx + (utf8ToLC l (aString.drop tx)).2) stop = r := fun h =>
        ih (stop - (tx + (utf8ToLC l (aString.drop tx)).2)) (by omega) h rfl
      by_cases hwp : wp = (utf8ToLC l (aString.drop tx)).1
      · rw [if_pos hwp] at h
        split at h
        next => cases h
        next hread =>
          rw [if_pos ⟨hwp, matchRest_of_read l (drop_nul_cases aString _) hread⟩]
          exact Option.some.inj h
        next hread =>
          have hrest := matchRest_of_read l (drop_nul_cases aString _) hread
          rw [if_neg fun hboth => Bool.false_ne_true (hrest.symm.trans hboth.2)]
          exact hih h
      · rw [if_neg hwp] at h
        rw [if_neg (fun hboth => hwp hboth.1)]
        exact hih h
    · rw [if_neg hlt] at h
      rw [if_neg hlt]
      exact Option.some.inj h

/-- Where the search is defined it is the one that takes a NUL for whatever is behind the strings. -/
theorem findSubString_of_read {aString aSubString : Bytes} {start : Nat} {r : Option Nat}
    (h : findSubStringRead l aString aSubString start = some r) : findSubString l aString aSubString start = r := by
  rw [findSubStringRead] at h
  rw [findSubString]
  split
  next hstart =>
    rw [if_pos hstart] at h
    exact Option.some.inj h
  next hstart =>
    rw [if_neg hstart] at h
    split
    next hroom =>
      rw [if_pos hroom] at h
      exact Option.some.inj h
    next hroom =>
      rw [if_neg hroom] at h
      split
      next hne =>
        rw [if_pos hne] at h
        exact Option.some.inj h
      next hne =>
        have hlength := List.length_pos_iff.mpr hne
        rw [if_neg hne, utf8ToLCRead_eq l (getLast?_nul aSubString), utf8ToLC_nul] at h
        rw [Option.bind_some, List.drop_append_of_le_length (utf8ToLC_le l hne)] at h
        exact findLoop_of_read l (by omega) h

/-- A comparison along two lists, undefined where the second ends before the first. -/
def follow {α : Type*} [DecidableEq α] : List α → List α → Option Bool
  | [], _ => some true
  | _ :: _, [] => none
  | p :: ps, t :: ts => if p = t then follow ps ts else some false

theorem follow_eq_true {α : Type*} [DecidableEq α] {ps ts : List α} : follow ps ts = some true ↔ ps <+: ts := by
  fun_induction follow ps ts with
  | case1 ts => simp
  | case2 p ps => simp
  | case3 p ps ts ih => simpa using ih
  | case4 p ps t ts hne => simp [hne]

/-- The second list ends where the first goes on. -/
theorem follow_eq_none {α : Type*} [DecidableEq α] {ps ts : List α} :
    follow ps ts = none ↔ ts <+: ps ∧ ts ≠ ps := by
  fun_induction follow ps ts with
  | case1 ts =>
    simp
  | case2 p ps => simp
  | case3 p ps ts ih => simpa using ih
  | case4 p ps t ts hne => simp [Ne.symm hne]

/-- The codes that `utf8ToLC` finds one after the other, up to a place that `stop` says. -/
def unitsUntil (stop : Bytes → Bool) (m : Bytes) : List Nat :=
  if _h : m = [] ∨ stop m = true then []
  else (utf8ToLC l m).1 :: unitsUntil stop (m.drop (utf8ToLC l m).2)
termination_by m.length
decreasing_by
  have hpos := utf8ToLC_pos l m
  have hlength := List.length_pos_iff.mpr (not_or.mp _h).1
  rw [List.length_drop]
  omega

/-- The codes of a text with its NUL. -/
def textUnits (tx : Bytes) : List Nat := unitsUntil l (fun _ => false) tx

def atNul (px : Bytes) : Bool := px.headD 0 = 0

/-- The codes of what is left of a pattern, without the NUL behind it. -/
def restUnits (px : Bytes) : List Nat := unitsUntil l atNul px

/-- The codes of a pattern. The first of them is compared whatever it is. -/
def patternUnits (aSubString : Bytes) : List Nat :=
  let px := aSubString ++ [0]
  (utf8ToLC l px).1 :: restUnits l (px.drop (utf8ToLC l px).2)

theorem textUnits_nil : textUnits l [] = [] := by
  rw [textUnits, unitsUntil, dif_pos (Or.inl rfl)]

theorem textUnits_of_ne {tx : Bytes} (h : tx ≠ []) :
    textUnits l tx = (utf8ToLC l tx).1 :: textUnits l (tx.drop (utf8ToLC l tx).2) := by
  rw [textUnits, unitsUntil, dif_neg (by simpa using h), textUnits]

theorem getLast?_drop_nul {m : Bytes} (h : m.getLast? = some 0) {k : Nat} (hk : k < m.length) :
    (m.drop k).getLast? = some 0 := by
  rw [List.getLast?_drop, if_neg (not_le.mpr hk), h]

theorem matchRestRead_eq {px tx : Bytes} (hpx : px.getLast? = some 0) (htx : tx ≠ [] → tx.getLast? = some 0) :
    matchRestRead l px tx = follow (restUnits l px) (textUnits l tx) := by
  induction hn : px.length using Nat.strong_induction_on generalizing px tx with
  | _ n ih =>
    subst hn
    have hne : px ≠ [] := fun hnil => by
      rw [hnil] at hpx
      cases hpx
    rw [matchRestRead, dif_neg hne, restUnits, unitsUntil]
    by_cases hend : px.headD 0 = 0
    · have hnul : atNul px = true := decide_eq_true hend
      rw [if_pos hend, dif_pos (Or.inr hnul), follow]
    · have hlt := utf8ToLC_lt l hpx hend
      rw [if_neg hend, dif_neg (not_or.mpr ⟨hne, by rwa [atNul, decide_eq_true_eq]⟩), ← restUnits]
      by_cases htext : tx = []
      · rw [htext, textUnits_nil, follow, utf8ToLCRead_eq l hpx]
        rfl
      · have hrest : tx.drop (utf8ToLC l tx).2 ≠ [] → (tx.drop (utf8ToLC l tx).2).getLast? = some 0 := fun hdrop =>
          getLast?_drop_nul (htx htext) (by
            have hlength := List.length_pos_iff.mpr hdrop
            rw [List.length_drop] at hlength
            omega)
        have hpos := utf8ToLC_pos l px
        have hih := ih (px.drop (utf8ToLC l px).2).length (by
          rw [List.length_drop]
          omega) (getLast?_drop_nul hpx hlt) hrest rfl
        rw [utf8ToLCRead_eq l hpx, utf8ToLCRead_eq l (htx htext), textUnits_of_ne l htext, follow]
        dsimp only
        rw [hih]
        simp only [ite_not, ne_eq]

/-- From the first place the loop goes to the second, unless it ends before. -/
inductive Comes (m : Bytes) : Nat → Nat → Prop where
  | here (p : Nat) : Comes m p p
  | next {p q : Nat} : Comes m (p + (utf8ToLC l (m.drop p)).2) q → Comes m p q

theorem Comes.le {m : Bytes} {p q : Nat} (h : Comes l m p q) : p ≤ q := by
  induction h with
  | here p => exact le_rfl
  | next _ ih => omega

theorem Comes.step {m : Bytes} {p q k : Nat} (h : (utf8ToLC l (m.drop p)).2 = k) (hq : Comes l m (p + k) q) :
    Comes l m p q := by
  subst h
  exact Comes.next hq

theorem Comes.trans {m : Bytes} {p q r : Nat} (h : Comes l m p q) (h' : Comes l m q r) : Comes l m p r := by
  induction h with
  | here p => exact h'
  | next _ ih => exact Comes.next (ih h')

/-- The codes of a pattern compared at a place of a text. -/
def compareAt (units : List Nat) (m : Bytes) (tx : Nat) : Option Bool := follow units (textUnits l (m.drop tx))

/-- The loop stops at the first place it comes to where the pattern is found, or where it reads behind the NUL. -/
theorem findLoopRead_cases {m px : Bytes} (hm : m.getLast? = some 0) (hpx : px.getLast? = some 0) (wp tx : Nat)
    {stop : Nat} (hstop : stop ≤ m.length) :
    (findLoopRead l m wp px tx stop = some none ∧
        ∀ q < stop, Comes l m tx q → compareAt l (wp :: restUnits l px) m q = some false) ∨
      ∃ r < stop, Comes l m tx r ∧ compareAt l (wp :: restUnits l px) m r ≠ some false ∧
        (∀ q < r, Comes l m tx q → compareAt l (wp :: restUnits l px) m q = some false) ∧
        findLoopRead l m wp px tx stop = (compareAt l (wp :: restUnits l px) m r).map fun _ => some r := by
  induction hn : stop - tx using Nat.strong_induction_on generalizing tx with
  | _ n ih =>
    subst hn
    by_cases hlt : tx < stop
    · have hne : m.drop tx ≠ [] := by
        rw [Ne, List.drop_eq_nil_iff]
        omega
      have hpos := utf8ToLC_pos l (m.drop tx)
      have hread := utf8ToLCRead_eq l (getLast?_drop_nul hm (show tx < m.length by omega))
      have hrest : matchRestRead l px (m.drop (tx + (utf8ToLC l (m.drop tx)).2)) =
          follow (restUnits l px) (textUnits l ((m.drop tx).drop (utf8ToLC l (m.drop tx)).2)) := by
        rw [List.drop_drop]
        refine matchRestRead_eq l hpx fun hdrop => getLast?_drop_nul hm ?_
        rwa [Ne, List.drop_eq_nil_iff, not_le] at hdrop
      have hat : compareAt l (wp :: restUnits l px) m tx =
          if wp = (utf8ToLC l (m.drop tx)).1 then matchRestRead l px (m.drop (tx + (utf8ToLC l (m.drop tx)).2))
          else some false := by
        rw [compareAt, textUnits_of_ne l hne, follow, hrest]
      have hloop : findLoopRead l m wp px tx stop =
          if compareAt l (wp :: restUnits l px) m tx = some false then
            findLoopRead l m wp px (tx + (utf8ToLC l (m.drop tx)).2) stop
          else (compareAt l (wp :: restUnits l px) m tx).map fun _ => some tx := by
        rw [findLoopRead, if_pos hlt, hread, hat]
        dsimp only
        split
        next => cases matchRestRead l px _ with
          | none => rfl
          | some b => cases b <;> rfl
        next => rfl
      by_cases hfalse : compareAt l (wp :: restUnits l px) m tx = some false
      · rw [hloop, if_pos hfalse]
        have hfirst : ∀ {q}, Comes l m tx q →
            q = tx ∨ Comes l m (tx + (utf8ToLC l (m.drop tx)).2) q := fun hcomes => by
          cases hcomes with
          | here => exact Or.inl rfl
          | next h => exact Or.inr h
        obtain ⟨hnone, hall⟩ | ⟨r, hr, hcomes, hne, hall, hsome⟩ :=
          ih (stop - (tx + (utf8ToLC l (m.drop tx)).2)) (by omega) _ rfl
        · refine Or.inl ⟨hnone, fun q hq hcomes => ?_⟩
          obtain rfl | hcomes := hfirst hcomes
          · exact hfalse
          · exact hall q hq hcomes
        · refine Or.inr ⟨r, hr, Comes.next hcomes, hne, fun q hq hcomes => ?_, hsome⟩
          obtain rfl | hcomes := hfirst hcomes
          · exact hfalse
          · exact hall q hq hcomes
      · rw [hloop, if_neg hfalse]
        refine Or.inr ⟨tx, hlt, Comes.here tx, hfalse, fun q hq hcomes => ?_, rfl⟩
        exact absurd hcomes.le (not_le.mpr hq)
    · refine Or.inl ⟨by rw [findLoopRead, if_neg hlt], fun q hq hcomes => ?_⟩
      exact absurd hcomes.le (by omega)

variable {aString aSubString : Bytes} {start : Nat}

/-- The search stops at the first place it comes to where the pattern is found, or where it reads behind the NUL. -/
theorem findSubStringRead_cases (hne : aSubString ≠ []) (aString : Bytes) (start : Nat) :
    (findSubStringRead l aString aSubString start = some none ∧
        ∀ q, q + aSubString.length ≤ aString.length → Comes l (aString ++ [0]) start q →
          compareAt l (patternUnits l aSubString) (aString ++ [0]) q = some false) ∨
      ∃ r, r + aSubString.length ≤ aString.length ∧ Comes l (aString ++ [0]) start r ∧
        compareAt l (patternUnits l aSubString) (aString ++ [0]) r ≠ some false ∧
        (∀ q < r, Comes l (aString ++ [0]) start q →
          compareAt l (patternUnits l aSubString) (aString ++ [0]) q = some false) ∧
        findSubStringRead l aString aSubString start =
          (compareAt l (patternUnits l aSubString) (aString ++ [0]) r).map fun _ => some r := by
  have hpos := List.length_pos_iff.mpr hne
  rw [findSubStringRead]
  by_cases hstart : aString.length < start
  · rw [if_pos hstart]
    exact Or.inl ⟨rfl, fun q hq hcomes => absurd hcomes.le (by omega)⟩
  · rw [if_neg hstart]
    by_cases hroom : aString.length - start < aSubString.length
    · rw [if_pos hroom]
      exact Or.inl ⟨rfl, fun q hq hcomes => absurd hcomes.le (by omega)⟩
    · rw [if_neg hroom, if_neg hne, utf8ToLCRead_eq l (getLast?_nul aSubString)]
      have hlength : aString.length - aSubString.length + 1 ≤ (aString ++ [0]).length := by
        rw [List.length_append, List.length_singleton]
        omega
      have hlt : (utf8ToLC l (aSubString ++ [0])).2 < (aSubString ++ [0]).length := by
        rw [utf8ToLC_nul, List.length_append, List.length_singleton]
        exact Nat.lt_succ_of_le (utf8ToLC_le l hne)
      obtain ⟨hnone, hall⟩ | ⟨r, hr, hcomes, hne, hall, hsome⟩ :=
        findLoopRead_cases l (getLast?_nul aString) (getLast?_drop_nul (getLast?_nul aSubString) hlt)
          (utf8ToLC l (aSubString ++ [0])).1 start hlength
      · exact Or.inl ⟨hnone, fun q hq hcomes => hall q (by omega) hcomes⟩
      · exact Or.inr ⟨r, by omega, hcomes, hne, hall, hsome⟩

/-- The place is one at which the loop finds the pattern. -/
def Found (aString aSubString : Bytes) (p : Nat) : Prop :=
  patternUnits l aSubString <+: textUnits l ((aString ++ [0]).drop p)

/-- The place is one at which the text ends, with its NUL, where the pattern goes on. -/
def EndsBefore (aString aSubString : Bytes) (p : Nat) : Prop :=
  textUnits l ((aString ++ [0]).drop p) <+: patternUnits l aSubString ∧
    textUnits l ((aString ++ [0]).drop p) ≠ patternUnits l aSubString

theorem compareAt_eq_false {p : Nat} :
    compareAt l (patternUnits l aSubString) (aString ++ [0]) p = some false ↔
      ¬Found l aString aSubString p ∧ ¬EndsBefore l aString aSubString p := by
  rw [Found, EndsBefore, ← follow_eq_true, ← follow_eq_none, compareAt]
  cases follow (patternUnits l aSubString) (textUnits l ((aString ++ [0]).drop p)) with
  | none => simp
  | some b => cases b <;> simp

/-- No text ends before a pattern that is empty. -/
theorem not_endsBefore_nil {p : Nat} (hp : p ≤ aString.length) : ¬EndsBefore l aString [] p := by
  rintro ⟨hstarts, hother⟩
  have hunits : patternUnits l [] = [0] := by
    rw [patternUnits, List.nil_append, utf8ToLC_ascii l (by decide), List.drop_one, List.tail_cons, restUnits,
      unitsUntil, dif_pos (Or.inl rfl)]
    rfl
  have hdrop : (aString ++ [0]).drop p ≠ [] := by
    rw [Ne, List.drop_eq_nil_iff, List.length_append, List.length_singleton]
    omega
  apply hother
  rw [hunits] at hstarts ⊢
  rw [textUnits_of_ne l hdrop] at hstarts ⊢
  obtain ⟨hcode, hrest⟩ := List.cons_prefix_cons.mp hstarts
  rw [hcode, List.prefix_nil.mp hrest]

theorem findSubStringRead_nil : (findSubStringRead l aString [] start).isSome = true := by
  rw [findSubStringRead]
  split
  · rfl
  · rw [List.length_nil, if_neg (Nat.not_lt_zero _), if_pos rfl]
    rfl

/-- No read is behind a NUL if and only if the search comes to no place at which the text ends before the pattern does,
unless it has found the pattern before. -/
theorem findSubStringRead_isSome_iff :
    (findSubStringRead l aString aSubString start).isSome = true ↔
      ∀ p, p + aSubString.length ≤ aString.length → Comes l (aString ++ [0]) start p →
        (∀ q < p, Comes l (aString ++ [0]) start q → ¬Found l aString aSubString q) →
        ¬EndsBefore l aString aSubString p := by
  by_cases hne : aSubString = []
  · subst hne
    exact iff_of_true (findSubStringRead_nil l) fun p hp _ _ => not_endsBefore_nil l hp
  · obtain ⟨hnone, hall⟩ | ⟨r, hr, hcomes, hat, hall, hsome⟩ := findSubStringRead_cases l hne aString start
    · refine iff_of_true (by rw [hnone]; rfl) fun p hp hcomes _ => ?_
      exact ((compareAt_eq_false l).mp (hall p hp hcomes)).2
    · rw [hsome, Option.isSome_map]
      constructor
      · intro hdefined p hp hcomes' hfirst hends
        have hfound : Found l aString aSubString r := by
          obtain ⟨b, hb⟩ := Option.isSome_iff_exists.mp hdefined
          cases b with
          | false => exact absurd hb hat
          | true => exact follow_eq_true.mp hb
        obtain hlt | rfl | hlt := lt_trichotomy p r
        · exact ((compareAt_eq_false l).mp (hall p hlt hcomes')).2 hends
        · exact hends.2 (hends.1.eq_of_length_le hfound.length_le)
        · exact hfirst r hlt hcomes hfound
      · intro h
        have hends := h r hr hcomes fun q hq hcomes' => ((compareAt_eq_false l).mp (hall q hq hcomes')).1
        rw [Option.isSome_iff_ne_none]
        exact fun hnone => hends (follow_eq_none.mp hnone)

end Dcpp.Util
