import Mathlib.Data.List.Chain
import Dcpp.Library.Tiling
import Dcpp.SdExOperators

-- The positions of the pieces that a line is matched in.
namespace Dcpp.SdExFull

open Tiling

/-- The range of the line that a piece is reported to be. -/
def SdExString.range (line : Bytes) (s : SdExString) : Bytes := (line.drop s.ipos).take s.ilen

section

variable (toLower : Bytes → Bytes) (line : Bytes) {α : Type}

/-- A text of the pattern, up to case where it is lowered already. -/
def IsText (nocase : Bool) (text p : Bytes) : Prop := p = text ∨ nocase = true ∧ toLower p = text

def NoneAdjacent (parts : List (Part α)) : Prop := parts.IsChain fun a b => ¬(a.param = true ∧ b.param = true)

abbrev TilesLine : Nat → List SdExString → Nat → Prop := Tiles SdExString.ipos SdExString.ilen

/-- The pieces are where they are reported to be: in the line, a text at the place of the text, and they make up the line
unless parameters are next to each other. -/
structure TruePositions (parts : List (Part α)) (pieces : List SdExString) : Prop where
  inside : ∀ s ∈ pieces, s.ipos + s.ilen ≤ line.length
  texts : ∀ s ∈ pieces, s.param = false → IsText toLower (parts.any Part.nocase) s.data (s.range line)
  tiles : NoneAdjacent parts → TilesLine 0 pieces line.length

/-- Lower-casing the line does not move the texts, which are one behind the other from `p` on. -/
def InPlace : Nat → List (Part α) → Prop
  | _, [] => True
  | p, pi :: texts =>
    (pi.nocase = true → IsText toLower true pi.text ((line.drop p).take pi.text.length)) ∧
      InPlace (p + pi.text.length) texts

/-- No text is behind a parameter, the ones before are in place, and a parameter alone with both lengths has the fixed
one. -/
def Placed (parts : List (Part α)) : Prop :=
  ∃ texts params, parts = texts ++ params ∧ (∀ pi ∈ texts, pi.param = false) ∧ (∀ pi ∈ params, pi.param = true) ∧
    InPlace toLower line 0 texts ∧
    ∀ cur n, params = [cur] → cur.paramlenfixed = some n → cur.paramlenmin.isSome = true →
      (texts.map fun pi => pi.text.length).sum + n = line.length

end

section

variable {toLower : Bytes → Bytes} {line : Bytes} {α : Type} {nested : Nested α} {keep : Bool}

/-- A piece that is in the line, and is what is there if it is no parameter. -/
def Lies (line : Bytes) (s : SdExString) : Prop :=
  s.ipos + s.ilen ≤ line.length ∧ (s.param = false → s.range line = s.data)

theorem lies_make {first last : Nat} (hle : first ≤ last) (hlast : last ≤ line.length) :
    Lies line (.make ((line.take last).drop first) first false []) := by
  have hlen : ((line.take last).drop first).length = last - first := by
    rw [List.length_drop, List.length_take_of_le hlast]
  constructor
  · dsimp only [SdExString.make]
    omega
  · intro _
    rw [SdExString.range, SdExString.make]
    dsimp only
    rw [hlen, List.drop_take]

theorem lies_piece {first last : Nat} (hle : first ≤ last) (hlast : last ≤ line.length) :
    (∀ s ∈ piece line first last, Lies line s) ∧ TilesLine first (piece line first last) last := by
  rw [piece]
  split_ifs with h
  · exact ⟨fun _ hs => absurd hs List.not_mem_nil, h⟩
  · refine ⟨fun s hs => ?_, rfl, ?_⟩
    · rw [List.mem_singleton.mp hs]
      exact lies_make hle hlast
    · have hlen : ((line.take last).drop first).length = last - first := by
        rw [List.length_drop, List.length_take_of_le hlast]
      change first + ((line.take last).drop first).length = last
      omega

/-- The fixed lengths of consecutive parameters combined. -/
def fixedSum (run : List (Part α)) : Nat := (run.map fun pi => pi.paramlenfixed.getD 0).sum

theorem fixedSum_le (run : List (Part α)) : fixedSum run ≤ combinedLength run := by
  rw [fixedSum, combinedLength]
  induction run with
  | nil => exact Nat.le_refl _
  | cons pi run ih =>
    simp only [List.map_cons, List.sum_cons]
    omega

/-- The pieces of parameters next to each other. -/
theorem checkRun_pieces {dend : Nat} (hdend : dend ≤ line.length) {run : List (Part α)} {tmpbegin : Nat}
    (hsum : tmpbegin + fixedSum run ≤ dend) {m m' : Matching}
    (h : checkRun (Tag.check toLower nested) line keep dend run tmpbegin m = some (true, m')) :
    ∃ pieces, m'.sdstrings = m.sdstrings ++ pieces ∧ m'.phi = m.phi ∧ (∀ s ∈ pieces, Lies line s) ∧
      ∀ cur, run = [cur] → TilesLine tmpbegin pieces (cur.paramlenfixed.elim dend (tmpbegin + ·)) := by
  induction run generalizing tmpbegin m with
  | nil =>
    cases h
    exact ⟨[], (List.append_nil _).symm, rfl, fun _ hs => absurd hs List.not_mem_nil, fun _ h => nomatch h⟩
  | cons cur run ih =>
    rw [fixedSum, List.map_cons, List.sum_cons] at hsum
    rw [checkRun] at h
    obtain ⟨⟨b, s, params⟩, htags, h⟩ := Option.bind_eq_some_iff.mp h
    cases b with
    | false => cases h
    | true =>
      simp only [Bool.not_true, Bool.false_eq_true, if_false, Option.ite_none_left_eq_some] at h
      obtain ⟨hend, h⟩ := h
      have hkeeps := checkTags_keeps htags
      have hbegin : tmpbegin ≤ s.ipos := hkeeps.ipos
      generalize htmpend : cur.paramlenfixed.elim dend (tmpbegin + ·) = tmpend at h hend ⊢
      have hle : tmpend ≤ dend ∧ (if cur.paramlenfixed.isSome = true then tmpend else tmpbegin) + fixedSum run ≤ dend := by
        rw [← htmpend, fixedSum]
        cases hplf : cur.paramlenfixed with
        | none =>
          rw [hplf, Option.getD_none, Nat.zero_add] at hsum
          exact ⟨Nat.le_refl _, hsum⟩
        | some n =>
          rw [hplf, Option.getD_some] at hsum
          simp only [Option.elim_some, Option.isSome_some, if_true]
          omega
      obtain ⟨pieces, hpieces, hphi, hlies, -⟩ := ih hle.2 h
      have hskipped : (∀ s' ∈ piece line tmpbegin s.ipos, Lies line s') ∧ _ := lies_piece hbegin (by omega)
      have hcut : (∀ s' ∈ piece line (s.ipos + s.ilen) tmpend, Lies line s') ∧ _ := lies_piece (by omega) (by omega)
      refine ⟨piece line tmpbegin s.ipos ++ s :: piece line (s.ipos + s.ilen) tmpend ++ pieces, ?_, hphi, ?_, ?_⟩
      · rw [hpieces]
        simp only [List.append_assoc]
      · intro s' hs'
        rw [List.mem_append, List.mem_append, List.mem_cons] at hs'
        obtain (hs' | rfl | hs') | hs' := hs'
        · exact hskipped.1 s' hs'
        · exact ⟨by omega, fun hparam => Bool.noConfusion (hkeeps.param.symm.trans hparam)⟩
        · exact hcut.1 s' hs'
        · exact hlies s' hs'
      · rintro cur' hcur
        obtain ⟨rfl, rfl⟩ := List.cons.inj hcur
        cases h
        rw [List.self_eq_append_right] at hpieces
        rw [hpieces, List.append_nil, htmpend]
        exact tiles_append.mpr ⟨s.ipos, hskipped.2, rfl, hcut.2⟩

theorem checkRun_extends {dend : Nat} {run : List (Part α)} {tmpbegin : Nat} {m m' : Matching}
    (h : checkRun (Tag.check toLower nested) line keep dend run tmpbegin m = some (true, m')) :
    ∃ more, m'.sdstrings = m.sdstrings ++ more := by
  induction run generalizing tmpbegin m with
  | nil =>
    cases h
    exact ⟨[], (List.append_nil _).symm⟩
  | cons cur run ih =>
    rw [checkRun] at h
    obtain ⟨⟨b, s, params⟩, -, h⟩ := Option.bind_eq_some_iff.mp h
    cases b with
    | false => cases h
    | true =>
      simp only [Bool.not_true, Bool.false_eq_true, if_false, Option.ite_none_left_eq_some] at h
      obtain ⟨more, hmore⟩ := ih h.2
      exact ⟨_, by rw [hmore, List.append_assoc, List.append_assoc]⟩

/-- What a successful round at a text behind parameters has done. -/
theorem checkParts_text {cur pi : Part α} {parts run : List (Part α)} (hpi : pi.param = false) {m m' : Matching}
    (h : checkParts toLower (Tag.check toLower nested) line keep (pi :: parts) (cur :: run) m = some (true, m')) :
    ∃ dend m₁, pi.text ≠ [] ∧ m.phi + combinedLength (cur :: run) ≤ dend ∧ dend + pi.text.length ≤ line.length ∧
      checkRun (Tag.check toLower nested) line keep dend (cur :: run) m.phi { m with phi := dend + pi.text.length } =
        some (true, m₁) ∧
      checkParts toLower (Tag.check toLower nested) line keep parts []
        { m₁ with sdstrings := m₁.sdstrings ++ [.make pi.text m₁.phi false []] } = some (true, m') := by
  rw [checkParts, if_neg (by rw [hpi]; decide)] at h
  dsimp only at h
  split at h
  · cases h
  · split at h
    · cases h
    next dend hdend =>
      split at h
      · cases h
      next hle =>
        obtain ⟨⟨b, m₁⟩, hrun, h⟩ := Option.bind_eq_some_iff.mp h
        cases b with
        | false => cases h
        | true =>
          have hfound : pi.text ≠ [] ∧ m.phi + combinedLength (cur :: run) ≤ dend := by
            rw [findText] at hdend
            split at hdend
            · split at hdend
              next hcmp =>
                cases hdend
                simp only [strcmp, Bdcpp.strcmp, Bool.and_eq_true, decide_eq_true_eq] at hcmp
                exact ⟨hcmp.1.2, Nat.le_refl _⟩
              next => cases hdend
            · obtain ⟨i, hi, rfl⟩ := Option.map_eq_some_iff.mp hdend
              rw [strfnd, Bdcpp.strfnd, Option.ite_none_left_eq_some, not_or] at hi
              exact ⟨hi.1.2, Nat.le_add_right _ _⟩
          exact ⟨dend, m₁, hfound.1, hfound.2, Nat.not_lt.mp hle, hrun, h⟩

theorem checkParts_param {pi : Part α} (hpi : pi.param = true) (parts run : List (Part α)) (m : Matching) :
    checkParts toLower (Tag.check toLower nested) line keep (pi :: parts) run m =
      checkParts toLower (Tag.check toLower nested) line keep parts (run ++ [pi]) m := by
  cases run <;> rw [checkParts, if_pos hpi]

theorem checkParts_extends {parts run : List (Part α)} {m m' : Matching}
    (h : checkParts toLower (Tag.check toLower nested) line keep parts run m = some (true, m')) :
    ∃ more, m'.sdstrings = m.sdstrings ++ more := by
  induction parts generalizing run m with
  | nil =>
    cases run with
    | nil =>
      rw [checkParts, Option.some_inj, Prod.mk.injEq] at h
      exact ⟨[], by rw [h.2, List.append_nil]⟩
    | cons cur run =>
      rw [checkParts] at h
      split at h
      · cases h
      · split at h
        · cases h
        · exact (checkRun_extends h :)
  | cons pi parts ih =>
    cases hpi : pi.param with
    | true =>
      rw [checkParts_param hpi] at h
      exact ih h
    | false =>
      cases run with
      | nil =>
        rw [checkParts, if_neg (by rw [hpi]; decide)] at h
        split at h
        · cases h
        · split at h
          · cases h
          · obtain ⟨more, hmore⟩ := ih h
            exact ⟨_, by rw [hmore, List.append_assoc]⟩
      | cons cur run =>
        obtain ⟨dend, m₁, -, -, -, hrun, h⟩ := checkParts_text hpi h
        obtain ⟨more₁, hmore₁⟩ := checkRun_extends hrun
        obtain ⟨more, hmore⟩ := ih h
        exact ⟨_, by rw [hmore, hmore₁, List.append_assoc, List.append_assoc]⟩

/-- The pieces of texts one behind the other. -/
def textPieces : Nat → List (Part α) → List SdExString
  | _, [] => []
  | p, pi :: texts => .make pi.text p false [] :: textPieces (p + pi.text.length) texts

/-- The combined length of texts. -/
def textLength (texts : List (Part α)) : Nat := (texts.map fun pi => pi.text.length).sum

/-- What the comparisons of texts one behind the other have found. -/
def Compared (toLower : Bytes → Bytes) (line : Bytes) : Nat → List (Part α) → Prop
  | _, [] => True
  | p, pi :: texts =>
    strcmp toLower (line.drop p) pi.text pi.nocase = true ∧ Compared toLower line (p + pi.text.length) texts

theorem checkParts_texts {texts rest : List (Part α)} (htexts : ∀ pi ∈ texts, pi.param = false) {m m' : Matching}
    (hphi : m.phi ≤ line.length)
    (h : checkParts toLower (Tag.check toLower nested) line keep (texts ++ rest) [] m = some (true, m')) :
    ∃ m₁, checkParts toLower (Tag.check toLower nested) line keep rest [] m₁ = some (true, m') ∧
      m₁.phi = m.phi + textLength texts ∧ m₁.phi ≤ line.length ∧
      m₁.sdstrings = m.sdstrings ++ textPieces m.phi texts ∧ Compared toLower line m.phi texts := by
  induction texts generalizing m with
  | nil => exact ⟨m, h, rfl, hphi, (List.append_nil _).symm, trivial⟩
  | cons pi texts ih =>
    rw [List.cons_append, checkParts, if_neg (by rw [htexts pi List.mem_cons_self]; decide)] at h
    split at h
    · cases h
    next hcmp =>
      split at h
      · cases h
      next hle =>
        obtain ⟨m₁, hrest, hphi₁, hle₁, hpieces, hcompared⟩ :=
          ih (fun pi hpi => htexts pi (List.mem_cons_of_mem _ hpi)) (Nat.not_lt.mp hle) h
        refine ⟨m₁, hrest, ?_, hle₁, ?_, by simpa using hcmp, hcompared⟩
        · rw [hphi₁]
          simp only [textLength, List.map_cons, List.sum_cons, Nat.add_assoc]
        · rw [hpieces, List.append_assoc]
          rfl

theorem checkParts_params {params : List (Part α)} (hparams : ∀ pi ∈ params, pi.param = true) (run : List (Part α))
    (m : Matching) :
    checkParts toLower (Tag.check toLower nested) line keep params run m =
      checkParts toLower (Tag.check toLower nested) line keep [] (run ++ params) m := by
  induction params generalizing run with
  | nil => rw [List.append_nil]
  | cons pi params ih =>
    rw [checkParts_param (hparams pi List.mem_cons_self), ih fun pi hpi => hparams pi (List.mem_cons_of_mem _ hpi),
      List.append_assoc]
    rfl

theorem textPieces_tiles (p : Nat) (texts : List (Part α)) :
    TilesLine p (textPieces p texts) (p + textLength texts) := by
  induction texts generalizing p with
  | nil => rfl
  | cons pi texts ih =>
    refine ⟨rfl, ?_⟩
    have h := ih (p + pi.text.length)
    rwa [Nat.add_assoc] at h

theorem textPieces_param (p : Nat) (texts : List (Part α)) : ∀ s ∈ textPieces p texts, s.param = false := by
  induction texts generalizing p with
  | nil => exact fun _ hs => absurd hs List.not_mem_nil
  | cons pi texts ih =>
    intro s hs
    obtain rfl | hs := List.mem_cons.mp hs
    · rfl
    · exact ih _ s hs

theorem textPieces_inside {p : Nat} {texts : List (Part α)} (hle : p + textLength texts ≤ line.length) :
    ∀ s ∈ textPieces p texts, s.ipos + s.ilen ≤ line.length := by
  induction texts generalizing p with
  | nil => exact fun _ hs => absurd hs List.not_mem_nil
  | cons pi texts ih =>
    rw [textLength, List.map_cons, List.sum_cons, ← Nat.add_assoc] at hle
    intro s hs
    obtain rfl | hs := List.mem_cons.mp hs
    · exact Nat.le_trans (Nat.le_add_right _ _) hle
    · exact ih hle s hs

/-- Compared without case, the texts are there where lower-casing has not moved them. -/
theorem textPieces_isText_iff {p : Nat} {texts : List (Part α)} {nocase : Bool}
    (hnocase : ∀ pi ∈ texts, pi.nocase = true → nocase = true) (hcompared : Compared toLower line p texts) :
    (∀ s ∈ textPieces p texts, IsText toLower nocase s.data (s.range line)) ↔ InPlace toLower line p texts := by
  induction texts generalizing p with
  | nil => exact iff_of_true (fun _ hs => absurd hs List.not_mem_nil) trivial
  | cons pi texts ih =>
    rw [textPieces, List.forall_mem_cons, ih (fun pi hpi => hnocase pi (List.mem_cons_of_mem _ hpi)) hcompared.2,
      InPlace]
    refine and_congr_left fun _ => ?_
    cases hpi : pi.nocase with
    | true =>
      rw [hnocase pi List.mem_cons_self hpi]
      exact ⟨fun h _ => h, fun h => h rfl⟩
    | false =>
      have hcmp := hcompared.1
      simp only [strcmp, hpi, Bdcpp.strcmp, Bool.false_eq_true, if_false, Bool.and_eq_true, List.isPrefixOf_iff_prefix]
        at hcmp
      exact iff_of_true (Or.inl (List.prefix_iff_eq_take.mp hcmp.2).symm) fun h => nomatch h

/-- The parameters behind the texts. -/
theorem checkParts_last {params : List (Part α)} {m m' : Matching} (hphi : m.phi ≤ line.length)
    (h : checkParts toLower (Tag.check toLower nested) line keep [] params m = some (true, m')) :
    ∃ pieces, m'.sdstrings = m.sdstrings ++ pieces ∧ (∀ s ∈ pieces, Lies line s) ∧
      (params = [] → pieces = [] ∧ m.phi = line.length) ∧
      ∀ cur, params = [cur] → TilesLine m.phi pieces (cur.paramlenfixed.elim line.length (m.phi + ·)) ∧
        ∀ n, cur.paramlenfixed = some n → cur.paramlenmin.isSome = false → m.phi + n = line.length := by
  cases params with
  | nil =>
    rw [checkParts, Option.some_inj, Prod.mk.injEq, decide_eq_true_eq] at h
    refine ⟨[], by rw [h.2, List.append_nil], fun _ hs => absurd hs List.not_mem_nil, fun _ => ⟨rfl, h.1⟩, ?_⟩
    exact fun _ h => nomatch h
  | cons cur run =>
    rw [checkParts] at h
    split at h
    · cases h
    next hle =>
      split at h
      · cases h
      next hfixed =>
        have hsum := fixedSum_le (cur :: run)
        obtain ⟨pieces, hpieces, -, hlies, htiles⟩ := checkRun_pieces (Nat.le_refl _) (by omega) h
        refine ⟨pieces, hpieces, hlies, (fun h => nomatch h), ?_⟩
        rintro cur' hcur
        refine ⟨htiles cur' hcur, fun n hn hmin => ?_⟩
        obtain ⟨rfl, rfl⟩ := List.cons.inj hcur
        rw [Option.isSome_eq_false_iff, Option.isNone_iff_eq_none] at hmin
        simp only [fixedLength, combinedLength, List.all_cons, List.all_nil, List.map_cons, List.map_nil, List.sum_cons,
          List.sum_nil, hn, hmin, Option.isSome_some, Option.isNone_none, Option.getD_some, Option.getD_none,
          Bool.and_self, Bool.true_and, decide_eq_true_eq, Nat.add_zero, not_not] at hfixed hle
        omega

/-- The texts before the first parameter, and the rest. -/
theorem exists_texts (parts : List (Part α)) :
    ∃ texts rest, parts = texts ++ rest ∧ (∀ pi ∈ texts, pi.param = false) ∧
      ∀ cur rest', rest = cur :: rest' → cur.param = true := by
  induction parts with
  | nil => exact ⟨[], [], rfl, fun _ h => absurd h List.not_mem_nil, fun _ _ h => nomatch h⟩
  | cons pi parts ih =>
    cases hpi : pi.param with
    | true =>
      refine ⟨[], pi :: parts, rfl, fun _ h => absurd h List.not_mem_nil, ?_⟩
      rintro cur rest' h
      rw [← (List.cons.inj h).1, hpi]
    | false =>
      obtain ⟨texts, rest, rfl, htexts, hrest⟩ := ih
      refine ⟨pi :: texts, rest, rfl, fun qi hqi => ?_, hrest⟩
      obtain rfl | hqi := List.mem_cons.mp hqi
      · exact hpi
      · exact htexts qi hqi

theorem check_eq_true {parts : List (Part α)} {params params' : Option ParamMap} {pieces : List SdExString}
    (h : check toLower (Tag.check toLower nested) parts line params = some (true, pieces, params')) :
    ∃ m : Matching, m.sdstrings = pieces ∧
      checkParts toLower (Tag.check toLower nested) line params.isSome parts [] ⟨0, [], params.getD fun _ => none⟩ =
        some (true, m) := by
  obtain ⟨⟨b, m⟩, hparts, h⟩ := Option.bind_eq_some_iff.mp h
  cases b <;> cases h
  exact ⟨m, rfl, hparts⟩

theorem truePositions_of_placed {parts : List (Part α)} {params params' : Option ParamMap} {pieces : List SdExString}
    (h : check toLower (Tag.check toLower nested) parts line params = some (true, pieces, params'))
    (hplaced : Placed toLower line parts) : TruePositions toLower line parts pieces := by
  obtain ⟨texts, rest, rfl, htexts, hrest, hinplace, hboth⟩ := hplaced
  obtain ⟨m, rfl, hparts⟩ := check_eq_true h
  clear h
  obtain ⟨m₁, h, hphi, hle, hpieces₁, hcompared⟩ := checkParts_texts htexts (Nat.zero_le _) hparts
  rw [Nat.zero_add] at hphi
  rw [List.nil_append] at hpieces₁
  rw [checkParts_params hrest, List.nil_append] at h
  obtain ⟨pieces, hpieces, hlies, hnone, hone⟩ := checkParts_last hle h
  rw [hpieces₁] at hpieces
  have hany : ∀ pi ∈ texts, pi.nocase = true → ((texts ++ rest).any Part.nocase) = true := fun pi hpi hcase =>
    List.any_eq_true.mpr ⟨pi, List.mem_append_left _ hpi, hcase⟩
  have htext := (textPieces_isText_iff hany hcompared).mpr hinplace
  rw [hpieces]
  constructor
  · intro s hs
    obtain hs | hs := List.mem_append.mp hs
    · exact textPieces_inside (by rw [Nat.zero_add, ← hphi]; exact hle) s hs
    · exact (hlies s hs).1
  · intro s hs hparam
    obtain hs | hs := List.mem_append.mp hs
    · exact htext s hs
    · exact Or.inl ((hlies s hs).2 hparam)
  · intro hadjacent
    have htiles := textPieces_tiles 0 texts
    rw [Nat.zero_add, ← hphi] at htiles
    refine tiles_append.mpr ⟨m₁.phi, htiles, ?_⟩
    obtain _ | ⟨cur, _ | ⟨next, rest⟩⟩ := rest
    · obtain ⟨rfl, hend⟩ := hnone rfl
      exact hend
    · obtain ⟨hcur, hfixed⟩ := hone cur rfl
      cases hplf : cur.paramlenfixed with
      | none => rwa [hplf] at hcur
      | some n =>
        rw [hplf, Option.elim_some] at hcur
        have hend : m₁.phi + n = line.length := by
          cases hplm : cur.paramlenmin.isSome with
          | true =>
            rw [hphi]
            exact hboth cur n rfl hplf hplm
          | false => exact hfixed n hplf hplm
        rwa [hend] at hcur
    · have hchain := List.isChain_cons_cons.mp (List.IsChain.right_of_append hadjacent)
      exact absurd ⟨hrest cur (by simp), hrest next (by simp)⟩ hchain.1

theorem placed_of_truePositions {parts : List (Part α)} {params params' : Option ParamMap} {pieces : List SdExString}
    (h : check toLower (Tag.check toLower nested) parts line params = some (true, pieces, params'))
    (hadjacent : NoneAdjacent parts) (htrue : TruePositions toLower line parts pieces) : Placed toLower line parts := by
  obtain ⟨texts, rest, rfl, htexts, hrest⟩ := exists_texts parts
  obtain ⟨m, rfl, hparts⟩ := check_eq_true h
  clear h
  obtain ⟨m₁, h, hphi, hle, hpieces₁, hcompared⟩ := checkParts_texts htexts (Nat.zero_le _) hparts
  rw [Nat.zero_add] at hphi
  rw [List.nil_append] at hpieces₁
  have hany : ∀ pi ∈ texts, pi.nocase = true → ((texts ++ rest).any Part.nocase) = true := fun pi hpi hcase =>
    List.any_eq_true.mpr ⟨pi, List.mem_append_left _ hpi, hcase⟩
  have hinplace : InPlace toLower line 0 texts := by
    rw [← textPieces_isText_iff hany hcompared]
    obtain ⟨more, hmore⟩ := checkParts_extends h
    intro s hs
    refine htrue.texts s ?_ (textPieces_param 0 texts s hs)
    rw [hmore, hpieces₁]
    exact List.mem_append_left _ hs
  have htiles := textPieces_tiles 0 texts
  rw [Nat.zero_add, ← hphi] at htiles
  obtain _ | ⟨cur, _ | ⟨pi, rest⟩⟩ := rest
  · exact ⟨texts, [], rfl, htexts, fun _ hpi => absurd hpi List.not_mem_nil, hinplace, fun _ _ hcur => nomatch hcur⟩
  · have hcur := hrest cur [] rfl
    refine ⟨texts, [cur], rfl, htexts, fun pi hpi => List.mem_singleton.mp hpi ▸ hcur, hinplace, ?_⟩
    intro cur' n hcur' hplf hplm
    obtain ⟨rfl, -⟩ := List.cons.inj hcur'
    rw [checkParts_param hcur] at h
    obtain ⟨pieces, hpieces, -, -, hone⟩ := checkParts_last hle h
    obtain ⟨hone, -⟩ := hone _ rfl
    rw [hplf, Option.elim_some] at hone
    have hall := htrue.tiles hadjacent
    rw [hpieces, hpieces₁] at hall
    change textLength texts + n = line.length
    rw [← hphi]
    exact (tiles_append.mpr ⟨_, htiles, hone⟩).unique hall
  · -- the text behind the parameter is reported behind itself
    have hcur := hrest cur (pi :: rest) rfl
    have hpi : pi.param = false := by
      have hchain := List.isChain_cons_cons.mp (List.IsChain.right_of_append hadjacent)
      exact Bool.eq_false_iff.mpr fun hpi => hchain.1 ⟨hcur, hpi⟩
    rw [checkParts_param hcur, List.nil_append] at h
    obtain ⟨dend, m₂, hne, hdend, hlast, hrun, h⟩ := checkParts_text hpi h
    have hsum := fixedSum_le [cur]
    obtain ⟨pieces, hpieces, hphi₂, -, hone⟩ := checkRun_pieces (by omega) (by omega) hrun
    obtain ⟨more, hmore⟩ := checkParts_extends h
    have hend := hone cur rfl
    have hall := htrue.tiles hadjacent
    rw [hmore, hpieces, hpieces₁, List.append_assoc, List.append_assoc] at hall
    obtain ⟨b, hb, hall⟩ := tiles_append.mp hall
    obtain rfl := hb.unique htiles
    obtain ⟨b, hb, htext, -⟩ := tiles_append.mp hall
    obtain rfl := hb.unique hend
    have hpos := List.length_pos_of_ne_nil hne
    have hplf : cur.paramlenfixed.elim dend (m₁.phi + ·) ≤ dend := by
      cases hplf : cur.paramlenfixed with
      | none => exact Nat.le_refl _
      | some n =>
        simp only [fixedSum, List.map_cons, List.map_nil, List.sum_cons, List.sum_nil, hplf, Option.getD_some] at hsum
        rw [Option.elim_some]
        omega
    have htext' : m₂.phi = cur.paramlenfixed.elim dend (m₁.phi + ·) := htext
    rw [hphi₂] at htext'
    dsimp only at htext'
    omega

end

/-- `to %[a]` -/
def textThenParam : SdEx 1 := [.ofText (str "to ") false, .ofParam (str "a") false]

/-- `%[a]x` -/
def paramThenText : SdEx 1 := [.ofParam (str "a") false, .ofText (str "x") false]

end Dcpp.SdExFull
