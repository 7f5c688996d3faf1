import Dcpp.Library.Ranges
import Dcpp.ShareIndexed
import Dcpp.ShareSearch

-- Which extensions a query lets through, over the names that are tested in turn.
namespace Dcpp.ShareManager.SearchQuery

open Directory

variable (p : Platform)

theorem setDifference_eq (as bs : List Bytes) : setDifference as bs = Ranges.difference as bs := by
  fun_induction setDifference as bs with
  | case1 => simp [Ranges.difference]
  | case2 => simp [Ranges.difference]
  | case3 a as b bs hlt ih => rw [Ranges.difference, if_pos hlt, ih]
  | case4 a as b bs hlt hgt ih => rw [Ranges.difference, if_neg hlt, if_pos hgt, ih]
  | case5 a as b bs hlt hgt ih => rw [Ranges.difference, if_neg hlt, if_neg hgt, ih]

/-- The values of the parameters with a code. -/
def values (code : String) (params : List Bytes) : List Bytes :=
  params.filterMap fun a => if a.take 2 = str code then some (a.drop 2) else none

/-- The parameters that a query is made of: those with a value, up to a root. -/
def effective (adcParams : List Bytes) : List Bytes :=
  (adcParams.filter fun a => 2 < a.length).takeWhile fun a => a.take 2 ≠ str "TR"

/-- The extensions of the groups and those of `EX`, in the order in which the query has them. -/
def requested (adcParams : List Bytes) : List Bytes :=
  ((values "GR" (effective adcParams)).map fun v => parseSearchExts (Util.toInt v)).reverse.flatten ++
    (values "EX" (effective adcParams)).map p.toLower

def excluded (adcParams : List Bytes) : List Bytes := (values "RX" (effective adcParams)).map p.toLower

theorem values_cons (code : String) (a : Bytes) (params : List Bytes) :
    values code (a :: params) = (if a.take 2 = str code then [a.drop 2] else []) ++ values code params := by
  by_cases h : a.take 2 = str code <;> simp [values, h]

/-- What a parameter does to the extensions. -/
theorem adcParam_exts (q : SearchQuery) (a : Bytes) :
    (adcParam p q a).ext = (if a.take 2 = str "GR" then parseSearchExts (Util.toInt (a.drop 2)) else []) ++ q.ext ++
        (if a.take 2 = str "EX" then [p.toLower (a.drop 2)] else []) ∧
      (adcParam p q a).noExt = q.noExt ++ if a.take 2 = str "RX" then [p.toLower (a.drop 2)] else [] := by
  have hgx : str "EX" ≠ str "GR" := by decide
  have hrx : str "EX" ≠ str "RX" := by decide
  have hgr : str "GR" ≠ str "RX" := by decide
  rw [adcParam]
  generalize a.take 2 = cmd
  by_cases hex : cmd = str "EX"
  · subst hex
    rw [if_neg (by decide), if_neg (by decide)]
    simp [hgx, hrx]
  · by_cases hgroup : cmd = str "GR"
    · subst hgroup
      rw [if_neg (by decide), if_neg (by decide)]
      simp [hgx.symm, hgr]
    · by_cases hno : cmd = str "RX"
      · subst hno
        rw [if_neg (by decide), if_neg (by decide)]
        simp [hrx.symm, hgr.symm]
      · simp only [hex, hgroup, hno, if_false, List.nil_append, List.append_nil]
        repeat' split
        all_goals exact ⟨rfl, rfl⟩

theorem ofAdc_exts (q : SearchQuery) (adcParams : List Bytes) :
    (ofAdc p q adcParams).ext =
        ((values "GR" (effective adcParams)).map fun v => parseSearchExts (Util.toInt v)).reverse.flatten ++ q.ext ++
          (values "EX" (effective adcParams)).map p.toLower ∧
      (ofAdc p q adcParams).noExt = q.noExt ++ (values "RX" (effective adcParams)).map p.toLower := by
  induction adcParams generalizing q with
  | nil => simp [ofAdc, effective, values]
  | cons a adcParams ih =>
    rw [ofAdc]
    by_cases hlen : a.length ≤ 2
    · have heff : effective (a :: adcParams) = effective adcParams := by simp [effective, Nat.not_lt.mpr hlen]
      rw [if_pos hlen, heff]
      exact ih q
    · by_cases hroot : a.take 2 = str "TR"
      · have heff : effective (a :: adcParams) = [] := by simp [effective, Nat.not_le.mp hlen, hroot]
        rw [if_neg hlen, if_pos hroot, heff]
        simp [values]
      · have heff : effective (a :: adcParams) = a :: effective adcParams := by
          simp [effective, Nat.not_le.mp hlen, hroot]
        obtain ⟨hext, hnoExt⟩ := adcParam_exts p q a
        obtain ⟨ihext, ihnoExt⟩ := ih (adcParam p q a)
        rw [if_neg hlen, if_neg hroot, heff, ihext, ihnoExt, hext, hnoExt, values_cons, values_cons, values_cons]
        constructor
        · split <;> split <;> simp
        · split <;> simp

/-- Whether a name passes after others have been tested. -/
def verdict (q : SearchQuery) (tested : List Bytes) (name : Bytes) : Bool :=
  ((tested.foldl (fun q n => (q.hasExt p n).2) q).hasExt p name).1

def fileExt (name : Bytes) : Bytes := p.toLower ((getExt name).drop 1)

/-- What the parameters ask for. -/
def Accepts (adcParams : List Bytes) (name : Bytes) : Prop :=
  requested p adcParams = [] ∨
    getExt name ≠ [] ∧ fileExt p name ∈ requested p adcParams ∧ fileExt p name ∉ excluded p adcParams

/-- Some file can have the extension. -/
def Borne (e : Bytes) : Prop := ∃ name, getExt name ≠ [] ∧ fileExt p name = e

/-- Both lists are gone through side by side, as they stand: every excluded extension is met, and something is
left. -/
def TakenOut (ext noExt : List Bytes) : Prop :=
  Ranges.Meets (fun e => e ∈ noExt ∧ Borne p e) ext noExt ∧ ¬Ranges.Meets (fun _ => True) ext noExt

/-- Sorted lists that repeat nothing are in order, unless everything is excluded. -/
theorem takenOut_of_sorted {ext noExt : List Bytes} (hs : Ranges.Sorted ext) (hs' : Ranges.Sorted noExt)
    (hcount : ∀ e ∈ noExt, ext.count e ≤ noExt.count e) (hleft : ∃ e ∈ ext, e ∉ noExt) : TakenOut p ext noExt := by
  have hmeets := Ranges.meets_of_sorted hs hs' hcount
  rw [← Ranges.forall_difference_iff] at hmeets
  rw [TakenOut, ← Ranges.forall_difference_iff, ← Ranges.forall_difference_iff]
  constructor
  · exact fun e he h => hmeets e he h.1
  · intro hnone
    obtain ⟨e, he, hno⟩ := hleft
    exact hnone e (Ranges.mem_difference_of_notMem he hno) trivial

theorem hasExt_settled {q : SearchQuery} (h : q.noExt = [] ∨ q.ext = []) (name : Bytes) : (q.hasExt p name).2 = q := by
  rw [hasExt]
  split
  next => rfl
  next hne => simp [h.resolve_right hne]

theorem foldl_hasExt_settled {q : SearchQuery} (h : q.noExt = [] ∨ q.ext = []) (tested : List Bytes) :
    tested.foldl (fun q n => (q.hasExt p n).2) q = q := by
  induction tested with
  | nil => rfl
  | cons n tested ih => rw [List.foldl_cons, hasExt_settled p h, ih]

/-- The first test takes the excluded extensions out, and gives the same answer as if they had been out before. -/
theorem hasExt_first {q : SearchQuery} (hext : q.ext ≠ []) (name : Bytes) :
    q.hasExt p name = (decide (getExt name ≠ [] ∧ fileExt p name ∈ setDifference q.ext q.noExt),
      { q with ext := setDifference q.ext q.noExt, noExt := [] }) := by
  have hnil : ∀ l : List Bytes, setDifference l [] = l := by
    intro l
    cases l <;> simp [setDifference]
  rw [hasExt, if_neg hext]
  by_cases hno : q.noExt = []
  · have hq : { q with ext := setDifference q.ext q.noExt, noExt := [] } = q := by
      rw [hno, hnil]
      exact congrArg (fun l => { q with noExt := l }) hno.symm
    rw [hq, hno, hnil]
    simp [fileExt]
  · simp [hno, fileExt]

/-- A query that excludes something from what it asks for: the tests are as asked for, whatever was tested before,
exactly when that is taken out and something is left. -/
theorem verdict_excluding_iff {q : SearchQuery} (hext : q.ext ≠ []) :
    (∀ tested name, verdict p q tested name = true ↔ getExt name ≠ [] ∧ fileExt p name ∈ q.ext ∧ fileExt p name ∉ q.noExt) ↔
      TakenOut p q.ext q.noExt := by
  let ext := setDifference q.ext q.noExt
  have hfirst := fun name => hasExt_first p hext name
  have hsettled : ∀ n tested name, verdict p q (n :: tested) name =
      ((⟨q.includeInit, q.exclude, ext, [], q.gt, q.lt, q.root, q.isDirectory⟩ : SearchQuery).hasExt p name).1 := by
    intro n tested name
    rw [verdict, List.foldl_cons, hfirst n, foldl_hasExt_settled p (Or.inl rfl)]
  have hmeets : ∀ P : Bytes → Prop, (∀ e ∈ ext, ¬P e) ↔ Ranges.Meets P q.ext q.noExt := by
    intro P
    rw [← Ranges.forall_difference_iff, ← setDifference_eq]
  have hnone : ext = [] ↔ Ranges.Meets (fun _ => True) q.ext q.noExt := by
    rw [← hmeets, List.eq_nil_iff_forall_not_mem]
    simp
  rw [TakenOut, ← hmeets, ← hnone]
  constructor
  · intro h
    constructor
    · rintro e he ⟨hno, name, hname, rfl⟩
      have hpass := (h [] name).mp
      rw [verdict, List.foldl_nil, hfirst, decide_eq_true_eq] at hpass
      exact (hpass ⟨hname, he⟩).2.2 hno
    · intro hnil
      have hpass := (h [[]] []).mp
      rw [hsettled, hnil] at hpass
      exact (hpass rfl).1 rfl
  · rintro ⟨hout, hleft⟩ tested name
    have hmem : getExt name ≠ [] → (fileExt p name ∈ ext ↔ fileExt p name ∈ q.ext ∧ fileExt p name ∉ q.noExt) := by
      intro hname
      constructor
      · intro he
        refine ⟨?_, fun hno => hout _ he ⟨hno, name, hname, rfl⟩⟩
        apply Ranges.mem_of_mem_difference
        rw [← setDifference_eq]
        exact he
      · rintro ⟨he, hno⟩
        change fileExt p name ∈ setDifference q.ext q.noExt
        rw [setDifference_eq]
        exact Ranges.mem_difference_of_notMem he hno
    have hanswer : verdict p q tested name = decide (getExt name ≠ [] ∧ fileExt p name ∈ ext) := by
      cases tested with
      | nil => rw [verdict, List.foldl_nil, hfirst]
      | cons n tested =>
        rw [hsettled, hasExt, if_neg hleft]
        simp [fileExt]
    rw [hanswer, decide_eq_true_eq]
    exact and_congr_right hmem

/-- The verdicts are what the parameters ask for, whatever was tested before, exactly when nothing is asked for or
excluded, or when what is excluded is taken out of what is asked for and something is left. -/
theorem verdict_iff (adcParams : List Bytes) :
    (∀ tested name, verdict p (ofAdc p empty adcParams) tested name = true ↔ Accepts p adcParams name) ↔
      (requested p adcParams = [] ∨ excluded p adcParams = [] ∨
        TakenOut p (requested p adcParams) (excluded p adcParams)) := by
  obtain ⟨hext, hnoExt⟩ := ofAdc_exts p empty adcParams
  have hext : (ofAdc p empty adcParams).ext = requested p adcParams := by simpa [empty, requested] using hext
  have hnoExt : (ofAdc p empty adcParams).noExt = excluded p adcParams := by simpa [empty, excluded] using hnoExt
  by_cases hreq : requested p adcParams = []
  · refine iff_of_true (fun tested name => ?_) (Or.inl hreq)
    have hnil : (ofAdc p empty adcParams).ext = [] := hext.trans hreq
    rw [verdict, foldl_hasExt_settled p (Or.inr hnil), hasExt, if_pos hnil]
    exact iff_of_true rfl (Or.inl hreq)
  · have hne : (ofAdc p empty adcParams).ext ≠ [] := fun h => hreq (hext.symm.trans h)
    have hiff := verdict_excluding_iff p hne
    rw [hext, hnoExt] at hiff
    simp only [Accepts, hreq, false_or, hiff]
    refine ⟨Or.inr, fun h => h.elim (fun hno => ?_) id⟩
    -- without an exclusion nothing is taken out
    rw [TakenOut, hno, ← Ranges.forall_difference_iff, ← Ranges.forall_difference_iff]
    have hnil : Ranges.difference (requested p adcParams) [] = requested p adcParams := by
      cases requested p adcParams <;> simp [Ranges.difference]
    rw [hnil]
    refine ⟨fun e _ h => absurd h.1 List.not_mem_nil, fun h => hreq ?_⟩
    exact List.eq_nil_iff_forall_not_mem.mpr fun e he => h e he trivial

/-- The larger extension comes first, and the one that is excluded stays. -/
theorem not_verdict : ¬∀ p adcParams tested name,
    verdict p (ofAdc p empty adcParams) tested name = true ↔ Accepts p adcParams name := by
  intro h
  have hpass := (h ascii [str "EXmp3", str "EXavi", str "RXavi"] [] (str "film.avi")).mp (by decide +kernel)
  obtain hnone | ⟨-, -, hno⟩ := hpass
  · exact absurd hnone (by decide +kernel)
  · exact hno (by decide +kernel)

end Dcpp.ShareManager.SearchQuery
