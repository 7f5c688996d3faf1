import Dcpp.AdcCommand
import Dcpp.SearchExts
import Mathlib.Algebra.GroupWithZero.Nat
import Mathlib.Data.List.Sort

-- The searches that are sent to an ADC hub, and the groups of extensions in them.
namespace Dcpp.AdcHub

open ShareManager ShareManager.SearchQuery ShareManager.SearchManager

/-- What `search` reads of the hub and of the client. -/
structure SearchContext where
  normal : Bool
  uniqueId : Nat
  enableSUDP : Bool
  isActive : Bool
  isSecure : Bool

/-- The loop over the groups has come so far: the extensions that are still to be added, the mask of the groups and
the extensions that are taken out of them. -/
structure Grouping where
  exts : List Bytes
  gr : Nat
  rx : List Bytes
deriving DecidableEq

/-- The loop over the differences: those that are not in the group stay, and at most two others are taken out. -/
def splitDiff (defs : List Bytes) : List Bytes → List Bytes → Option (List Bytes × List Bytes)
  | [], rx => some ([], rx)
  | diff :: temp, rx =>
    if diff ∉ defs then (splitDiff defs temp rx).map fun r => (diff :: r.1, r.2)
    else if rx.length = 2 then none
    else splitDiff defs temp (rx ++ [diff])

/-- The loop over the groups from the one with the number `i` on. -/
def groupLoop (i : Nat) (g : Grouping) : List (List Bytes) → Grouping
  | [] => g
  | defs :: rest =>
    match splitDiff defs (Ranges.symmetricDifference defs g.exts) [] with
    | none => groupLoop (i + 1) g rest
    | some (temp, rx) =>
      let g' : Grouping := ⟨temp, g.gr + 2 ^ i, rx ++ g.rx⟩
      if temp.length ≤ 2 then g' else groupLoop (i + 1) g' rest

/-- `std::sort`. -/
def sort (exts : List Bytes) : List Bytes := exts.insertionSort fun a b => ¬b < a

def group (aExtList : List Bytes) : Grouping :=
  if aExtList.length > 2 then groupLoop 0 ⟨sort aExtList, 0, []⟩ searchExts else ⟨[], 0, []⟩

def addParams (code : String) (values : List Bytes) (c : AdcCommand) : AdcCommand :=
  { c with parameters := c.parameters ++ values.map fun v => str code ++ v }

def sendSearch (isActive : Bool) (c : AdcCommand) : List AdcCommand :=
  if isActive then [c]
  else
    [{ c with type := .FEATURE, features := c.features ++ str "+TCP4-NAT0" },
      { c with type := .FEATURE, features := c.features ++ str "+NAT0" }]

/-- The parameters that do not depend on the extensions. -/
def searchParams (ctx : SearchContext) (aSizeMode : SizeModes) (aSize : Int64) (aFileType : TypeModes)
    (aString aToken : Bytes) : List Bytes :=
  (str "TO" ++ (Util.toString ctx.uniqueId ++ str "/" ++ aToken)) ::
    ((if aSizeMode = .SIZE_ATLEAST then [str "GE" ++ Util.toString aSize.toInt]
      else if aSizeMode = .SIZE_ATMOST then [str "LE" ++ Util.toString aSize.toInt] else []) ++
    ((tokens (byte ' ') aString).map fun i => str "AN" ++ i) ++
    (if aFileType = .TYPE_DIRECTORY then [str "TY2"] else []))

/-- `search`, which gives the commands that it sends. -/
def search (ctx : SearchContext) (aSizeMode : SizeModes) (aSize : Int64) (aFileType : TypeModes)
    (aString aToken : Bytes) (aExtList : List Bytes) (aKey : Bytes) : List AdcCommand :=
  if !ctx.normal then []
  else
    let key (c : AdcCommand) : AdcCommand :=
      if ctx.enableSUDP && aKey ≠ [] && ctx.isActive && ctx.isSecure then addParams "KY" [aKey] c else c
    let c : AdcCommand := ⟨(byte 'S', byte 'C', byte 'H'), .BROADCAST, 0, 0, [], []⟩
    if aFileType = .TYPE_TTH then
      sendSearch ctx.isActive (key { c with
        parameters := [str "TO" ++ (Util.toString ctx.uniqueId ++ str "/" ++ aToken), str "TR" ++ aString] })
    else
      let c := { c with parameters := searchParams ctx aSizeMode aSize aFileType aString aToken }
      let g := group aExtList
      if g.gr ≠ 0 then
        -- users with the feature do not get the search twice
        sendSearch ctx.isActive (addParams "RX" g.rx (addParams "GR" [Util.toString g.gr] (addParams "EX" g.exts
            { c with type := .FEATURE, features := str "+SEGA" }))) ++
          sendSearch ctx.isActive (key (addParams "EX" aExtList { c with type := .FEATURE, features := str "-SEGA" }))
      else sendSearch ctx.isActive (key (addParams "EX" aExtList c))

section Counts

variable {α : Type*} [BEq α] [LawfulBEq α]

theorem countP_mem_cons {d : α} {defs : List α} (hd : d ∉ defs) (l : List α) :
    l.countP (· ∈ d :: defs) = l.count d + l.countP (· ∈ defs) := by
  induction l with
  | nil => simp
  | cons a l ih =>
    simp only [List.countP_cons, List.count_cons, ih]
    by_cases ha : a = d
    · simp [ha, hd]
      omega
    · by_cases hmem : a ∈ defs <;> simp [ha, hmem]
      omega

theorem countP_mem {defs : List α} (h : defs.Nodup) (l : List α) :
    l.countP (· ∈ defs) = (defs.map fun e => l.count e).sum := by
  induction defs with
  | nil => simp
  | cons d defs ih =>
    obtain ⟨hd, h⟩ := List.nodup_cons.mp h
    rw [countP_mem_cons hd, ih h, List.map_cons, List.sum_cons]

end Counts

/-- The exceptions that a group takes: those of its extensions that the list lacks, and the repetitions of the others. -/
def exceptions (defs exts : List Bytes) : Nat := (defs.map fun e => (1 - exts.count e) + (exts.count e - 1)).sum

theorem exceptions_congr {defs exts exts' : List Bytes} (h : ∀ e ∈ defs, exts.count e = exts'.count e) :
    exceptions defs exts = exceptions defs exts' := by
  apply congrArg List.sum
  apply List.map_congr_left
  intro e he
  rw [h e he]

/-- A list that is much shorter than the group has too many exceptions. -/
theorem length_le_exceptions {defs : List Bytes} (h : defs.Nodup) (exts : List Bytes) :
    defs.length ≤ exceptions defs exts + exts.length := by
  have hcount := List.countP_le_length (p := fun e => decide (e ∈ defs)) (l := exts)
  rw [countP_mem h] at hcount
  refine le_trans ?_ (Nat.add_le_add_left hcount _)
  clear hcount h
  rw [exceptions]
  induction defs with
  | nil => simp
  | cons d defs ih =>
    simp only [List.length_cons, List.map_cons, List.sum_cons]
    omega

theorem splitDiff_eq (defs temp rx : List Bytes) (hrx : rx.length ≤ 2) :
    splitDiff defs temp rx =
      if rx.length + temp.countP (· ∈ defs) ≤ 2 then some (temp.filter (· ∉ defs), rx ++ temp.filter (· ∈ defs))
      else none := by
  induction temp generalizing rx with
  | nil => simp [splitDiff, hrx]
  | cons diff temp ih =>
    rw [splitDiff]
    by_cases hmem : diff ∈ defs
    · by_cases hfull : rx.length = 2
      · simp [hmem, hfull]
      · rw [if_neg (not_not.mpr hmem), if_neg hfull, ih _ (by simp; omega)]
        simp [hmem, Nat.add_assoc, Nat.add_comm 1]
    · rw [if_pos hmem, ih rx hrx]
      by_cases hle : rx.length + temp.countP (· ∈ defs) ≤ 2 <;> simp [hmem, hle]

theorem sorted_sort (exts : List Bytes) : Ranges.Sorted (sort exts) := by
  have : IsTrans Bytes fun a b => ¬b < a := ⟨fun _ _ _ => Ranges.not_lt_trans⟩
  have : Std.Total fun a b : Bytes => ¬b < a := ⟨fun a b => by
    by_cases h : b < a
    · exact Or.inr (asymm_of (· < ·) h)
    · exact Or.inl h⟩
  exact List.pairwise_insertionSort _ exts

theorem count_sort (exts : List Bytes) (e : Bytes) : (sort exts).count e = exts.count e := by
  apply List.Perm.count_eq
  apply List.perm_insertionSort

/-- The group is sent: it takes at most two exceptions. -/
def GroupSent (X defs : List Bytes) : Prop := exceptions defs X ≤ 2

/-- The loop has been over the groups `done`: those that are sent are in the mask, and have left nothing behind
but their exceptions. -/
structure Grouped (X : List Bytes) (done : List (List Bytes)) (g : Grouping) : Prop where
  sorted : Ranges.Sorted g.exts
  count : ∀ e, (∀ defs ∈ done, GroupSent X defs → e ∉ defs) → g.exts.count e = X.count e
  gone : ∀ defs ∈ done, GroupSent X defs → ∀ e ∈ defs, e ∉ g.exts
  rx : ∀ e, e ∈ g.rx ↔ ∃ defs ∈ done, GroupSent X defs ∧ e ∈ defs ∧ X.count e ≠ 1
  bound : g.gr < 2 ^ done.length
  gr : ∀ i (h : i < done.length), g.gr.testBit i = true ↔ GroupSent X done[i]

theorem Grouped.skip {X defs : List Bytes} {done : List (List Bytes)} {g : Grouping} (h : Grouped X done g)
    (hskip : ¬GroupSent X defs) : Grouped X (done ++ [defs]) g := by
  refine ⟨h.sorted, ?_, ?_, ?_, ?_, ?_⟩
  · intro e he
    exact h.count e fun defs' hdefs' => he defs' (List.mem_append_left _ hdefs')
  · intro defs' hdefs' hsent
    obtain hdefs' | hdefs' := List.mem_append.mp hdefs'
    · exact h.gone defs' hdefs' hsent
    · obtain rfl := List.mem_singleton.mp hdefs'
      exact absurd hsent hskip
  · intro e
    rw [h.rx e]
    simp only [List.mem_append, List.mem_singleton, or_and_right, exists_or, exists_eq_left, hskip, false_and, or_false]
  · have hbound := h.bound
    simp only [List.length_append, List.length_singleton, Nat.pow_succ]
    omega
  · intro i hi
    by_cases hlt : i < done.length
    · rw [List.getElem_append_left hlt]
      exact h.gr i hlt
    · have heq : i = done.length := by
        simp at hi
        omega
      subst heq
      simp [Nat.testBit_lt_two_pow h.bound, hskip]

theorem Grouped.skipAll {X : List Bytes} {done rest : List (List Bytes)} {g : Grouping} (h : Grouped X done g)
    (hskip : ∀ defs ∈ rest, ¬GroupSent X defs) : Grouped X (done ++ rest) g := by
  induction rest generalizing done with
  | nil => simpa using h
  | cons defs rest ih =>
    rw [List.append_cons]
    apply ih
    · exact h.skip (hskip defs List.mem_cons_self)
    · exact fun defs' hdefs' => hskip defs' (List.mem_cons_of_mem defs hdefs')

theorem Grouped.add {X defs : List Bytes} {done : List (List Bytes)} {g : Grouping} (h : Grouped X done g)
    (hsent : GroupSent X defs) (hnodup : defs.Nodup) (hdefs : Ranges.Sorted defs)
    (hnew : ∀ defs' ∈ done, ∀ e ∈ defs, e ∉ defs') :
    Grouped X (done ++ [defs]) ⟨(Ranges.symmetricDifference defs g.exts).filter (· ∉ defs), g.gr + 2 ^ done.length,
      (Ranges.symmetricDifference defs g.exts).filter (· ∈ defs) ++ g.rx⟩ := by
  have hcount := Ranges.count_symmetricDifference hdefs h.sorted
  refine ⟨?_, ?_, ?_, ?_, ?_, ?_⟩
  · exact List.Pairwise.filter _ (Ranges.sorted_symmetricDifference hdefs h.sorted)
  · intro e he
    have hmem : e ∉ defs := he defs (by simp) hsent
    rw [List.count_filter (by simpa using hmem), hcount, List.count_eq_zero_of_not_mem hmem,
      h.count e fun defs' hdefs' => he defs' (List.mem_append_left _ hdefs')]
    omega
  · intro defs' hdefs' hsent' e he hmem
    obtain ⟨hmem, hnot⟩ := List.mem_filter.mp hmem
    obtain hdefs' | hdefs' := List.mem_append.mp hdefs'
    · obtain hin | hin := Ranges.mem_of_mem_symmetricDifference hdefs h.sorted hmem
      · exact hnew defs' hdefs' e hin he
      · exact h.gone defs' hdefs' hsent' e he hin
    · obtain rfl := List.mem_singleton.mp hdefs'
      simp [he] at hnot
  · intro e
    have hown : e ∈ (Ranges.symmetricDifference defs g.exts).filter (· ∈ defs) ↔ e ∈ defs ∧ X.count e ≠ 1 := by
      rw [List.mem_filter, ← List.count_pos_iff, hcount, decide_eq_true_eq]
      refine ⟨fun ⟨hpos, hmem⟩ => ⟨hmem, ?_⟩, fun ⟨hmem, hne⟩ => ⟨?_, hmem⟩⟩
      all_goals
        rw [h.count e fun defs' hdefs' _ => hnew defs' hdefs' e hmem, List.count_eq_one_of_mem hnodup hmem] at *
        omega
    rw [List.mem_append, hown, h.rx e]
    simp only [List.mem_append, List.mem_singleton, or_and_right, exists_or, exists_eq_left, hsent, true_and]
    exact or_comm
  · have hbound := h.bound
    simp only [List.length_append, List.length_singleton, Nat.pow_succ]
    omega
  · intro i hi
    rw [Nat.add_comm g.gr]
    by_cases hlt : i < done.length
    · rw [List.getElem_append_left hlt, Nat.testBit_two_pow_add_gt hlt]
      exact h.gr i hlt
    · have heq : i = done.length := by
        simp at hi
        omega
      subst heq
      simp [Nat.testBit_two_pow_add_eq, Nat.testBit_lt_two_pow h.bound, hsent]

/-- A list of at most two extensions takes up no group. -/
theorem not_sent_of_short {X defs : List Bytes} {done : List (List Bytes)} {g : Grouping} (h : Grouped X done g)
    (hshort : g.exts.length ≤ 2) (hnodup : defs.Nodup) (hlen : 5 ≤ defs.length)
    (hnew : ∀ defs' ∈ done, ∀ e ∈ defs, e ∉ defs') : ¬GroupSent X defs := by
  intro hsent
  have hle := length_le_exceptions hnodup g.exts
  have hsame : exceptions defs g.exts = exceptions defs X := by
    apply exceptions_congr
    exact fun e he => h.count e fun defs' hdefs' _ => hnew defs' hdefs' e he
  rw [GroupSent] at hsent
  omega

theorem groupLoop_grouped {X : List Bytes} {done rest : List (List Bytes)} {g : Grouping} (h : Grouped X done g)
    (hrest : ∀ defs ∈ rest, Ranges.Sorted defs ∧ defs.Nodup ∧ 5 ≤ defs.length)
    (hnew : (done ++ rest).Pairwise fun defs' defs => ∀ e ∈ defs, e ∉ defs') :
    Grouped X (done ++ rest) (groupLoop done.length g rest) := by
  induction rest generalizing done g with
  | nil => simpa [groupLoop] using h
  | cons defs rest ih =>
    obtain ⟨hsorted, hnodup, hlen⟩ := hrest defs List.mem_cons_self
    have hrest' := fun defs' hdefs' => hrest defs' (List.mem_cons_of_mem defs hdefs')
    have hnewDefs : ∀ defs' ∈ done, ∀ e ∈ defs, e ∉ defs' := fun defs' hdefs' =>
      (List.pairwise_append.mp hnew).2.2 defs' hdefs' defs List.mem_cons_self
    have hcount : (Ranges.symmetricDifference defs g.exts).countP (· ∈ defs) = exceptions defs X := by
      rw [countP_mem hnodup, exceptions]
      apply congrArg List.sum
      apply List.map_congr_left
      intro e he
      rw [Ranges.count_symmetricDifference hsorted h.sorted, List.count_eq_one_of_mem hnodup he,
        h.count e fun defs' hdefs' _ => hnewDefs defs' hdefs' e he]
    rw [groupLoop, splitDiff_eq _ _ _ (by simp), hcount, List.length_nil, Nat.zero_add, List.nil_append]
    rw [List.append_cons] at hnew ⊢
    have hlength : (done ++ [defs]).length = done.length + 1 := by simp
    by_cases hsent : exceptions defs X ≤ 2
    · have hadd := h.add hsent hnodup hsorted hnewDefs
      rw [if_pos hsent]
      dsimp only
      split
      next hshort =>
        apply hadd.skipAll
        intro defs' hdefs'
        obtain ⟨-, hnodup', hlen'⟩ := hrest' defs' hdefs'
        apply not_sent_of_short hadd hshort hnodup' hlen'
        exact fun defs'' hdefs'' => (List.pairwise_append.mp hnew).2.2 defs'' hdefs'' defs' hdefs'
      next =>
        rw [← hlength]
        exact ih hadd hrest' hnew
    · rw [if_neg hsent]
      dsimp only
      rw [← hlength]
      exact ih (h.skip hsent) hrest' hnew

theorem group_grouped (X : List Bytes) :
    (group X).gr = 0 ∧ (∀ defs ∈ searchExts, ¬GroupSent X defs) ∨ (group X).gr ≠ 0 ∧ Grouped X searchExts (group X) := by
  have hgroups : ∀ defs ∈ searchExts, Ranges.Sorted defs ∧ defs.Nodup ∧ 5 ≤ defs.length := by
    unfold Ranges.Sorted
    decide +kernel
  rw [group]
  split
  next hlong =>
    have hstart : Grouped X [] ⟨sort X, 0, []⟩ := by
      refine ⟨sorted_sort X, fun e _ => count_sort X e, ?_, ?_, ?_, ?_⟩ <;> simp
    have h := groupLoop_grouped hstart hgroups (by decide +kernel)
    rw [List.nil_append, List.length_nil] at h
    by_cases hgr : (groupLoop 0 ⟨sort X, 0, []⟩ searchExts).gr = 0
    · refine Or.inl ⟨hgr, fun defs hdefs hsent => ?_⟩
      obtain ⟨i, hi, rfl⟩ := List.getElem_of_mem hdefs
      have hbit := (h.gr i hi).mpr hsent
      simp [hgr] at hbit
    · exact Or.inr ⟨hgr, h⟩
  next hshort =>
    refine Or.inl ⟨rfl, fun defs hdefs hsent => ?_⟩
    obtain ⟨-, hnodup, hlen⟩ := hgroups defs hdefs
    have hle := length_le_exceptions hnodup X
    rw [GroupSent] at hsent
    omega

theorem mem_parseSearchExts (gr : Nat) (e : Bytes) :
    e ∈ parseSearchExts gr ↔ ∃ i, ∃ h : i < searchExts.length, gr.testBit i = true ∧ e ∈ searchExts[i] := by
  have hbit : ∀ i, ((gr : Int) / 2 ^ i % 2 = 1 ↔ gr.testBit i = true) := by
    intro i
    rw [Nat.testBit_eq_decide_div_mod_eq, decide_eq_true_eq]
    norm_cast
  simp only [parseSearchExts, List.mem_flatten, List.mem_reverse, List.mem_mapIdx, hbit]
  constructor
  · rintro ⟨_, ⟨i, hi, rfl⟩, he⟩
    split at he
    next h => exact ⟨i, hi, h, he⟩
    next => simp at he
  · rintro ⟨i, hi, h, he⟩
    exact ⟨_, ⟨i, hi, rfl⟩, by simpa [h] using he⟩

@[simp]
theorem values_append (code : String) (as bs : List Bytes) : values code (as ++ bs) = values code as ++ values code bs := by
  simp [values]

theorem values_map {code code' : String} (hlen : (str code').length = 2) (l : List Bytes) :
    values code (l.map fun v => str code' ++ v) = if str code' = str code then l else [] := by
  simp only [values, List.filterMap_map, Function.comp_def]
  rw [← hlen]
  split <;> simp [*]

/-- The extensions of the groups that are named. -/
def named (params : List Bytes) : List Bytes := (values "GR" params).flatMap fun v => parseSearchExts (Util.toInt v)

/-- The parameters denote the extensions: those of the groups without the exceptions, and the single ones. -/
def Means (params exts : List Bytes) : Prop :=
  (∀ e, e ∈ named params ∧ e ∉ values "RX" params ∨ e ∈ values "EX" params ↔ e ∈ exts) ∧
    ∀ e ∈ values "RX" params, e ∉ exts

theorem values_searchParams {code : String} (hcode : code ∈ ["EX", "GR", "RX"]) (ctx : SearchContext)
    (aSizeMode : SizeModes) (aSize : Int64) (aFileType : TypeModes) (aString aToken : Bytes) :
    values code (searchParams ctx aSizeMode aSize aFileType aString aToken) = [] := by
  have hne : ∀ c ∈ ["EX", "GR", "RX"], str "TO" ≠ str c ∧ str "GE" ≠ str c ∧ str "LE" ≠ str c ∧ str "AN" ≠ str c ∧
      str "TY" ≠ str c := by decide
  obtain ⟨hto, hge, hle, han, hty⟩ := hne code hcode
  rw [searchParams, values_cons, values_append, values_append, values_map (by decide)]
  have htype : (str "TY2").take 2 = str "TY" := by decide
  simp only [List.take_left' (show (str "TO").length = 2 by decide), hto, han, if_false, List.nil_append, List.append_nil]
  split
  next => split <;> simp [values, hge, hty, htype, List.take_left' (show (str "GE").length = 2 by decide)]
  next =>
    split
    next => split <;> simp [values, hle, hty, htype, List.take_left' (show (str "LE").length = 2 by decide)]
    next => split <;> simp [values, hty, htype]

theorem forall_sendSearch (isActive : Bool) (c : AdcCommand) (P : List Bytes → Prop) :
    (∀ c' ∈ sendSearch isActive c, P c'.parameters) ↔ P c.parameters := by
  cases isActive <;> simp [sendSearch]

theorem means_single {params exts : List Bytes} (hgr : values "GR" params = []) (hrx : values "RX" params = [])
    (hex : values "EX" params = exts) : Means params exts := by
  simp [Means, named, hgr, hrx, hex]

/-- With the groups that are sent, the parameters denote the list exactly when it repeats nothing that is in one. -/
theorem means_grouped_iff {X params : List Bytes} {g : Grouping} (h : Grouped X searchExts g)
    (hgr : values "GR" params = [Util.toString g.gr]) (hrx : values "RX" params = g.rx)
    (hex : values "EX" params = g.exts) :
    Means params X ↔ ∀ defs ∈ searchExts, GroupSent X defs → ∀ e ∈ defs, X.count e ≤ 1 := by
  have hbound : g.gr < 64 := h.bound
  have hnamed : ∀ e, e ∈ named params ↔ ∃ defs ∈ searchExts, GroupSent X defs ∧ e ∈ defs := by
    intro e
    rw [named, hgr, List.flatMap_singleton, Util.toInt_toString (by omega) (by omega), mem_parseSearchExts]
    constructor
    · rintro ⟨i, hi, hbit, he⟩
      exact ⟨searchExts[i], List.getElem_mem hi, (h.gr i hi).mp hbit, he⟩
    · rintro ⟨defs, hdefs, hsent, he⟩
      obtain ⟨i, hi, rfl⟩ := List.getElem_of_mem hdefs
      exact ⟨i, hi, (h.gr i hi).mpr hsent, he⟩
  simp only [Means, hrx, hex, hnamed, h.rx]
  constructor
  · rintro ⟨-, hapart⟩ defs hdefs hsent e he
    by_contra hmany
    apply hapart e ⟨defs, hdefs, hsent, he, by omega⟩
    apply List.count_pos_iff.mp
    omega
  · intro hcount
    constructor
    · intro e
      rw [← List.count_pos_iff (l := X)]
      by_cases hin : ∃ defs ∈ searchExts, GroupSent X defs ∧ e ∈ defs
      · obtain ⟨defs, hdefs, hsent, he⟩ := hin
        have hle := hcount defs hdefs hsent e he
        have hgone := h.gone defs hdefs hsent e he
        constructor
        · rintro (⟨-, hnot⟩ | hmem)
          · by_contra hzero
            exact hnot ⟨defs, hdefs, hsent, he, by omega⟩
          · exact absurd hmem hgone
        · intro hpos
          refine Or.inl ⟨⟨defs, hdefs, hsent, he⟩, ?_⟩
          rintro ⟨-, -, -, -, hne⟩
          omega
      · have hsame := h.count e fun defs hdefs hsent he => hin ⟨defs, hdefs, hsent, he⟩
        rw [← hsame, List.count_pos_iff]
        simp [hin]
    · rintro e ⟨defs, hdefs, hsent, he, hne⟩ hmem
      have hle := hcount defs hdefs hsent e he
      have hpos := List.count_pos_iff.mpr hmem
      omega

theorem values_addParams {code code' : String} (hlen : (str code').length = 2) (l : List Bytes) (c : AdcCommand) :
    values code (addParams code' l c).parameters =
      values code c.parameters ++ if str code' = str code then l else [] := by
  rw [addParams, values_append, values_map hlen]

/-- A command has no parameter for extensions yet. -/
def Bare (c : AdcCommand) : Prop := ∀ code ∈ ["EX", "GR", "RX"], values code c.parameters = []

theorem codes_ne : str "EX" ≠ str "GR" ∧ str "EX" ≠ str "RX" ∧ str "GR" ≠ str "RX" := by decide

theorem means_addEx {c : AdcCommand} (h : Bare c) (exts : List Bytes) : Means (addParams "EX" exts c).parameters exts := by
  obtain ⟨heg, her, -⟩ := codes_ne
  apply means_single <;> rw [values_addParams (by decide), h _ (by decide)]
  · simp [heg]
  · simp [her]
  · simp

theorem means_addKey {c : AdcCommand} {exts : List Bytes} (h : Means c.parameters exts) (aKey : Bytes) :
    Means (addParams "KY" [aKey] c).parameters exts := by
  have hsame : ∀ code ∈ ["EX", "GR", "RX"], values code (addParams "KY" [aKey] c).parameters = values code c.parameters := by
    intro code hcode
    have hne : ∀ code ∈ ["EX", "GR", "RX"], str "KY" ≠ str code := by decide
    rw [values_addParams (by decide), if_neg (hne code hcode), List.append_nil]
  rw [Means, named, hsame "EX" (by decide), hsame "GR" (by decide), hsame "RX" (by decide)]
  exact h

theorem means_addGroups_iff {c : AdcCommand} {X : List Bytes} {g : Grouping} (hc : Bare c)
    (h : Grouped X searchExts g) :
    Means (addParams "RX" g.rx (addParams "GR" [Util.toString g.gr] (addParams "EX" g.exts c))).parameters X ↔
      ∀ defs ∈ searchExts, GroupSent X defs → ∀ e ∈ defs, X.count e ≤ 1 := by
  obtain ⟨heg, her, hgr⟩ := codes_ne
  have hlen : (str "EX").length = 2 ∧ (str "GR").length = 2 ∧ (str "RX").length = 2 := by decide
  obtain ⟨hlenEx, hlenGr, hlenRx⟩ := hlen
  apply means_grouped_iff h <;> rw [values_addParams hlenRx, values_addParams hlenGr, values_addParams hlenEx]
  · simp [hc "GR" (by decide), heg, hgr.symm]
  · simp [hc "RX" (by decide), her, hgr]
  · simp [hc "EX" (by decide), heg.symm, her.symm]

/-- What a search sends denotes its extensions exactly when no group that takes at most two exceptions has an
extension that the list repeats. -/
theorem search_means_iff (ctx : SearchContext) (aSizeMode : SizeModes) (aSize : Int64) (aFileType : TypeModes)
    (aString aToken : Bytes) (aExtList : List Bytes) (aKey : Bytes) (hnormal : ctx.normal = true)
    (htype : aFileType ≠ .TYPE_TTH) :
    (∀ c ∈ search ctx aSizeMode aSize aFileType aString aToken aExtList aKey, Means c.parameters aExtList) ↔
      ∀ defs ∈ searchExts, GroupSent aExtList defs → ∀ e ∈ defs, aExtList.count e ≤ 1 := by
  have hbare : ∀ t features, Bare ⟨(byte 'S', byte 'C', byte 'H'), t, 0, 0, features,
      searchParams ctx aSizeMode aSize aFileType aString aToken⟩ :=
    fun t features code hcode => values_searchParams hcode ctx aSizeMode aSize aFileType aString aToken
  rw [search, hnormal]
  simp only [htype, Bool.not_true, Bool.false_eq_true, if_false]
  obtain ⟨hzero, hnone⟩ | ⟨hne, h⟩ := group_grouped aExtList
  · simp only [hzero, ne_eq, not_true_eq_false, if_false, forall_sendSearch _ _ (Means · aExtList)]
    refine iff_of_true ?_ fun defs hdefs hsent => absurd hsent (hnone defs hdefs)
    split
    · exact means_addKey (means_addEx (hbare _ _) aExtList) aKey
    · exact means_addEx (hbare _ _) aExtList
  · simp only [hne, ne_eq, not_false_eq_true, if_true, List.forall_mem_append,
      forall_sendSearch _ _ (Means · aExtList)]
    rw [means_addGroups_iff (hbare _ _) h, and_iff_left_iff_imp]
    intro _
    split
    · exact means_addKey (means_addEx (hbare _ _) aExtList) aKey
    · exact means_addEx (hbare _ _) aExtList

/-- A group as a whole, which nothing is repeated of. -/
theorem search_means_iff_group :
    search ⟨true, 1, false, true, false⟩ .SIZE_DONTCARE 0 .TYPE_ANY (str "song") (str "1") (searchExts.headD []) [] ≠ [] ∧
      ∀ c ∈ search ⟨true, 1, false, true, false⟩ .SIZE_DONTCARE 0 .TYPE_ANY (str "song") (str "1") (searchExts.headD []) [],
        Means c.parameters (searchExts.headD []) := by
  refine ⟨by decide +kernel, ?_⟩
  refine (search_means_iff ⟨true, 1, false, true, false⟩ .SIZE_DONTCARE 0 .TYPE_ANY (str "song") (str "1")
    (searchExts.headD []) [] rfl (by decide)).mpr ?_
  unfold GroupSent
  decide +kernel

/-- An extension of a group that is given twice is taken out of the group. -/
theorem not_search_means : ¬∀ ctx aSizeMode aSize aFileType aString aToken aExtList aKey, ctx.normal = true →
    aFileType ≠ .TYPE_TTH →
    ∀ c ∈ search ctx aSizeMode aSize aFileType aString aToken aExtList aKey, Means c.parameters aExtList := by
  intro h
  have hall := h ⟨true, 1, false, true, false⟩ .SIZE_DONTCARE 0 .TYPE_ANY (str "song") (str "1")
    (searchExts.headD [] ++ [str "mp3"]) [] rfl (by decide)
  have hmeans := hall ⟨(byte 'S', byte 'C', byte 'H'), .FEATURE, 0, 0, str "+SEGA",
    [str "TO1/1", str "ANsong", str "GR1", str "RXmp3"]⟩ (by decide +kernel)
  exact hmeans.2 (str "mp3") (by decide +kernel) (by decide +kernel)

end Dcpp.AdcHub
