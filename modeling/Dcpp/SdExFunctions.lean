import Dcpp.Library.Erase
import Dcpp.SdExFull

-- When the functions of the tags that change data end without an exception, and what they leave of the data.
namespace Dcpp.SdExFull

open Bdcpp Erase

section Positions

theorem size_t_of_nonneg {i : Int32} (h : 0 ≤ i) : (size_t i : Int) = i.toInt := by
  have hlo : 0 ≤ i.toInt := Int32.le_iff_toInt_le.mp h
  have hhi := i.toInt_lt
  rw [size_t, Int.toNat_of_nonneg (Int.emod_nonneg _ (by decide))]
  omega

theorem size_t_of_neg {i : Int32} (h : i < 0) : (size_t i : Int) = 2 ^ 64 + i.toInt := by
  have hhi : i.toInt < 0 := Int32.lt_iff_toInt_lt.mp h
  have hlo := i.le_toInt
  rw [size_t, Int.toNat_of_nonneg (Int.emod_nonneg _ (by decide))]
  omega

/-- The position does not count back from the end to behind the beginning. -/
def InReach (int32s : List Int32) (size : Nat) : Prop :=
  let i := int32s.headD 0
  i < 0 → i ≤ Int32.ofNat size → 0 ≤ Int32.ofNat size + i

instance (int32s : List Int32) (size : Nat) : Decidable (InReach int32s size) := by
  rw [InReach]
  infer_instance

theorem toInt_ofNat_le (size : Nat) : (Int32.ofNat size).toInt ≤ size := by
  rw [Int32.toInt_ofNat', Int.bmod_def]
  dsimp only [Int32.size]
  split_ifs
  all_goals omega

theorem position_le_iff (int32s : List Int32) {size : Nat} (hsize : size < 2 ^ 63) :
    position int32s size ≤ size ↔ InReach int32s size := by
  rw [position, InReach]
  generalize int32s.headD 0 = i
  split_ifs with hgt hneg
  · exact iff_of_true (Nat.le_refl _) fun _ hle => absurd hgt (Int32.not_lt.mpr hle)
  · have hle := Int32.not_lt.mp hgt
    constructor
    · intro h _ _
      by_contra hsum
      have hpos := size_t_of_neg (Int32.not_le.mp hsum)
      have hlo := (Int32.ofNat size + i).le_toInt
      omega
    · intro h
      have hpos := size_t_of_nonneg (h hneg hle)
      have hlt := (Int32.ofNat size + i).toInt_lt
      by_cases hsmall : size < 2 ^ 31
      · have hi : i.toInt < 0 := Int32.lt_iff_toInt_lt.mp hneg
        have hilo := i.le_toInt
        rw [Int32.toInt_add, Int32.toInt_ofNat_of_lt hsmall, Int.bmod_eq_of_le (by omega) (by omega)] at hpos
        omega
      · omega
  · have hle : i.toInt ≤ (Int32.ofNat size).toInt := Int32.le_iff_toInt_le.mp (Int32.not_lt.mp hgt)
    have hpos := size_t_of_nonneg (Int32.not_lt.mp hneg)
    have := toInt_ofNat_le size
    exact iff_of_true (by omega) fun h => absurd h hneg

end Positions

section Erasing

/-- A search for something of `n` characters, by what it finds first in the rest from a place on. -/
structure Searches (find : Bytes → Nat → Option Nat) (first : Bytes → Option Nat) (n : Nat) : Prop where
  eq : ∀ u w : Bytes, find (u ++ w) u.length = (first w).map (· + u.length)
  length : ∀ w i, first w = some i → i + n ≤ w.length
  again : ∀ w i, first w = some i → first (w.drop i) = some 0
  pos : 0 < n

variable {find : Bytes → Nat → Option Nat} {first : Bytes → Option Nat} {n : Nat}

theorem Searches.eq_zero (h : Searches find first n) (w : Bytes) : find w 0 = first w := by
  have heq := h.eq [] w
  rw [List.nil_append, List.length_nil] at heq
  rw [heq]
  exact Option.map_id'

theorem eraseLoop_mono {d : Option Bytes} {i fuel fuel' : Nat} {data r : Bytes}
    (h : eraseLoop find n d fuel i data = some r) (hle : fuel ≤ fuel') : eraseLoop find n d fuel' i data = some r := by
  induction fuel generalizing i data fuel' with
  | zero => cases h
  | succ fuel ih =>
    obtain ⟨fuel', rfl⟩ := Nat.exists_eq_add_one.mpr (Nat.lt_of_lt_of_le (Nat.succ_pos fuel) hle)
    rw [eraseLoop] at h ⊢
    cases hi : find (d.getD data) i with
    | none => rwa [hi] at h
    | some i =>
      rw [hi] at h
      dsimp only at h ⊢
      split at h
      · cases h
      · next hgt =>
        rw [if_neg hgt]
        exact ih h (Nat.le_of_succ_le_succ hle)

/-- In the string itself the loop ends, after fewer rounds than there are characters. -/
theorem Searches.eraseLoop_none (h : Searches find first n) (w : Bytes) :
    ∃ r, Erased first n w r ∧ ∀ (u : Bytes) (fuel : Nat), w.length < fuel →
      eraseLoop find n none fuel u.length (u ++ w) = some (u ++ r) := by
  induction hlen : w.length using Nat.strong_induction_on generalizing w with
  | _ len ih =>
    subst hlen
    cases hw : first w with
    | none =>
      refine ⟨w, .done hw, fun u fuel hfuel => ?_⟩
      obtain ⟨fuel, rfl⟩ := Nat.exists_eq_add_of_lt hfuel
      rw [eraseLoop, Option.getD_none, h.eq, hw]
      rfl
    | some i =>
      have hle := h.length w i hw
      have hpos := h.pos
      obtain ⟨r, hr, hloop⟩ := ih (w.drop (i + n)).length (by rw [List.length_drop]; omega) _ rfl
      refine ⟨w.take i ++ r, .next hw hr, fun u fuel hfuel => ?_⟩
      cases fuel with
      | zero => cases hfuel
      | succ fuel =>
        have hi : i + u.length = (u ++ w.take i).length := by
          rw [List.length_append, List.length_take_of_le (by omega), Nat.add_comm]
        have hdata : (u ++ w).take (i + u.length) ++ (u ++ w).drop (i + u.length + n) =
            (u ++ w.take i) ++ w.drop (i + n) := by
          rw [Nat.add_comm i, Nat.add_assoc, List.take_length_add_append, List.drop_length_add_append]
        rw [eraseLoop, Option.getD_none, h.eq, hw, Option.map_some]
        dsimp only
        rw [if_neg (by rw [List.length_append]; omega), hdata, hi,
          hloop _ fuel (by rw [List.length_drop]; omega), List.append_assoc]

/-- In another string what is found is found again for ever. -/
theorem Searches.eraseLoop_some (h : Searches find first n) {d : Bytes} {j : Nat} (hj : first d = some j) (fuel : Nat)
    (data : Bytes) : eraseLoop find n (some d) fuel 0 data = none := by
  have hagain : find d j = some j := by
    have hle := h.length d j hj
    have heq := h.eq (d.take j) (d.drop j)
    rw [List.take_append_drop, List.length_take_of_le (by omega), h.again d j hj] at heq
    simpa using heq
  have hloop : ∀ i fuel data, find d i = some j → eraseLoop find n (some d) fuel i data = none := by
    intro i fuel
    induction fuel generalizing i with
    | zero => exact fun _ _ => rfl
    | succ fuel ih =>
      intro data hi
      rw [eraseLoop, Option.getD_some, hi]
      dsimp only
      split
      · rfl
      · exact ih j _ hagain
  exact hloop 0 fuel data ((h.eq_zero d).trans hj)

theorem Searches.eraseAll_none_iff (h : Searches find first n) {data r : Bytes} :
    eraseAll find n none data = some r ↔ Erased first n data r := by
  obtain ⟨r', hr', hloop⟩ := h.eraseLoop_none data
  rw [eraseAll, show 0 = ([] : Bytes).length from rfl, ← List.nil_append data, hloop [] _ (by simp)]
  simp only [List.nil_append, Option.some_inj]
  exact ⟨fun heq => heq ▸ hr', fun hr => hr'.unique hr⟩

theorem Searches.eraseAll_some_iff (h : Searches find first n) {d data r : Bytes} :
    eraseAll find n (some d) data = some r ↔ first d = none ∧ r = data := by
  rw [eraseAll]
  cases hd : first d with
  | none =>
    rw [eraseLoop, Option.getD_some, h.eq_zero, hd]
    simp [eq_comm]
  | some j => simp [h.eraseLoop_some hd]

/-- The loop ends if and only if it does so within the rounds that it is given. -/
theorem Searches.eraseAll_eq_some_iff (h : Searches find first n) {d : Option Bytes} {data r : Bytes} :
    eraseAll find n d data = some r ↔ ∃ fuel, eraseLoop find n d fuel 0 data = some r := by
  refine ⟨fun hr => ⟨_, hr⟩, ?_⟩
  rintro ⟨fuel, hr⟩
  cases d with
  | none =>
    obtain ⟨r', hr', hloop⟩ := h.eraseLoop_none data
    have hmax := hloop [] (max fuel (data.length + 1)) (by omega)
    rw [List.nil_append, List.length_nil, eraseLoop_mono hr (Nat.le_max_left ..)] at hmax
    rw [h.eraseAll_none_iff, Option.some_inj.mp hmax]
    exact hr'
  | some d =>
    rw [h.eraseAll_some_iff]
    cases hd : first d with
    | none =>
      have hend : eraseLoop find n (some d) 1 0 data = some data := by
        rw [eraseLoop, Option.getD_some, h.eq_zero, hd]
      have hmax := eraseLoop_mono hr (Nat.le_max_left fuel 1)
      rw [eraseLoop_mono hend (Nat.le_max_right fuel 1)] at hmax
      exact ⟨rfl, (Option.some_inj.mp hmax).symm⟩
    | some j =>
      rw [h.eraseLoop_some hd] at hr
      cases hr

theorem searches_strfnd {si : Bytes} (hsi : si ≠ []) :
    Searches (fun d i => fromPos Bdcpp.strfnd d si i) (Edit.indexOf si) si.length where
  eq := by
    intro u w
    rw [fromPos, if_neg (by simp), List.drop_left, Bdcpp.strfnd]
    split
    next h =>
      obtain rfl | h := h
      · rw [Edit.indexOf, if_neg hsi]
      · exact absurd h hsi
    next => rfl
  length := by
    intro w i h
    obtain ⟨u, v, rfl, rfl, -⟩ := Edit.indexOf_eq_some h
    simp only [List.length_append]
    omega
  again := by
    intro w i h
    obtain ⟨u, v, rfl, rfl, -⟩ := Edit.indexOf_eq_some h
    rw [List.append_assoc, List.drop_left]
    exact Edit.indexOf_of_starts (List.prefix_append si v)
  pos := List.length_pos_of_ne_nil hsi

theorem searches_strfndfstof (si : Bytes) :
    Searches (fun d i => fromPos strfndfstof d si i) (List.findIdx? fun c => c ∈ si) 1 where
  eq := by
    intro u w
    rw [fromPos, if_neg (by simp), List.drop_left, strfndfstof]
    split
    next h =>
      obtain rfl | rfl := h
      · rfl
      · have hnone : (w.findIdx? fun c => c ∈ ([] : Bytes)) = none :=
          List.findIdx?_eq_none_iff.mpr fun _ _ => decide_eq_false List.not_mem_nil
        rw [hnone]
    next => rfl
  length := by
    intro w i h
    exact (List.findIdx?_eq_some_iff_getElem.mp h).1
  again := by
    intro w i h
    obtain ⟨hi, hp, -⟩ := List.findIdx?_eq_some_iff_getElem.mp h
    rw [List.drop_eq_getElem_cons hi, List.findIdx?_cons, if_pos hp]
  pos := Nat.one_pos

end Erasing

/-- Each value in turn is taken out wherever it is. -/
def Deleted : List Bytes → Bytes → Bytes → Prop
  | [], d, r => r = d
  | si :: strings, d, r =>
    if si = [] then Deleted strings d r
    else ∃ m, Erased (Edit.indexOf si) si.length d m ∧ Deleted strings m r

/-- The characters that a value of `strip` lists. -/
def listed (si : Bytes) : Bytes := if si = [] then whitespace else si

section

variable (toLower : Bytes → Bytes) {α : Type} (nested : Nested α)

/-- The function ends without an exception; what `deletedata` and `strip` leave is the data without the values, or
without the listed characters, and in order. -/
def Meets (f : Function) (v : Value α) (s : SdExString) (params : ParamMap) : Prop :=
  ∃ b s' params', f.runFunction toLower nested v s params = some (b, s', params') ∧
    (f = .deletedata →
      Deleted v.strings (Function.compared toLower v s.data) (Function.compared toLower v s'.data) ∧
        s'.data.Sublist s.data) ∧
    (f = .strip →
      (Function.compared toLower v s'.data = (Function.compared toLower v s.data).filter fun c =>
          v.strings.all fun si => c ∉ listed si) ∧
        s'.data.Sublist s.data)

/-- Positions do not reach back behind the beginning, and lower-casing the data leaves nothing to be erased and no range
that is none of the data. -/
def Safe : Function → Value α → SdExString → ParamMap → Prop
  | .append, v, s, _ | .insert, v, s, _ => v.strings = [] ∨ InReach v.int32s s.data.length
  | .resize, v, s, _ => InReach v.int32s s.data.length
  | .deletedata, v, s, _ => v.isNocase = true → ∀ si ∈ v.strings, si ≠ [] → ¬si <:+: toLower s.data
  | .strip, v, s, _ => v.isNocase = true → ∀ si ∈ v.strings, ∀ c ∈ toLower s.data, c ∉ listed si
  | .delimit, v, s, _ =>
    let type := v.int32s.headD DELIMIT_ONLY
    let element := v.strings.headD []
    element ≠ [] → v.isNocase = true ∨ type &&& DELIMIT_NOCASE ≠ 0 →
      s.data.length ≤ (toLower s.data).length + 1 ∧
        (type &&& DELIMIT_NOCASE ≠ 0 → element.length ≤ (toLower element).length + 1)
  | .split, v, s, params =>
    match v.sdexs with
    | part1 :: part2 :: _ =>
      (v.isNocase = true → InReach v.int32s s.data.length → ∀ pos,
        fromPos Bdcpp.strfnd (toLower s.data) (v.strings.headD []) (position v.int32s s.data.length) = some pos →
          pos + (v.strings.headD []).length ≤ s.data.length) ∧
      ∀ one two, Function.splitData toLower v s.data = some (some (one, two)) →
        ∃ b tmpParams, nested.check part1 one params = some (b, tmpParams) ∧
          (b = true → (nested.check part2 two tmpParams).isSome)
    | _ => True
  | _, _, _, _ => True

variable {toLower nested} {v : Value α} {s : SdExString} {params : ParamMap}

theorem meets_of_isSome {f : Function} (hdelete : f ≠ .deletedata) (hstrip : f ≠ .strip) :
    Meets toLower nested f v s params ↔ (f.runFunction toLower nested v s params).isSome := by
  constructor
  · rintro ⟨b, s', params', h, -⟩
    rw [h]
    rfl
  · intro h
    obtain ⟨⟨b, s', params'⟩, h⟩ := Option.isSome_iff_exists.mp h
    exact ⟨b, s', params', h, fun hf => absurd hf hdelete, fun hf => absurd hf hstrip⟩

theorem runInsert_isSome (hlen : s.data.length < 2 ^ 63) :
    (Function.runInsert v s params).isSome ↔ v.strings = [] ∨ InReach v.int32s s.data.length := by
  rw [Function.runInsert]
  cases v.strings with
  | nil => simp
  | cons ins strings =>
    rw [← position_le_iff v.int32s hlen]
    dsimp only
    split_ifs with h
    · simp [Nat.not_le.mpr h]
    · simp [Nat.not_lt.mp h]

theorem runResize_isSome (hlen : s.data.length < 2 ^ 63) :
    (Function.runResize v s params).isSome ↔ InReach v.int32s s.data.length := by
  rw [Function.runResize, ← position_le_iff v.int32s hlen]
  dsimp only
  split_ifs with h
  · simp [Nat.not_le.mpr h]
  · simp [Nat.not_lt.mp h]

theorem bufferRange_isSome (buf : Bytes) (len : Nat) : (bufferRange buf len).isSome ↔ len ≤ buf.length + 1 := by
  rw [bufferRange]
  split_ifs with h
  · simp [h]
  · simp [h]

theorem delimitFind_isSome (type : Int32) (data element : Bytes) :
    (Function.delimitFind toLower v type data element).isSome ↔
      (v.isNocase = true ∨ type &&& DELIMIT_NOCASE ≠ 0 → data.length ≤ (toLower data).length + 1 ∧
        (type &&& DELIMIT_NOCASE ≠ 0 → element.length ≤ (toLower element).length + 1)) := by
  rw [Function.delimitFind, ← bufferRange_isSome, ← bufferRange_isSome]
  by_cases h : v.isNocase = true ∨ type &&& DELIMIT_NOCASE ≠ 0
  · rw [if_pos (by simpa using h)]
    simp only [h, forall_const]
    cases bufferRange (toLower data) data.length with
    | none => simp
    | some line =>
      by_cases htype : type &&& DELIMIT_NOCASE = 0
      · simp [htype]
      · cases bufferRange (toLower element) element.length with
        | none => simp [htype]
        | some e => simp [htype]
  · rw [if_neg (by simpa using h)]
    simp [h]

theorem runDelimit_isSome :
    (Function.runDelimit toLower v s params).isSome ↔ Safe toLower nested .delimit v s params := by
  rw [Function.runDelimit, Safe]
  cases v.strings with
  | nil => simp
  | cons element delimiters =>
    dsimp only [List.headD_cons]
    by_cases hnil : element = []
    · simp [hnil]
    · rw [if_neg hnil]
      have hfind : (Function.delimitFind toLower v (v.int32s.headD DELIMIT_ONLY) s.data element).isSome ↔ _ :=
        delimitFind_isSome (v.int32s.headD DELIMIT_ONLY) s.data element
      simp only [hnil, not_false_eq_true, ne_eq, forall_const] at hfind ⊢
      rw [← hfind]
      cases Function.delimitFind toLower v (v.int32s.headD DELIMIT_ONLY) s.data element with
      | none => simp
      | some e =>
        cases e with
        | none => simp
        | some e =>
          simp only [Option.bind_eq_bind, Option.bind_some, Option.isSome_some, iff_true]
          split_ifs
          all_goals rfl

theorem fromPos_strfnd_le {d token : Bytes} {aPos pos : Nat} (h : fromPos Bdcpp.strfnd d token aPos = some pos) :
    token ≠ [] ∧ pos + token.length ≤ d.length := by
  have htoken : token ≠ [] := by
    rintro rfl
    simp [fromPos, Bdcpp.strfnd] at h
  have hpos : aPos ≤ d.length := by
    by_contra hgt
    rw [fromPos, if_pos (Nat.lt_of_not_le hgt)] at h
    cases h
  have heq := (searches_strfnd htoken).eq (d.take aPos) (d.drop aPos)
  rw [List.take_append_drop, List.length_take_of_le hpos, h] at heq
  obtain ⟨i, hi, rfl⟩ := Option.map_eq_some_iff.mp heq.symm
  have hle := (searches_strfnd htoken).length _ i hi
  rw [List.length_drop] at hle
  exact ⟨htoken, by omega⟩

theorem splitData_isSome {data : Bytes} (hlen : data.length < 2 ^ 63) :
    (Function.splitData toLower v data).isSome ↔
      (v.isNocase = true → InReach v.int32s data.length → ∀ pos,
        fromPos Bdcpp.strfnd (toLower data) (v.strings.headD []) (position v.int32s data.length) = some pos →
          pos + (v.strings.headD []).length ≤ data.length) := by
  rw [Function.splitData, ← position_le_iff v.int32s hlen]
  generalize v.strings.headD [] = token
  dsimp only
  split_ifs with hpos htoken
  · simp [Nat.not_le.mpr hpos]
  · refine iff_of_true rfl fun _ _ pos h => ?_
    exact absurd htoken (fromPos_strfnd_le h).1
  · rw [Function.compared]
    cases hcase : v.isNocase with
    | false =>
      simp only [Bool.false_eq_true, if_false, false_implies, iff_true]
      split
      · rfl
      · next pos hfind =>
        rw [if_neg (Nat.not_lt.mpr (fromPos_strfnd_le hfind).2)]
        rfl
    | true =>
      simp only [if_true, Nat.not_lt.mp hpos, true_implies]
      split
      · next hfind => simp [hfind]
      · next pos hfind =>
        split_ifs with hout
        · simp [hfind, Nat.not_le.mpr hout]
        · simp [hfind, Nat.not_lt.mp hout]

theorem runSplit_isSome (hlen : s.data.length < 2 ^ 63) :
    (Function.runSplit toLower nested v s params).isSome ↔ Safe toLower nested .split v s params := by
  rw [Function.runSplit, Safe]
  obtain _ | ⟨part1, _ | ⟨part2, rest⟩⟩ := v.sdexs
  · simp
  · simp
  · dsimp only
    rw [← splitData_isSome hlen]
    cases Function.splitData toLower v s.data with
    | none => simp
    | some halves =>
      obtain _ | ⟨one, two⟩ := halves
      · simp
      · simp only [Option.bind_eq_bind, Option.bind_some, Option.isSome_some, Option.some_inj, Prod.mk.injEq, and_imp,
          true_and]
        have hforall : (∀ one_1 two_1, one = one_1 → two = two_1 →
            ∃ b tmpParams, nested.check part1 one_1 params = some (b, tmpParams) ∧
              (b = true → (nested.check part2 two_1 tmpParams).isSome)) ↔
            ∃ b tmpParams, nested.check part1 one params = some (b, tmpParams) ∧
              (b = true → (nested.check part2 two tmpParams).isSome) :=
          ⟨fun h => h one two rfl rfl, by rintro h _ _ rfl rfl; exact h⟩
        rw [hforall]
        cases nested.check part1 one params with
        | none => simp
        | some r =>
          obtain ⟨b, tmpParams⟩ := r
          cases b with
          | false => simp
          | true =>
            cases hpart2 : nested.check part2 two tmpParams with
            | none => simp [hpart2]
            | some r =>
              obtain ⟨b, tmpParams⟩ := r
              cases b <;> simp [hpart2]

/-- Where the search is in the string itself, the loop takes every value out; in another one nothing may be found. -/
theorem deletedata_iff {d : Option Bytes} {strings : List Bytes} {data r : Bytes} :
    strings.foldlM (fun data si =>
        if si = [] then some data else eraseAll (fun d i => fromPos Bdcpp.strfnd d si i) si.length d data) data =
      some r ↔
      match d with
      | none => Deleted strings data r
      | some d => (∀ si ∈ strings, si ≠ [] → ¬si <:+: d) ∧ r = data := by
  induction strings generalizing data with
  | nil => cases d <;> simp [Deleted, eq_comm]
  | cons si strings ih =>
    rw [List.foldlM_cons]
    by_cases hsi : si = []
    · rw [if_pos hsi]
      cases d with
      | none =>
        rw [Deleted, if_pos hsi]
        exact ih
      | some d =>
        simp only [Option.bind_eq_bind, Option.bind_some, ih, List.forall_mem_cons, hsi, ne_eq, not_true_eq_false,
          false_implies, true_and]
    · rw [if_neg hsi]
      simp only [Option.bind_eq_bind, Option.bind_eq_some_iff, ih]
      cases d with
      | none =>
        simp only [(searches_strfnd hsi).eraseAll_none_iff]
        rw [Deleted, if_neg hsi]
      | some d =>
        simp only [(searches_strfnd hsi).eraseAll_some_iff, Edit.indexOf_eq_none, List.forall_mem_cons]
        constructor
        · rintro ⟨m, ⟨hno, rfl⟩, hrest, rfl⟩
          exact ⟨⟨fun _ => hno, hrest⟩, rfl⟩
        · rintro ⟨⟨hno, hrest⟩, rfl⟩
          exact ⟨_, ⟨hno hsi, rfl⟩, hrest, rfl⟩

/-- As `deletedata_iff`, with single characters. -/
theorem strip_iff {d : Option Bytes} {strings : List Bytes} {data r : Bytes} :
    strings.foldlM (fun data si => eraseAll (fun d i => fromPos strfndfstof d (listed si) i) 1 d data) data = some r ↔
      match d with
      | none => r = data.filter fun c => strings.all fun si => c ∉ listed si
      | some d => (∀ si ∈ strings, ∀ c ∈ d, c ∉ listed si) ∧ r = data := by
  induction strings generalizing data with
  | nil => cases d <;> simp [eq_comm]
  | cons si strings ih =>
    rw [List.foldlM_cons]
    simp only [Option.bind_eq_bind, Option.bind_eq_some_iff, ih]
    cases d with
    | none =>
      simp only [(searches_strfndfstof (listed si)).eraseAll_none_iff, erased_findIdx?_iff, exists_eq_left,
        List.filter_filter, List.all_cons]
      have hcomm : ∀ c : UInt8, ((strings.all fun si => c ∉ listed si) && !decide (c ∈ listed si)) =
          (decide (c ∉ listed si) && strings.all fun si => c ∉ listed si) := by
        intro c
        rw [Bool.and_comm, decide_not]
      simp only [hcomm]
    | some d =>
      simp only [(searches_strfndfstof (listed si)).eraseAll_some_iff, List.findIdx?_eq_none_iff, List.forall_mem_cons,
        decide_eq_false_iff_not]
      constructor
      · rintro ⟨m, ⟨hno, rfl⟩, hrest, rfl⟩
        exact ⟨⟨hno, hrest⟩, rfl⟩
      · rintro ⟨⟨hno, hrest⟩, rfl⟩
        exact ⟨_, ⟨hno, rfl⟩, hrest, rfl⟩

theorem Deleted.sublist {strings : List Bytes} {d r : Bytes} (h : Deleted strings d r) : r.Sublist d := by
  induction strings generalizing d with
  | nil =>
    rw [Deleted] at h
    rw [h]
  | cons si strings ih =>
    rw [Deleted] at h
    split at h
    · exact ih h
    · obtain ⟨m, hm, hr⟩ := h
      exact (ih hr).trans hm.sublist

theorem exists_deleted (strings : List Bytes) (d : Bytes) : ∃ r, Deleted strings d r := by
  induction strings generalizing d with
  | nil => exact ⟨d, rfl⟩
  | cons si strings ih =>
    by_cases hsi : si = []
    · obtain ⟨r, hr⟩ := ih d
      exact ⟨r, by rwa [Deleted, if_pos hsi]⟩
    · obtain ⟨m, hm, -⟩ := (searches_strfnd hsi).eraseLoop_none d
      obtain ⟨r, hr⟩ := ih m
      refine ⟨r, ?_⟩
      rw [Deleted, if_neg hsi]
      exact ⟨m, hm, hr⟩

theorem deleted_self {strings : List Bytes} {d : Bytes} (h : ∀ si ∈ strings, si ≠ [] → ¬si <:+: d) :
    Deleted strings d d := by
  induction strings with
  | nil => rfl
  | cons si strings ih =>
    have hrest := ih fun si hsi => h si (List.mem_cons_of_mem _ hsi)
    rw [Deleted]
    split
    · exact hrest
    · next hsi => exact ⟨d, .done (Edit.indexOf_eq_none.mpr (h si List.mem_cons_self hsi)), hrest⟩

theorem meets_deletedata :
    Meets toLower nested .deletedata v s params ↔ Safe toLower nested .deletedata v s params := by
  rw [Meets, Safe, Function.runFunction, Function.runDeletedata]
  simp only [Option.bind_eq_bind, Option.bind_eq_some_iff, deletedata_iff, true_implies, reduceCtorEq, false_implies,
    and_true]
  cases hcase : v.isNocase with
  | false =>
    simp only [Bool.false_eq_true, if_false, false_implies, iff_true, Function.compared, hcase]
    obtain ⟨r, hr⟩ := exists_deleted v.strings s.data
    exact ⟨true, { s with data := r }, params, ⟨r, hr, rfl⟩, hr, hr.sublist⟩
  | true =>
    simp only [if_true, true_implies, Function.compared, hcase]
    constructor
    · rintro ⟨b, s', params', ⟨data, ⟨hno, -⟩, -⟩, -⟩
      exact hno
    · intro hno
      exact ⟨true, s, params, ⟨s.data, ⟨hno, rfl⟩, rfl⟩, deleted_self hno, List.Sublist.refl _⟩

theorem meets_strip : Meets toLower nested .strip v s params ↔ Safe toLower nested .strip v s params := by
  have hrun : Function.runStrip toLower v s params = (do
      let data ← v.strings.foldlM (fun data si => eraseAll (fun d i => fromPos strfndfstof d (listed si) i) 1
        (if v.isNocase then some (toLower s.data) else none) data) s.data
      return (true, { s with data }, params)) := rfl
  rw [Meets, Safe, Function.runFunction, hrun]
  simp only [Option.bind_eq_bind, Option.bind_eq_some_iff, strip_iff, true_implies, reduceCtorEq, false_implies,
    true_and]
  cases hcase : v.isNocase with
  | false =>
    simp only [Bool.false_eq_true, if_false, false_implies, iff_true, Function.compared, hcase]
    exact ⟨true, { s with data := _ }, params, ⟨_, rfl, rfl⟩, rfl, List.filter_sublist⟩
  | true =>
    simp only [if_true, true_implies, Function.compared, hcase]
    constructor
    · rintro ⟨b, s', params', ⟨data, ⟨hno, -⟩, -⟩, -⟩
      exact hno
    · intro hno
      refine ⟨true, s, params, ⟨s.data, ⟨hno, rfl⟩, rfl⟩, ?_, List.Sublist.refl _⟩
      rw [eq_comm, List.filter_eq_self]
      intro c hc
      rw [List.all_eq_true]
      exact fun si hsi => decide_eq_true (hno si hsi c hc)

/-- The functions of the tags that change data, and `find`, end as they are meant to if and only if it is safe. -/
theorem runFunction_meets_iff {f : Function}
    (hf : f ∈ [Function.find, .insert, .append, .resize, .split, .delimit, .deletedata, .strip])
    (hlen : s.data.length < 2 ^ 63) : Meets toLower nested f v s params ↔ Safe toLower nested f v s params := by
  simp only [List.mem_cons, List.not_mem_nil, or_false] at hf
  obtain rfl | rfl | rfl | rfl | rfl | rfl | rfl | rfl := hf
  · rw [meets_of_isSome (by decide) (by decide)]
    exact iff_of_true rfl trivial
  · rw [meets_of_isSome (by decide) (by decide)]
    exact runInsert_isSome hlen
  · rw [meets_of_isSome (by decide) (by decide)]
    exact runInsert_isSome hlen
  · rw [meets_of_isSome (by decide) (by decide)]
    exact runResize_isSome hlen
  · rw [meets_of_isSome (by decide) (by decide)]
    exact runSplit_isSome hlen
  · rw [meets_of_isSome (by decide) (by decide)]
    exact runDelimit_isSome
  · exact meets_deletedata
  · exact meets_strip

end

/-- A value with a string, and another one with a position. -/
def theString (si : Bytes) (ops : Nat) : Value Empty := ⟨[], [], [si], [], ops⟩

def stringAt (si : Bytes) (i : Int32) : Value Empty := ⟨[i], [], [si], [], 0⟩

/-- Inserted three characters before the end of four. -/
theorem runFunction_meets_iff_insert :
    Meets id ⟨Empty.elim, Empty.elim⟩ .insert (stringAt (str "-") (-3)) (.make (str "abcd") 0 true []) (fun _ => none) :=
  (runFunction_meets_iff (by decide) (by decide)).mpr (Or.inr (by decide))

/-- A character is erased for ever in its lower-cased copy. -/
theorem not_runFunction_meets :
    ¬∀ (f : Function) (v : Value Empty) (s : SdExString) (params : ParamMap),
      f ∈ [Function.find, .insert, .append, .resize, .split, .delimit, .deletedata, .strip] →
        s.data.length < 2 ^ 63 → Meets id ⟨Empty.elim, Empty.elim⟩ f v s params := by
  intro h
  obtain ⟨b, s', params', hrun, -⟩ := h .deletedata (theString (str "a") OP_NOCASE) (.make (str "a") 0 true [])
    (fun _ => none) (by decide) (by decide)
  have hnone : (Function.deletedata.runFunction id ⟨Empty.elim, Empty.elim⟩ (theString (str "a") OP_NOCASE)
      (.make (str "a") 0 true []) fun _ => none).isNone = true := by decide
  rw [hrun] at hnone
  cases hnone

end Dcpp.SdExFull
