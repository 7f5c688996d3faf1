import Dcpp.Library.Edit
import Dcpp.Bytes

-- The searches in ranges of characters; a result that is missing is `npos`.
namespace Dcpp.Bdcpp

/-- Equals. -/
def streql (p d : Bytes) : Bool := p = d

/-- Compare; the range may go on behind the data. -/
def strcmp (p d : Bytes) : Bool := p ≠ [] && d ≠ [] && d.isPrefixOf p

def strfnd (p d : Bytes) : Option Nat := if p = [] ∨ d = [] then none else Edit.indexOf d p

def strfndfstof (p d : Bytes) : Option Nat := if p = [] ∨ d = [] then none else p.findIdx? fun c => c ∈ d

def strfndfstnof (p d : Bytes) : Option Nat := if p = [] ∨ d = [] then none else p.findIdx? fun c => c ∉ d

/-- The last place of a range with a property. -/
def findLast (q : UInt8 → Bool) (p : Bytes) : Option Nat := (p.reverse.findIdx? q).map fun i => p.length - 1 - i

def strfndlstof (p d : Bytes) : Option Nat := if p = [] ∨ d = [] then none else findLast (fun c => c ∈ d) p

def strfndlstnof (p d : Bytes) : Option Nat := if p = [] ∨ d = [] then none else findLast (fun c => c ∉ d) p

/-- The overload for strings of one of the searches. -/
def fromPos (func : Bytes → Bytes → Option Nat) (aLine aData : Bytes) (aPos : Nat) : Option Nat :=
  if aPos > aLine.length then none else (func (aLine.drop aPos) aData).map fun i => i + aPos

def whitespace : Bytes := str " \r\n\t"

def digitshex : Bytes := str "1234567890ABCDEFabcdef"

def digitsnumbers : Bytes := str "1234567890.,-"

/-- Strips whitespace off a range; the results are the offsets of its ends. -/
def stripWhitespace (p : Bytes) : Nat × Nat :=
  match strfndfstnof p whitespace with
  | none => (p.length, p.length)
  | some b =>
    match strfndlstnof (p.drop b) whitespace with
    | none => (b, b)
    | some i =>
      -- include the found char, and one more if it is the escape char
      (b, b + i + 1 + if b + i + 1 ≠ p.length ∧ p[b + i]? = some (byte '\\') then 1 else 0)

/-- The range that `stripWhitespace` leaves. -/
def stripped (p : Bytes) : Bytes := (p.take (stripWhitespace p).2).drop (stripWhitespace p).1

theorem findLast_eq_some {q : UInt8 → Bool} {p : Bytes} {c : UInt8} (hc : q c = true) (s : Bytes)
    (hs : ∀ d ∈ s, q d = false) : findLast q (p ++ c :: s) = some p.length := by
  have hrev : (p ++ c :: s).reverse.findIdx? q = some s.length := by
    rw [List.reverse_append, List.reverse_cons, List.append_assoc, List.findIdx?_append]
    have hnone : s.reverse.findIdx? q = none := by
      rw [List.findIdx?_eq_none_iff]
      intro d hd
      exact hs d (List.mem_reverse.mp hd)
    simp [hnone, List.findIdx?_cons, hc]
  rw [findLast, hrev]
  simp

theorem strfnd_le {p d : Bytes} {i : Nat} (h : strfnd p d = some i) : i + d.length ≤ p.length := by
  rw [strfnd] at h
  split_ifs at h
  obtain ⟨u, v, rfl, rfl, -⟩ := Edit.indexOf_eq_some h
  simp only [List.length_append]
  omega

theorem strfndfstof_lt {p d : Bytes} {i : Nat} (h : strfndfstof p d = some i) : i < p.length := by
  rw [strfndfstof] at h
  split_ifs at h
  exact (List.findIdx?_eq_some_iff_getElem.mp h).1

theorem strfndfstnof_lt {p d : Bytes} {i : Nat} (h : strfndfstnof p d = some i) : i < p.length := by
  rw [strfndfstnof] at h
  split_ifs at h
  exact (List.findIdx?_eq_some_iff_getElem.mp h).1

theorem strfndlstnof_lt {p d : Bytes} {i : Nat} (h : strfndlstnof p d = some i) : i < p.length := by
  rw [strfndlstnof, findLast] at h
  split_ifs at h with hempty
  obtain ⟨j, hj, rfl⟩ := Option.map_eq_some_iff.mp h
  have hpos := List.length_pos_of_ne_nil fun hp => hempty (Or.inl hp)
  omega

theorem fromPos_eq_some {func : Bytes → Bytes → Option Nat} {p d : Bytes} {pos i : Nat}
    (h : fromPos func p d pos = some i) : pos ≤ p.length ∧ pos ≤ i ∧ func (p.drop pos) d = some (i - pos) := by
  rw [fromPos] at h
  split_ifs at h with hpos
  obtain ⟨k, hk, rfl⟩ := Option.map_eq_some_iff.mp h
  refine ⟨by omega, by omega, ?_⟩
  rw [hk, Nat.add_sub_cancel]

/-- The first place in a part from the beginning on is the first one in the whole. -/
theorem strfnd_take {p d : Bytes} {n i : Nat} (h : strfnd (p.take n) d = some i) : strfnd p d = some i := by
  rw [strfnd] at h
  split_ifs at h with hempty
  rw [not_or] at hempty
  have hp : p ≠ [] := by
    rintro rfl
    exact hempty.1 List.take_nil
  rw [strfnd, if_neg (not_or.mpr ⟨hp, hempty.2⟩)]
  have hwhole := Edit.indexOf_append_right h (p.drop n)
  rwa [List.take_append_drop] at hwhole

theorem fromPos_strfnd_take {p d : Bytes} {n pos i : Nat} (h : fromPos strfnd (p.take n) d pos = some i) :
    fromPos strfnd p d pos = some i := by
  obtain ⟨hpos, hle, hi⟩ := fromPos_eq_some h
  rw [List.length_take] at hpos
  rw [List.drop_take] at hi
  rw [fromPos, if_neg (by omega), strfnd_take hi]
  simp only [Option.map_some, Nat.sub_add_cancel hle]

/-- What is found is found from its place on, too. -/
theorem fromPos_strfnd_found {p d : Bytes} {pos i : Nat} (h : fromPos strfnd p d pos = some i) :
    fromPos strfnd p d i = some i := by
  obtain ⟨hpos, hle, hfind⟩ := fromPos_eq_some h
  have hin := strfnd_le hfind
  rw [strfnd] at hfind
  split_ifs at hfind with hempty
  rw [not_or] at hempty
  obtain ⟨u, v, hsplit, hlen, -⟩ := Edit.indexOf_eq_some hfind
  have hdrop : p.drop i = d ++ v := by
    have hi : i = pos + u.length := by omega
    rw [hi, ← List.drop_drop, hsplit, List.append_assoc, List.drop_left]
  have hne : p.drop i ≠ [] := by
    rw [hdrop]
    simp [hempty.2]
  rw [List.length_drop] at hin
  rw [fromPos, if_neg (by omega), strfnd, if_neg (not_or.mpr ⟨hne, hempty.2⟩), hdrop,
    Edit.indexOf_of_starts (List.prefix_append d v)]
  simp only [Option.map_some, Nat.zero_add]

theorem findLast_append {q : UInt8 → Bool} {v : Bytes} {k : Nat} (u : Bytes) (h : findLast q v = some k) :
    findLast q (u ++ v) = some (u.length + k) := by
  rw [findLast, Option.map_eq_some_iff] at h
  obtain ⟨m, hm, rfl⟩ := h
  have hlt := (List.findIdx?_eq_some_iff_getElem.mp hm).1
  rw [List.length_reverse] at hlt
  rw [findLast, List.reverse_append, List.findIdx?_append, hm]
  simp only [Option.some_or, Option.map_some, List.length_append]
  congr 1
  omega

/-- What a search from a later place on finds is the last place from an earlier one on, too. -/
theorem strfndlstnof_of_later {p chars : Bytes} {pos later k : Nat} (hpos : pos ≤ later)
    (h : fromPos strfndlstnof p chars later = some k) : fromPos strfndlstnof p chars pos = some k := by
  obtain ⟨hle, hk, hfind⟩ := fromPos_eq_some h
  rw [strfndlstnof] at hfind
  split_ifs at hfind with hempty
  rw [not_or] at hempty
  have hsplit : p.drop pos = (p.take later).drop pos ++ p.drop later := by
    rw [← List.drop_append_of_le_length (by rw [List.length_take]; omega), List.take_append_drop]
  have hne : p.drop pos ≠ [] := by
    rw [hsplit]
    simp [hempty.1]
  rw [fromPos, if_neg (by omega), strfndlstnof, if_neg (not_or.mpr ⟨hne, hempty.2⟩), hsplit,
    findLast_append _ hfind]
  simp only [Option.map_some, List.length_drop, List.length_take]
  congr 1
  omega

/-- The place in front of the one from which on nothing is found. -/
theorem strfndlstnof_before {p chars : Bytes} (hchars : chars ≠ []) {pos later : Nat} (hpos : pos < later)
    (hlater : later ≤ p.length) (h : fromPos strfndlstnof p chars later = none) (hc : p.getD (later - 1) 0 ∉ chars) :
    fromPos strfndlstnof p chars pos = some (later - 1) := by
  have hin : ∀ d ∈ p.drop later, (fun c => decide (c ∉ chars)) d = false := by
    intro d hd
    rw [fromPos, if_neg (by omega), Option.map_eq_none_iff, strfndlstnof,
      if_neg (not_or.mpr ⟨List.ne_nil_of_mem hd, hchars⟩), findLast, Option.map_eq_none_iff,
      List.findIdx?_eq_none_iff] at h
    exact h d (List.mem_reverse.mpr hd)
  have hsplit : p.drop pos = (p.take (later - 1)).drop pos ++ p.getD (later - 1) 0 :: p.drop later := by
    have hget : p.drop (later - 1) = p.getD (later - 1) 0 :: p.drop later := by
      have hlt : later - 1 < p.length := by omega
      rw [List.drop_eq_getElem_cons hlt, List.getD_eq_getElem?_getD, List.getElem?_eq_getElem hlt, Option.getD_some,
        Nat.sub_add_cancel (by omega)]
    rw [← hget, ← List.drop_append_of_le_length (by rw [List.length_take]; omega), List.take_append_drop]
  have hne : p.drop pos ≠ [] := by
    rw [hsplit]
    simp
  rw [fromPos, if_neg (by omega), strfndlstnof, if_neg (not_or.mpr ⟨hne, hchars⟩), hsplit,
    findLast_eq_some (by simpa using hc) _ hin]
  simp only [Option.map_some, List.length_drop, List.length_take]
  congr 1
  omega

/-- What is left is inside the range. -/
theorem stripWhitespace_le (p : Bytes) :
    (stripWhitespace p).1 ≤ (stripWhitespace p).2 ∧ (stripWhitespace p).2 ≤ p.length := by
  rw [stripWhitespace]
  cases hb : strfndfstnof p whitespace with
  | none => exact ⟨Nat.le_refl _, Nat.le_refl _⟩
  | some b =>
    have hlt := strfndfstnof_lt hb
    dsimp only
    cases hi : strfndlstnof (p.drop b) whitespace with
    | none => exact ⟨Nat.le_refl _, Nat.le_of_lt hlt⟩
    | some i =>
      have hi := strfndlstnof_lt hi
      rw [List.length_drop] at hi
      dsimp only
      split_ifs with hmore
      · exact ⟨by omega, by have := hmore.1; omega⟩
      · exact ⟨by omega, by omega⟩

end Dcpp.Bdcpp
