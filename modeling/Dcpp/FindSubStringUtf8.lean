import Dcpp.FindSubStringReads
import Dcpp.Utf8WellFormed

-- The search for a part of a string in UTF-8, and what it takes for the same.
namespace Dcpp.Util

open Text

variable (l : Locale)

/-- A character without its case. -/
def foldChar (c : Char) : Nat :=
  if c.toNat < 0x80 then (asciiToLower (UInt8.ofNat c.toNat)).toNat else l.toLower c.toNat

/-- The codes that the search has for a character. It takes the first three bytes of four for a character, and the
last one for a code of its own. -/
def charUnits (c : Char) : List Nat := if c.toNat < 0x10000 then [foldChar l c] else [l.toLower (c.toNat / 64), 0]

def unitsOf (cs : List Char) : List Nat := cs.flatMap (charUnits l)

theorem lead_bits : ∀ a < 56, UInt8.ofNat (192 + a) &&& 0x80 ≠ 0 ∧ UInt8.ofNat (192 + a) &&& 0x40 ≠ 0 ∧
    (UInt8.ofNat (192 + a) &&& 0x20 = 0 ↔ a < 32) ∧ (UInt8.ofNat (192 + a)).toNat &&& 0x1f = a % 32 ∧
    (UInt8.ofNat (192 + a)).toNat &&& 0xf = a % 16 := by decide

theorem further_bits : ∀ b < 64, UInt8.ofNat (b + 128) &&& 0xc0 = 0x80 ∧ (UInt8.ofNat (b + 128)).toNat &&& 0x3f = b ∧
    UInt8.ofNat (b + 128) &&& 0x80 ≠ 0 ∧ UInt8.ofNat (b + 128) &&& 0x40 = 0 := by decide

theorem utf8ToLC_two {a : Nat} (ha : a < 32) (x : Nat) (s : Bytes) :
    utf8ToLC l (UInt8.ofNat (192 + a) :: Form.tail x :: s) = (l.toLower (a * 64 + x % 64), 2) := by
  obtain ⟨h80, h40, h20, h1f, -⟩ := lead_bits a (by omega)
  obtain ⟨hc0, h3f, -, -⟩ := further_bits (x % 64) (Nat.mod_lt _ (by decide))
  have hcode : (a % 32) <<< 6 ||| x % 64 = a * 64 + x % 64 := by
    rw [← Nat.shiftLeft_add_eq_or_of_lt (Nat.mod_lt _ (by decide)), Nat.shiftLeft_eq, Nat.mod_eq_of_lt ha]
  rw [Form.tail]
  generalize UInt8.ofNat (192 + a) = c₀ at *
  generalize UInt8.ofNat (x % 64 + 128) = c₁ at *
  simp [utf8ToLC, h80, h40, h20, ha, h1f, hc0, h3f, hcode]

theorem utf8ToLC_three {a : Nat} (ha : a < 24) (x y : Nat) (s : Bytes) :
    utf8ToLC l (UInt8.ofNat (224 + a) :: Form.tail x :: Form.tail y :: s) =
      (l.toLower (a % 16 * 4096 + x % 64 * 64 + y % 64), 3) := by
  obtain ⟨h80, h40, h20, -, hf⟩ := lead_bits (32 + a) (by omega)
  rw [← Nat.add_assoc] at h80 h40 h20 hf
  obtain ⟨hc0, h3f, -, -⟩ := further_bits (x % 64) (Nat.mod_lt _ (by decide))
  obtain ⟨hc0', h3f', -, -⟩ := further_bits (y % 64) (Nat.mod_lt _ (by decide))
  have hcode : (a % 16) <<< 12 ||| (x % 64) <<< 6 ||| y % 64 = a % 16 * 4096 + x % 64 * 64 + y % 64 := by
    have hx : (x % 64) <<< 6 < 2 ^ 12 := by
      rw [Nat.shiftLeft_eq]
      omega
    have hsum : (a % 16) <<< 12 + (x % 64) <<< 6 = (a % 16 * 64 + x % 64) <<< 6 := by
      rw [Nat.shiftLeft_eq, Nat.shiftLeft_eq, Nat.shiftLeft_eq]
      omega
    rw [← Nat.shiftLeft_add_eq_or_of_lt hx, hsum, ← Nat.shiftLeft_add_eq_or_of_lt (Nat.mod_lt _ (by decide)),
      Nat.shiftLeft_eq]
    omega
  have hthree : ¬32 + a < 32 := by omega
  have hmod : (32 + a) % 16 = a % 16 := by omega
  rw [Form.tail, Form.tail]
  generalize UInt8.ofNat (224 + a) = c₀ at *
  generalize UInt8.ofNat (x % 64 + 128) = c₁ at *
  generalize UInt8.ofNat (y % 64 + 128) = c₂ at *
  simp [utf8ToLC, h80, h40, h20, hthree, hf, hmod, hc0, h3f, hc0', h3f', hcode]

/-- A byte that continues a character is none itself. -/
theorem utf8ToLC_tail (x : Nat) (s : Bytes) : utf8ToLC l (Form.tail x :: s) = (0, 1) := by
  obtain ⟨-, -, h80, h40⟩ := further_bits (x % 64) (Nat.mod_lt _ (by decide))
  rw [Form.tail]
  generalize UInt8.ofNat (x % 64 + 128) = c₀ at *
  simp [utf8ToLC, h80, h40]

/-- A character of up to three bytes is decoded; of one of four the first three bytes are. -/
theorem utf8ToLC_encode (c : Char) (s : Bytes) :
    c.toNat < 0x10000 ∧
        utf8ToLC l (String.utf8EncodeChar c ++ s) = (foldChar l c, (String.utf8EncodeChar c).length) ∨
      0x10000 ≤ c.toNat ∧ ∃ c₀ c₁ c₂ x, String.utf8EncodeChar c = [c₀, c₁, c₂, Form.tail x] ∧
        utf8ToLC l (String.utf8EncodeChar c ++ s) = (l.toLower (c.toNat / 64), 3) := by
  obtain ⟨f, hcode, hshort⟩ := exists_shortest c
  rw [encodeChar_eq hcode hshort]
  obtain ⟨x, hx⟩ | ⟨x, hx⟩ | ⟨x, hx⟩ | ⟨x, hx⟩ := f <;> simp only [Form.code, Form.Overlong] at hcode hshort <;>
    rw [foldChar, ← hcode]
  · have hlt : UInt8.ofNat x < 0x80 := by
      rw [UInt8.lt_iff_toNat_lt, UInt8.toNat_ofNat', Nat.mod_eq_of_lt (by omega)]
      exact hx
    refine Or.inl ⟨by omega, ?_⟩
    rw [if_pos hx]
    exact utf8ToLC_ascii l hlt s
  · have hsum : x / 64 * 64 + x % 64 = x := by omega
    have htwo := utf8ToLC_two l (show x / 64 < 32 by omega) x s
    rw [hsum] at htwo
    refine Or.inl ⟨by omega, ?_⟩
    rw [if_neg hshort]
    exact htwo
  · have hsum : x / 4096 % 16 * 4096 + x / 64 % 64 * 64 + x % 64 = x := by omega
    have hthree := utf8ToLC_three l (show x / 4096 < 24 by omega) (x / 64) x s
    rw [hsum] at hthree
    refine Or.inl ⟨by omega, ?_⟩
    rw [if_neg (by omega)]
    exact hthree
  · have hsum : (16 + x / 262144) % 16 * 4096 + x / 4096 % 64 * 64 + x / 64 % 64 = x / 64 := by omega
    have hfour := utf8ToLC_three l (show 16 + x / 262144 < 24 by omega) (x / 4096) (x / 64) (Form.tail x :: s)
    rw [hsum, ← Nat.add_assoc] at hfour
    exact Or.inr ⟨by omega, _, _, _, x, rfl, hfour⟩

theorem head_encode {c : Char} (hc : c.toNat ≠ 0) (s : Bytes) :
    ∃ b rest, String.utf8EncodeChar c ++ s = b :: rest ∧ b ≠ 0 := by
  obtain ⟨f, hcode, hshort⟩ := exists_shortest c
  rw [encodeChar_eq hcode hshort]
  have hlead : ∀ {a}, a < 56 → UInt8.ofNat (192 + a) ≠ 0 := fun ha hzero => by
    obtain ⟨h80, -⟩ := lead_bits _ ha
    rw [hzero] at h80
    exact h80 rfl
  obtain ⟨x, hx⟩ | ⟨x, hx⟩ | ⟨x, hx⟩ | ⟨x, hx⟩ := f
  · refine ⟨UInt8.ofNat x, s, rfl, fun hzero => hc ?_⟩
    rw [← UInt8.toNat_inj, UInt8.toNat_ofNat', Nat.mod_eq_of_lt (by omega)] at hzero
    rw [← hcode]
    exact hzero
  · exact ⟨_, _, rfl, hlead (show x / 64 < 56 by omega)⟩
  · refine ⟨_, _, rfl, ?_⟩
    have hthree := hlead (show 32 + x / 4096 < 56 by omega)
    rwa [← Nat.add_assoc] at hthree
  · refine ⟨_, _, rfl, ?_⟩
    have hfour := hlead (show 48 + x / 262144 < 56 by omega)
    rwa [← Nat.add_assoc] at hfour

theorem tail_ne_zero (x : Nat) : Form.tail x ≠ 0 := fun hzero => by
  obtain ⟨-, -, h80, -⟩ := further_bits (x % 64) (Nat.mod_lt _ (by decide))
  rw [Form.tail] at hzero
  rw [hzero] at h80
  exact h80 rfl

theorem unitsUntil_of_head {stop : Bytes → Bool} (hstop : ∀ b s, b ≠ 0 → stop (b :: s) = false) {b : UInt8}
    (hb : b ≠ 0) (s : Bytes) : unitsUntil l stop (b :: s) =
      (utf8ToLC l (b :: s)).1 :: unitsUntil l stop ((b :: s).drop (utf8ToLC l (b :: s)).2) := by
  rw [unitsUntil, dif_neg]
  simp [hstop b s hb]

/-- The codes of a character, and then those of what is behind it. -/
theorem unitsUntil_encodeChar {stop : Bytes → Bool} (hstop : ∀ b s, b ≠ 0 → stop (b :: s) = false) {c : Char}
    (hc : c.toNat ≠ 0) (s : Bytes) :
    unitsUntil l stop (String.utf8EncodeChar c ++ s) = charUnits l c ++ unitsUntil l stop s := by
  obtain ⟨b, rest, hbytes, hb⟩ := head_encode hc s
  rw [hbytes, unitsUntil_of_head l hstop hb, ← hbytes, charUnits]
  obtain ⟨hlow, hone⟩ | ⟨hhigh, c₀, c₁, c₂, x, hfour, hthree⟩ := utf8ToLC_encode l c s
  · rw [hone, if_pos hlow, List.drop_left]
    rfl
  · rw [hthree, if_neg (by omega), hfour]
    change _ :: unitsUntil l stop (Form.tail x :: s) = _
    rw [unitsUntil_of_head l hstop (tail_ne_zero x), utf8ToLC_tail]
    rfl

theorem unitsUntil_encode {stop : Bytes → Bool} (hstop : ∀ b s, b ≠ 0 → stop (b :: s) = false) {cs : List Char}
    (hcs : ∀ c ∈ cs, c.toNat ≠ 0) (s : Bytes) :
    unitsUntil l stop (encode cs ++ s) = unitsOf l cs ++ unitsUntil l stop s := by
  induction cs with
  | nil => rfl
  | cons c cs ih =>
    obtain ⟨hc, hrest⟩ := List.forall_mem_cons.mp hcs
    rw [encode, List.flatMap_cons, List.append_assoc, ← encode, unitsUntil_encodeChar l hstop hc, ih hrest, unitsOf,
      unitsOf, List.flatMap_cons, List.append_assoc]

theorem textUnits_encode {cs : List Char} (hcs : ∀ c ∈ cs, c.toNat ≠ 0) :
    textUnits l (encode cs ++ [0]) = unitsOf l cs ++ [0] := by
  have hnul : unitsUntil l (fun _ => false) [0] = [0] := by
    rw [unitsUntil, dif_neg (by simp), utf8ToLC_ascii l (by decide), List.drop_one, List.tail_cons, unitsUntil,
      dif_pos (Or.inl rfl)]
    rfl
  rw [textUnits, unitsUntil_encode l (fun _ _ _ => rfl) hcs, hnul]

theorem patternUnits_encode {cs : List Char} (hcs : ∀ c ∈ cs, c.toNat ≠ 0) (hne : cs ≠ []) :
    patternUnits l (encode cs) = unitsOf l cs := by
  have hstop : ∀ b s, b ≠ 0 → atNul (b :: s) = false := fun b s hb => decide_eq_false hb
  obtain ⟨c, cs', rfl⟩ := List.exists_cons_of_ne_nil hne
  obtain ⟨b, rest, hbytes, hb⟩ := head_encode (hcs c List.mem_cons_self) (encode cs' ++ [0])
  have hall : encode (c :: cs') ++ [0] = b :: rest := by
    rw [encode, List.flatMap_cons, List.append_assoc]
    exact hbytes
  have hnul : unitsUntil l atNul [0] = [] := by
    rw [unitsUntil, dif_pos (Or.inr (by rfl))]
  have hunits := unitsUntil_encode l hstop hcs [0]
  rw [hnul, List.append_nil, hall, unitsUntil_of_head l hstop hb] at hunits
  rw [patternUnits, hall]
  exact hunits

theorem encode_append (cs ds : List Char) : encode (cs ++ ds) = encode cs ++ encode ds := List.flatMap_append

theorem drop_encode (pre rest : List Char) :
    (encode (pre ++ rest) ++ [0]).drop (encode pre).length = encode rest ++ [0] := by
  rw [encode_append, List.append_assoc, List.drop_left]

theorem length_encode_pos {cs : List Char} (h : cs ≠ []) : 0 < (encode cs).length := by
  obtain ⟨c, cs', rfl⟩ := List.exists_cons_of_ne_nil h
  rw [encode, List.flatMap_cons, List.length_append, String.length_utf8EncodeChar]
  have hpos := c.utf8Size_pos
  omega

/-- The search goes on behind a character, and between only comes to the last byte of four. -/
theorem comes_encodeChar (pre : List Char) (c : Char) (rest : List Char) :
    Comes l (encode (pre ++ c :: rest) ++ [0]) (encode pre).length (encode (pre ++ [c])).length ∧
      ∀ q, Comes l (encode (pre ++ c :: rest) ++ [0]) (encode pre).length q → q = (encode pre).length ∨
        Comes l (encode (pre ++ c :: rest) ++ [0]) (encode (pre ++ [c])).length q ∨
        ∃ x, (encode (pre ++ c :: rest) ++ [0]).drop q = Form.tail x :: (encode rest ++ [0]) := by
  have hdrop := drop_encode pre (c :: rest)
  have hchar : encode (c :: rest) ++ [0] = String.utf8EncodeChar c ++ (encode rest ++ [0]) := by
    rw [encode, List.flatMap_cons, List.append_assoc]
    rfl
  have hone : encode [c] = String.utf8EncodeChar c := List.append_nil _
  rw [encode_append pre [c], hone, List.length_append]
  rw [hchar] at hdrop
  obtain ⟨-, hdecode⟩ | ⟨-, c₀, c₁, c₂, x, hfour, hdecode⟩ := utf8ToLC_encode l c (encode rest ++ [0])
  · have hstep : (utf8ToLC l ((encode (pre ++ c :: rest) ++ [0]).drop (encode pre).length)).2 =
        (String.utf8EncodeChar c).length := by rw [hdrop, hdecode]
    refine ⟨Comes.step l hstep (Comes.here _), fun q hq => ?_⟩
    cases hq with
    | here => exact Or.inl rfl
    | next hq =>
      rw [hstep] at hq
      exact Or.inr (Or.inl hq)
  · have hstep : (utf8ToLC l ((encode (pre ++ c :: rest) ++ [0]).drop (encode pre).length)).2 = 3 := by
      rw [hdrop, hdecode]
    have hthree : (encode (pre ++ c :: rest) ++ [0]).drop ((encode pre).length + 3) =
        Form.tail x :: (encode rest ++ [0]) := by
      rw [← List.drop_drop, hdrop, hfour]
      rfl
    have hlast : (utf8ToLC l ((encode (pre ++ c :: rest) ++ [0]).drop ((encode pre).length + 3))).2 = 1 := by
      rw [hthree, utf8ToLC_tail]
    have hlength : (encode pre).length + (String.utf8EncodeChar c).length = (encode pre).length + 3 + 1 := by
      rw [hfour]
      rfl
    rw [hlength]
    refine ⟨Comes.step l hstep (Comes.step l hlast (Comes.here _)), fun q hq => ?_⟩
    cases hq with
    | here => exact Or.inl rfl
    | next hq =>
      rw [hstep] at hq
      cases hq with
      | here => exact Or.inr (Or.inr ⟨x, hthree⟩)
      | next hq =>
        rw [hlast] at hq
        exact Or.inr (Or.inl hq)

/-- The search comes to every character. -/
theorem comes_encode (pre b rest : List Char) :
    Comes l (encode (pre ++ (b ++ rest)) ++ [0]) (encode pre).length (encode (pre ++ b)).length := by
  induction b generalizing pre with
  | nil =>
    rw [List.append_nil]
    exact Comes.here _
  | cons c b ih =>
    have hih := ih (pre ++ [c])
    rw [← List.append_cons, ← List.append_cons] at hih
    exact (comes_encodeChar l pre c (b ++ rest)).1.trans l hih

/-- Elsewhere it comes to places where nothing is found. -/
theorem comes_cases {pre rest : List Char} {q : Nat} (h : Comes l (encode (pre ++ rest) ++ [0]) (encode pre).length q)
    (hq : q < (encode (pre ++ rest)).length) :
    (∃ b a, rest = b ++ a ∧ q = (encode (pre ++ b)).length) ∨
      ∃ s, textUnits l ((encode (pre ++ rest) ++ [0]).drop q) = 0 :: s := by
  induction rest generalizing pre with
  | nil =>
    rw [List.append_nil] at hq h
    exact absurd h.le (not_le.mpr hq)
  | cons c rest ih =>
    obtain rfl | hnext | ⟨x, htail⟩ := (comes_encodeChar l pre c rest).2 q h
    · exact Or.inl ⟨[], c :: rest, rfl, by rw [List.append_nil]⟩
    · rw [List.append_cons pre c rest] at hnext hq ⊢
      obtain ⟨b, a, rfl, rfl⟩ | hzero := ih hnext hq
      · exact Or.inl ⟨c :: b, a, rfl, by rw [List.append_cons pre c b]⟩
      · exact Or.inr hzero
    · rw [htail, textUnits_of_ne l (List.cons_ne_nil _ _), utf8ToLC_tail]
      exact Or.inr ⟨_, rfl⟩

theorem asciiToLower_ne_zero {c : UInt8} (h : (asciiToLower c).toNat = 0) : c.toNat = 0 := by
  rw [asciiToLower] at h
  split at h
  next hupper =>
    have hge : 65 ≤ c.toNat := UInt8.le_iff_toNat_le.mp hupper.1
    have hle : c.toNat ≤ 90 := UInt8.le_iff_toNat_le.mp hupper.2
    rw [UInt8.toNat_add] at h
    change (c.toNat + 32) % 256 = 0 at h
    omega
  next => exact h

theorem foldChar_ne_zero {c : Char} (hc : c.toNat ≠ 0) : foldChar l c ≠ 0 := by
  intro hzero
  rw [foldChar] at hzero
  split at hzero
  next hascii =>
    have hbyte := asciiToLower_ne_zero hzero
    rw [UInt8.toNat_ofNat', Nat.mod_eq_of_lt (by omega)] at hbyte
    exact hc hbyte
  next => exact hc ((l.nul _).mp hzero)

/-- The first code of a pattern is none of those that nothing has. -/
theorem unitsOf_ne_zero {cs : List Char} (hcs : ∀ c ∈ cs, c.toNat ≠ 0) (hne : cs ≠ []) (s : List Nat) :
    ¬unitsOf l cs <+: 0 :: s ∧ ¬(0 :: s <+: unitsOf l cs) := by
  obtain ⟨c, cs, rfl⟩ := List.exists_cons_of_ne_nil hne
  have hc := hcs c List.mem_cons_self
  obtain ⟨u, us, hunits, hu⟩ : ∃ u us, unitsOf l (c :: cs) = u :: us ∧ u ≠ 0 := by
    rw [unitsOf, List.flatMap_cons, charUnits]
    split
    next hlow => exact ⟨foldChar l c, _, rfl, foldChar_ne_zero l hc⟩
    next hhigh =>
      refine ⟨_, _, rfl, fun hzero => ?_⟩
      have hcode := (l.nul _).mp hzero
      omega
  rw [hunits]
  exact ⟨fun h => hu (List.cons_prefix_cons.mp h).1, fun h => hu (List.cons_prefix_cons.mp h).1.symm⟩

/-- A search for a text in what is before and after a place of another one, from that place. -/
structure TextSearch where
  before : List Char
  after : List Char
  pattern : List Char
  text_nul : ∀ c ∈ before ++ after, c.toNat ≠ 0
  pattern_nul : ∀ c ∈ pattern, c.toNat ≠ 0
  pattern_ne : pattern ≠ []

namespace TextSearch

variable (x : TextSearch)

def text : Bytes := encode (x.before ++ x.after)

def start : Nat := (encode x.before).length

def run : Option (Option Nat) := findSubStringRead l x.text (encode x.pattern) x.start

/-- The pattern is at the beginning of `rest` when none of the characters has its case. -/
def Folded (rest : List Char) : Prop := x.pattern.map (foldChar l) <+: rest.map (foldChar l)

/-- The pattern is at no place from the start on before the one that has `rest` behind it. -/
def NotBefore (rest : List Char) : Prop :=
  ∀ b a, x.after = b ++ a → (encode rest).length < (encode a).length → ¬x.Folded l a

/-- The first place at which the pattern is, and `npos` where there is none. -/
def Finds : Option Nat → Prop
  | some p => ∃ b a, x.after = b ++ a ∧ p = (encode (x.before ++ b)).length ∧ x.Folded l a ∧ x.NotBefore l a
  | none => ∀ b a, x.after = b ++ a → ¬x.Folded l a

/-- The search reads nothing behind the strings and finds the first place. -/
def Right : Prop := ∃ r, x.run l = some r ∧ x.Finds l r

/-- At `rest` the codes that the search compares, and the room that it asks for, tell whether the pattern is there. -/
structure Agrees (rest : List Char) : Prop where
  room : x.Folded l rest → (encode x.pattern).length ≤ (encode rest).length
  kept : x.Folded l rest → unitsOf l x.pattern <+: unitsOf l rest ++ [0]
  honest : (encode x.pattern).length ≤ (encode rest).length → unitsOf l x.pattern <+: unitsOf l rest ++ [0] →
    x.Folded l rest
  inside : (encode x.pattern).length ≤ (encode rest).length →
    ¬(unitsOf l rest ++ [0] <+: unitsOf l x.pattern ∧ unitsOf l rest ++ [0] ≠ unitsOf l x.pattern)

/-- The codes of the pattern compared at the beginning of `rest`. -/
def compareWith (rest : List Char) : Option Bool := follow (unitsOf l x.pattern) (unitsOf l rest ++ [0])

variable {l x}

theorem compareWith_eq_false {rest : List Char} : x.compareWith l rest = some false ↔
    ¬unitsOf l x.pattern <+: unitsOf l rest ++ [0] ∧
      ¬(unitsOf l rest ++ [0] <+: unitsOf l x.pattern ∧ unitsOf l rest ++ [0] ≠ unitsOf l x.pattern) := by
  rw [← follow_eq_true, ← follow_eq_none, compareWith]
  cases follow (unitsOf l x.pattern) (unitsOf l rest ++ [0]) with
  | none => simp
  | some b => cases b <;> simp

theorem length_place {b a : List Char} (h : x.after = b ++ a) :
    (encode (x.before ++ b)).length + (encode a).length = x.text.length := by
  rw [text, h, ← List.append_assoc, encode_append (x.before ++ b) a, List.length_append]

theorem compareAt_place {b a : List Char} (h : x.after = b ++ a) :
    compareAt l (patternUnits l (encode x.pattern)) (x.text ++ [0]) (encode (x.before ++ b)).length =
      x.compareWith l a := by
  have hnul : ∀ c ∈ a, c.toNat ≠ 0 := fun c hc => x.text_nul c (by
    rw [h]
    exact List.mem_append_right _ (List.mem_append_right _ hc))
  rw [compareAt, patternUnits_encode l x.pattern_nul x.pattern_ne, text, h, ← List.append_assoc, drop_encode,
    textUnits_encode l hnul, compareWith]

theorem comes_place {b a : List Char} (h : x.after = b ++ a) :
    Comes l (x.text ++ [0]) x.start (encode (x.before ++ b)).length := by
  rw [text, h]
  exact comes_encode l x.before b a

/-- The search stops at the first character from which the codes of the pattern are found, or end too early. -/
theorem run_cases :
    (x.run l = some none ∧ ∀ b a, x.after = b ++ a → (encode x.pattern).length ≤ (encode a).length →
        x.compareWith l a = some false) ∨
      ∃ b a, x.after = b ++ a ∧ (encode x.pattern).length ≤ (encode a).length ∧ x.compareWith l a ≠ some false ∧
        (∀ b' a', x.after = b' ++ a' → (encode a).length < (encode a').length → x.compareWith l a' = some false) ∧
        x.run l = (x.compareWith l a).map fun _ => some (encode (x.before ++ b)).length := by
  have hpos := length_encode_pos x.pattern_ne
  obtain ⟨hnone, hall⟩ | ⟨r, hr, hcomes, hat, hall, hsome⟩ :=
    findSubStringRead_cases l (List.length_pos_iff.mp hpos) x.text x.start
  · refine Or.inl ⟨hnone, fun b a h hroom => ?_⟩
    have hlength := length_place h
    rw [← compareAt_place h]
    exact hall _ (by omega) (comes_place h)
  · have hlt : r < x.text.length := by omega
    obtain ⟨b, a, h, rfl⟩ | ⟨s, hzero⟩ := comes_cases l hcomes hlt
    · have hlength := length_place h
      rw [compareAt_place h] at hat hsome
      refine Or.inr ⟨b, a, h, by omega, hat, fun b' a' h' hlt => ?_, hsome⟩
      have hlength' := length_place h'
      rw [← compareAt_place h']
      exact hall _ (by omega) (comes_place h')
    · -- At the last byte of four there is no code of a character.
      refine absurd ?_ hat
      obtain ⟨hno, hno'⟩ := unitsOf_ne_zero l x.pattern_nul x.pattern_ne s
      rw [compareAt_eq_false, Found, EndsBefore, patternUnits_encode l x.pattern_nul x.pattern_ne]
      change ¬_ <+: textUnits l ((encode (x.before ++ x.after) ++ [0]).drop r) ∧
        ¬(textUnits l ((encode (x.before ++ x.after) ++ [0]).drop r) <+: _ ∧ _)
      rw [hzero]
      exact ⟨hno, fun h => hno' h.1⟩

theorem Agrees.of_false {rest : List Char} (hfolded : ¬x.Folded l rest)
    (h : (encode x.pattern).length ≤ (encode rest).length → x.compareWith l rest = some false) : x.Agrees l rest where
  room hf := absurd hf hfolded
  kept hf := absurd hf hfolded
  honest hroom hfound := absurd hfound (compareWith_eq_false.mp (h hroom)).1
  inside hroom := (compareWith_eq_false.mp (h hroom)).2

/-- Where nothing is found at the characters that agree, the pattern is not there. -/
theorem not_folded_of_false {rest : List Char} (hagrees : x.Agrees l rest)
    (h : (encode x.pattern).length ≤ (encode rest).length → x.compareWith l rest = some false) : ¬x.Folded l rest :=
  fun hf => (compareWith_eq_false.mp (h (hagrees.room hf))).1 (hagrees.kept hf)

/-- Where nothing is found from the start on, and the characters agree, the pattern is nowhere. -/
theorem not_folded_of_agrees (hagrees : ∀ b a, x.after = b ++ a → x.NotBefore l a → x.Agrees l a) {n : Nat}
    (hfalse : ∀ b a, x.after = b ++ a → n ≤ (encode a).length → (encode x.pattern).length ≤ (encode a).length →
      x.compareWith l a = some false) {b a : List Char} (h : x.after = b ++ a) (hn : n ≤ (encode a).length) :
    ¬x.Folded l a := by
  induction hk : (encode (x.before ++ b)).length using Nat.strong_induction_on generalizing b a with
  | _ k ih =>
    subst hk
    have hlength := length_place h
    refine not_folded_of_false (hagrees b a h fun b' a' h' hlt => ?_) (hfalse b a h hn)
    have hlength' := length_place h'
    exact ih _ (by omega) h' (by omega) rfl

theorem rest_unique {b a b' a' : List Char} (h : x.after = b ++ a) (h' : x.after = b' ++ a')
    (hlength : (encode a).length = (encode a').length) : a = a' := by
  have hempty : ∀ {c d : List Char}, (encode (c ++ d)).length = (encode d).length → c = [] := fun heq => by
    by_contra hne
    have hpos := length_encode_pos hne
    rw [encode_append, List.length_append] at heq
    omega
  obtain ⟨c, -, rfl⟩ | ⟨c, -, rfl⟩ := List.append_eq_append_iff.mp (h.symm.trans h')
  · rw [hempty hlength, List.nil_append]
  · rw [hempty hlength.symm, List.nil_append]

/-- The search is right if and only if, up to the first place at which the pattern is, the codes that it compares and
the room that it asks for say whether the pattern is there. -/
theorem right_iff_agrees : x.Right l ↔ ∀ b a, x.after = b ++ a → x.NotBefore l a → x.Agrees l a := by
  constructor
  · rintro ⟨r, hrun, hfinds⟩ b a h hbefore
    obtain ⟨hnone, hall⟩ | ⟨b₀, a₀, h₀, hroom, hat, hall, hsome⟩ := run_cases (l := l) (x := x)
    · obtain rfl : r = none := Option.some.inj (hrun.symm.trans hnone)
      exact Agrees.of_false (hfinds b a h) (hall b a h)
    · have hfound : x.compareWith l a₀ = some true := by
        rw [hsome] at hrun
        cases hcompare : x.compareWith l a₀ with
        | none =>
          rw [hcompare] at hrun
          cases hrun
        | some found =>
          cases found with
          | false => exact absurd hcompare hat
          | true => rfl
      rw [hsome, hfound] at hrun
      obtain rfl : some _ = r := Option.some.inj hrun
      obtain ⟨b₁, a₁, h₁, hplace, hfolded, hfirst⟩ := hfinds
      have hlength₀ := length_place h₀
      have hlength₁ := length_place h₁
      obtain rfl : a₀ = a₁ := rest_unique h₀ h₁ (by omega)
      obtain hlt | heq | hgt := lt_trichotomy (encode a).length (encode a₀).length
      · exact absurd hfolded (hbefore b₀ a₀ h₀ hlt)
      · obtain rfl : a = a₀ := rest_unique h h₀ heq
        refine ⟨fun _ => hroom, fun _ => follow_eq_true.mp hfound, fun _ _ => hfolded, fun _ hends => ?_⟩
        exact absurd (hfound.symm.trans (follow_eq_none.mpr hends)) (by simp)
      · exact Agrees.of_false (hfirst b a h hgt) fun _ => hall b a h hgt
  · intro hagrees
    obtain ⟨hnone, hall⟩ | ⟨b₀, a₀, h₀, hroom, hat, hall, hsome⟩ := run_cases (l := l) (x := x)
    · exact ⟨none, hnone, fun b a h => not_folded_of_agrees hagrees (fun b a h _ => hall b a h) h (Nat.zero_le _)⟩
    · have hbefore : x.NotBefore l a₀ := fun b a h hlt =>
        not_folded_of_agrees hagrees (fun b a h hlt _ => hall b a h hlt) h hlt
      obtain ⟨-, -, hhonest, hinside⟩ := hagrees b₀ a₀ h₀ hbefore
      have hfound : unitsOf l x.pattern <+: unitsOf l a₀ ++ [0] := by
        by_contra hno
        exact hat (compareWith_eq_false.mpr ⟨hno, hinside hroom⟩)
      have hrun : x.run l = some (some (encode (x.before ++ b₀)).length) := by
        have hcompare : x.compareWith l a₀ = some true := follow_eq_true.mpr hfound
        rw [hsome, hcompare]
        rfl
      exact ⟨_, hrun, b₀, a₀, h₀, rfl, hhonest hroom hfound, hbefore⟩

theorem unitsOf_of_low {cs : List Char} (h : ∀ c ∈ cs, c.toNat < 0x10000) : unitsOf l cs = cs.map (foldChar l) := by
  induction cs with
  | nil => rfl
  | cons c cs ih =>
    obtain ⟨hc, hcs⟩ := List.forall_mem_cons.mp h
    rw [unitsOf, List.flatMap_cons, charUnits, if_pos hc, ← unitsOf, ih hcs]
    rfl

/-- Without code points above U+FFFF it is only the room for the bytes of the pattern that may be missing. -/
theorem agrees_iff_of_low {rest : List Char} (hrest : ∀ c ∈ rest, c.toNat < 0x10000)
    (hpattern : ∀ c ∈ x.pattern, c.toNat < 0x10000) :
    x.Agrees l rest ↔ (x.Folded l rest → (encode x.pattern).length ≤ (encode rest).length) := by
  have hzero : 0 ∉ x.pattern.map (foldChar l) := fun hmem => by
    obtain ⟨c, hc, heq⟩ := List.mem_map.mp hmem
    exact foldChar_ne_zero l (x.pattern_nul c hc) heq
  have hfound : x.pattern.map (foldChar l) <+: rest.map (foldChar l) ++ [0] → x.Folded l rest := fun hstarts => by
    obtain h | heq := List.prefix_concat_iff.mp hstarts |>.symm
    · exact h
    · exact absurd (heq ▸ List.mem_append_right _ (List.mem_singleton_self 0)) hzero
  refine ⟨fun h => h.room, fun h => ⟨h, fun hfolded => ?_, fun _ => ?_, fun _ => ?_⟩⟩
  · rw [unitsOf_of_low hpattern, unitsOf_of_low hrest]
    exact hfolded.trans (List.prefix_append _ _)
  · rw [unitsOf_of_low hpattern, unitsOf_of_low hrest]
    exact hfound
  · rw [unitsOf_of_low hpattern, unitsOf_of_low hrest]
    exact fun hends => hzero (hends.1.subset (List.mem_append_right _ (List.mem_singleton_self 0)))

end TextSearch

/-- The search finds the first place, without regard to the case, if and only if up to there the codes that it compares
and the room that it asks for say whether the pattern is there. Whatever the bytes are, it reads nothing behind the
strings if and only if it comes to no place from which the text ends, with its NUL, where the pattern goes on. -/
theorem findSubStringRead_right_iff (l : Locale) :
    (∀ x : TextSearch, x.Right l ↔ ∀ b a, x.after = b ++ a → x.NotBefore l a → x.Agrees l a) ∧
      ∀ (aString aSubString : Bytes) (start : Nat), (findSubStringRead l aString aSubString start).isSome = true ↔
        ∀ p, p + aSubString.length ≤ aString.length → Comes l (aString ++ [0]) start p →
          (∀ q < p, Comes l (aString ++ [0]) start q → ¬Found l aString aSubString q) →
          ¬EndsBefore l aString aSubString p :=
  ⟨fun _ => TextSearch.right_iff_agrees, fun _ _ _ => findSubStringRead_isSome_iff l⟩

/-- A search for U+1F601 in U+1F600. -/
def otherFace : TextSearch where
  before := []
  after := [Char.ofNat 0x1f600]
  pattern := [Char.ofNat 0x1f601]
  text_nul c hc := by
    obtain rfl := List.mem_singleton.mp hc
    decide
  pattern_nul c hc := by
    obtain rfl := List.mem_singleton.mp hc
    decide
  pattern_ne := List.cons_ne_nil _ _

/-- Two code points that differ in the last byte only are taken for the same, and a pattern that goes on behind the
NUL of the text has that read. -/
theorem not_findSubStringRead_right : ¬otherFace.Right ascii ∧
    findSubStringRead ascii [0xc0, 0x80, 0xc0, 0x80] [0x80, 0x80, 0x80, 0x80] 0 = none := by
  constructor
  · intro h
    have hfirst : otherFace.NotBefore ascii otherFace.after := fun b a hafter hlt => by
      rw [hafter, encode_append, List.length_append] at hlt
      omega
    have hfolded := (TextSearch.right_iff_agrees.mp h [] _ rfl hfirst).honest (by decide) (by decide)
    have hno : ¬otherFace.pattern.map (foldChar ascii) <+: otherFace.after.map (foldChar ascii) := by decide
    exact hno hfolded
  · decide +kernel

end Dcpp.Util
