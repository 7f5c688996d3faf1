import Dcpp.Utf8

-- What the decoder takes, beside what UTF-8 is.
namespace Dcpp.Text

/-- The scalar values of Unicode in their shortest forms. -/
def WellFormed (s : Bytes) : Prop := ∃ cs : List Char, s = encode cs

/-- A first byte and as many others as it announces. The form need not be the shortest one for its code. -/
inductive Form
  | one (x : Fin 0x80)
  | two (x : Fin 0x800)
  | three (x : Fin 0x10000)
  | four (x : Fin 0x200000)

namespace Form

def code : Form → Nat
  | one x => x
  | two x => x
  | three x => x
  | four x => x

def tail (x : Nat) : UInt8 := UInt8.ofNat (x % 64 + 128)

def bytes : Form → Bytes
  | one x => [UInt8.ofNat x]
  | two x => [UInt8.ofNat (192 + x / 64), tail x]
  | three x => [UInt8.ofNat (224 + x / 4096), tail (x / 64), tail x]
  | four x => [UInt8.ofNat (240 + x / 262144), tail (x / 4096), tail (x / 64), tail x]

/-- The code is one of the scalar values. -/
def IsScalar (x : Nat) : Prop := x ≤ 0x10ffff ∧ ¬(0xd800 ≤ x ∧ x ≤ 0xdfff)

/-- A shorter form has room for the code. -/
def Overlong : Form → Prop
  | one _ => False
  | two x => x.val < 0x80
  | three x => x.val < 0x800
  | four x => x.val < 0x10000

def Proper (f : Form) : Prop := IsScalar f.code ∧ ¬f.Overlong

/-- Cut to a `wchar_t`, the code is a scalar value. -/
def Taken (wcharBits : Nat) (f : Form) : Prop := IsScalar (f.code % 2 ^ wcharBits)

end Form

open Form

theorem utf8ToWc_finish {wcharBits : Nat} {s : Bytes} (bytes c₀ : Nat) (hc₀ : (s.headD 0).toNat = c₀)
    (hbytes : announced c₀ = bytes) (hlead : c₀ &&& 0xc0 = 0xc0) (hbit : c₀ &&& 1 <<< (7 - bytes) = 0) :
    utf8ToWc wcharBits s =
      finish bytes (continuation wcharBits ((1 <<< (7 - bytes) - 1) &&& c₀) 1 (bytes - 1) s.tail) := by
  subst hc₀
  rw [announced] at hbytes
  rw [utf8ToWc]
  dsimp only
  rw [hbytes, if_pos hlead, if_neg (not_not_intro hbit)]
  rfl

theorem announced_two : ∀ a < 32, announced (192 + a) = 2 := by decide

theorem announced_three : ∀ a < 16, announced (224 + a) = 3 := by decide

theorem announced_four : ∀ a < 8, announced (240 + a) = 4 := by decide

theorem continuation_tail (wcharBits c i left x : Nat) (rest : Bytes) :
    continuation wcharBits c i (left + 1) (Form.tail x :: rest) =
      continuation wcharBits ((c * 64 + x % 64) % 2 ^ wcharBits) (i + 1) left rest :=
  continuation_cons wcharBits c i left (Nat.mod_lt _ (by decide)) rest

/-- The decoder takes any form, and then looks at the code. -/
theorem utf8ToWc_form (wcharBits : Nat) (f : Form) (rest : Bytes) (hwide : 16 ≤ wcharBits) :
    utf8ToWc wcharBits (f.bytes ++ rest) = finish f.bytes.length ((f.bytes.length : Int), f.code % 2 ^ wcharBits) := by
  obtain ⟨x, hx⟩ | ⟨x, hx⟩ | ⟨x, hx⟩ | ⟨x, hx⟩ := f
  · have hpow : 2 ^ 16 ≤ 2 ^ wcharBits := Nat.pow_le_pow_right (by omega) hwide
    have hmod : x % 2 ^ wcharBits = x := Nat.mod_eq_of_lt (by omega)
    have hhead : (((Form.one ⟨x, hx⟩).bytes ++ rest).headD 0).toNat = x := by
      change (UInt8.ofNat x).toNat = x
      rw [UInt8.toNat_ofNat']
      omega
    rw [utf8ToWc_ascii wcharBits (by omega), hhead]
    simp only [Form.code, hmod, finish]
    rw [if_neg (by simp [Form.bytes]), if_neg (by omega)]
    rfl
  · obtain ⟨h20, -, hc0, hlow⟩ := lead_two (x / 64) (by omega)
    have hsum : x / 64 * 64 + x % 64 = x := by omega
    rw [utf8ToWc_finish 2 (192 + x / 64) ?_ (announced_two _ (by omega)) hc0 h20]
    · change finish 2 (continuation _ (31 &&& _) 1 (0 + 1) (Form.tail x :: rest)) = _
      rw [hlow, continuation_tail, hsum, continuation]
      rfl
    · change (UInt8.ofNat (192 + x / 64)).toNat = _
      rw [UInt8.toNat_ofNat']
      omega
  · obtain ⟨-, -, hc0, hbit, hlow⟩ := lead_three (x / 4096) (by omega)
    have hsum : (x / 4096 * 64 + x / 64 % 64) * 64 + x % 64 = x := by omega
    rw [utf8ToWc_finish 3 (224 + x / 4096) ?_ (announced_three _ (by omega)) hc0 hbit]
    · change finish 3 (continuation _ (15 &&& _) 1 (1 + 1) (Form.tail (x / 64) :: Form.tail x :: rest)) = _
      rw [hlow, continuation_tail, continuation_tail, cut_mul_add, hsum, continuation]
      rfl
    · change (UInt8.ofNat (224 + x / 4096)).toNat = _
      rw [UInt8.toNat_ofNat']
      omega
  · obtain ⟨-, -, hc0, hbit, hlow⟩ := lead_four (x / 262144) (by omega)
    have hsum : ((x / 262144 * 64 + x / 4096 % 64) * 64 + x / 64 % 64) * 64 + x % 64 = x := by omega
    rw [utf8ToWc_finish 4 (240 + x / 262144) ?_ (announced_four _ (by omega)) hc0 hbit]
    · change finish 4 (continuation _ (7 &&& _) 1 (2 + 1)
        (Form.tail (x / 4096) :: Form.tail (x / 64) :: Form.tail x :: rest)) = _
      rw [hlow, continuation_tail, continuation_tail, cut_mul_add, continuation_tail, cut_mul_add, hsum, continuation]
      rfl
    · change (UInt8.ofNat (240 + x / 262144)).toNat = _
      rw [UInt8.toNat_ofNat']
      omega

theorem utf8ToWc_of_taken {wcharBits : Nat} {f : Form} (h : f.Taken wcharBits) (rest : Bytes)
    (hwide : 16 ≤ wcharBits) :
    utf8ToWc wcharBits (f.bytes ++ rest) = ((f.bytes.length : Int), f.code % 2 ^ wcharBits) := by
  obtain ⟨hle, hno⟩ := h
  rw [utf8ToWc_form wcharBits f rest hwide, finish, if_neg (by dsimp only; omega)]
  exact if_neg (by dsimp only; omega)

theorem utf8ToWc_of_not_taken {wcharBits : Nat} {f : Form} (h : ¬f.Taken wcharBits) (rest : Bytes)
    (hwide : 16 ≤ wcharBits) : utf8ToWc wcharBits (f.bytes ++ rest) = (-(f.bytes.length : Int), 0xfffd) := by
  rw [Form.Taken, IsScalar] at h
  rw [utf8ToWc_form wcharBits f rest hwide, finish, if_neg (by dsimp only; omega)]
  exact if_pos (by dsimp only; omega)

/-- A byte that continues a character stands where one is asked for. -/
theorem continuation_continues {wcharBits c i : Nat} (left : Nat) {str : Bytes} (hi : 0 < i)
    (h : 0 ≤ (continuation wcharBits c i (left + 1) str).1) :
    ∃ x rest, x < 64 ∧ str = UInt8.ofNat (x + 128) :: rest ∧
      0 ≤ (continuation wcharBits ((c * 64 + x) % 2 ^ wcharBits) (i + 1) left rest).1 := by
  have hbits : ∀ n < 256, n &&& 0xc0 = 0x80 → 128 ≤ n ∧ n < 192 := by decide +kernel
  rw [continuation] at h
  split at h
  next =>
    dsimp only at h
    omega
  next hlead =>
    cases str with
    | nil => exact absurd (not_not.mp hlead) (by decide)
    | cons b rest =>
      obtain ⟨hle, hlt⟩ := hbits b.toNat b.toNat_lt (not_not.mp hlead)
      obtain ⟨-, hlow⟩ := following (b.toNat - 128) (by omega)
      have hb : 128 + (b.toNat - 128) = b.toNat := by omega
      refine ⟨b.toNat - 128, rest, by omega, ?_, ?_⟩
      · rw [Nat.sub_add_cancel hle, UInt8.ofNat_toNat]
      · rw [hb] at hlow
        simp only [List.headD_cons, List.tail_cons, hlow] at h
        have hshift : c <<< 6 ||| (b.toNat - 128) = c * 64 + (b.toNat - 128) := by
          rw [← Nat.shiftLeft_add_eq_or_of_lt (i := 6) (by omega), Nat.shiftLeft_eq]
        rwa [hshift] at h

theorem lead_cases : ∀ n < 256, n &&& 0xc0 = 0xc0 ∧ n &&& 1 <<< (7 - announced n) = 0 →
    announced n = 2 ∧ 192 ≤ n ∧ n < 224 ∨ announced n = 3 ∧ 224 ≤ n ∧ n < 240 ∨
      announced n = 4 ∧ 240 ≤ n ∧ n < 248 := by decide +kernel

theorem finish_nonneg {bytes : Nat} {r : Int × Nat} (h : 0 ≤ (finish bytes r).1) : 0 ≤ r.1 := by
  rw [finish] at h
  split at h <;> omega

/-- What is decoded is a form. -/
theorem exists_form {wcharBits : Nat} {s : Bytes} (hs : s ≠ []) (h : 0 ≤ (utf8ToWc wcharBits s).1) :
    ∃ (f : Form) (rest : Bytes), s = f.bytes ++ rest := by
  obtain ⟨b, t, rfl⟩ := List.exists_cons_of_ne_nil hs
  have hb := b.toNat_lt
  have hof (n : Nat) (hn : n = b.toNat) : UInt8.ofNat n = b := by rw [hn, UInt8.ofNat_toNat]
  by_cases hlead : b.toNat &&& 0xc0 = 0xc0
  · by_cases hbit : b.toNat &&& 1 <<< (7 - announced b.toNat) = 0
    · rw [utf8ToWc_finish _ b.toNat rfl rfl hlead hbit] at h
      have hnonneg := finish_nonneg h
      obtain ⟨hbytes, hlow, hhigh⟩ | ⟨hbytes, hlow, hhigh⟩ | ⟨hbytes, hlow, hhigh⟩ := lead_cases _ hb ⟨hlead, hbit⟩
      · rw [hbytes] at hnonneg
        obtain ⟨x, t₁, hx, ht, -⟩ := continuation_continues 0 Nat.one_pos hnonneg
        rw [List.tail_cons] at ht
        refine ⟨Form.two ⟨(b.toNat - 192) * 64 + x, by omega⟩, t₁, ?_⟩
        have hfirst := hof (192 + ((b.toNat - 192) * 64 + x) / 64) (by omega)
        have hsecond : ((b.toNat - 192) * 64 + x) % 64 = x := by omega
        rw [ht, Form.bytes, Form.tail, hfirst, hsecond]
        rfl
      · rw [hbytes] at hnonneg
        obtain ⟨x, t₁, hx, ht, hnonneg⟩ := continuation_continues 1 Nat.one_pos hnonneg
        obtain ⟨y, t₂, hy, ht₁, -⟩ := continuation_continues 0 (Nat.succ_pos 1) hnonneg
        rw [List.tail_cons] at ht
        refine ⟨Form.three ⟨((b.toNat - 224) * 64 + x) * 64 + y, by omega⟩, t₂, ?_⟩
        have hfirst := hof (224 + (((b.toNat - 224) * 64 + x) * 64 + y) / 4096) (by omega)
        have hsecond : (((b.toNat - 224) * 64 + x) * 64 + y) / 64 % 64 = x := by omega
        have hthird : (((b.toNat - 224) * 64 + x) * 64 + y) % 64 = y := by omega
        rw [ht, ht₁, Form.bytes, Form.tail, Form.tail, hfirst, hsecond, hthird]
        rfl
      · rw [hbytes] at hnonneg
        obtain ⟨x, t₁, hx, ht, hnonneg⟩ := continuation_continues 2 Nat.one_pos hnonneg
        obtain ⟨y, t₂, hy, ht₁, hnonneg⟩ := continuation_continues 1 (Nat.succ_pos 1) hnonneg
        obtain ⟨z, t₃, hz, ht₂, -⟩ := continuation_continues 0 (Nat.succ_pos 2) hnonneg
        rw [List.tail_cons] at ht
        refine ⟨Form.four ⟨(((b.toNat - 240) * 64 + x) * 64 + y) * 64 + z, by omega⟩, t₃, ?_⟩
        have hfirst := hof (240 + ((((b.toNat - 240) * 64 + x) * 64 + y) * 64 + z) / 262144) (by omega)
        have hsecond : ((((b.toNat - 240) * 64 + x) * 64 + y) * 64 + z) / 4096 % 64 = x := by omega
        have hthird : ((((b.toNat - 240) * 64 + x) * 64 + y) * 64 + z) / 64 % 64 = y := by omega
        have hfourth : ((((b.toNat - 240) * 64 + x) * 64 + y) * 64 + z) % 64 = z := by omega
        rw [ht, ht₁, ht₂, Form.bytes, Form.tail, Form.tail, Form.tail, hfirst, hsecond, hthird, hfourth]
        rfl
    · have hnone : utf8ToWc wcharBits (b :: t) = (-1, 0) := (if_pos hlead).trans (if_pos hbit)
      rw [hnone] at h
      exact absurd h (by decide)
  · by_cases hlow : b.toNat &&& 0x80 = 0
    · have hsmall : ∀ n < 256, n &&& 0x80 = 0 → n < 128 := by decide +kernel
      exact ⟨Form.one ⟨b.toNat, hsmall _ hb hlow⟩, t, by rw [Form.bytes, UInt8.ofNat_toNat]; rfl⟩
    · have hnone : utf8ToWc wcharBits (b :: t) = (-1, 0) := (if_neg hlead).trans (if_neg hlow)
      rw [hnone] at h
      exact absurd h (by decide)

theorem exists_taken {wcharBits : Nat} (hwide : 16 ≤ wcharBits) {s : Bytes} (hs : s ≠ [])
    (h : 0 ≤ (utf8ToWc wcharBits s).1) : ∃ (f : Form) (rest : Bytes), s = f.bytes ++ rest ∧ f.Taken wcharBits := by
  obtain ⟨f, rest, rfl⟩ := exists_form hs h
  refine ⟨f, rest, rfl, ?_⟩
  by_contra hno
  rw [utf8ToWc_of_not_taken hno rest hwide] at h
  have hpos : 0 < f.bytes.length := by cases f <;> exact Nat.succ_pos _
  dsimp only at h
  omega

theorem Form.length_pos (f : Form) : 0 < f.bytes.length := by
  cases f <;> exact Nat.succ_pos _

theorem natAbs_form (f : Form) (rest : Bytes) : (utf8ToWc 32 (f.bytes ++ rest)).1.natAbs = f.bytes.length := by
  by_cases h : f.Taken 32
  · rw [utf8ToWc_of_taken h rest (by decide)]
    exact Int.natAbs_natCast _
  · rw [utf8ToWc_of_not_taken h rest (by decide)]
    exact Int.natAbs_neg _

theorem ofNat_inj {m n : Nat} (h : UInt8.ofNat m = UInt8.ofNat n) (hm : m < 256) (hn : n < 256) : m = n := by
  have h' := congrArg UInt8.toNat h
  rwa [UInt8.toNat_ofNat', UInt8.toNat_ofNat', Nat.mod_eq_of_lt hm, Nat.mod_eq_of_lt hn] at h'

theorem tail_inj {m n : Nat} (h : Form.tail m = Form.tail n) : m % 64 = n % 64 := by
  have h' := ofNat_inj h (by omega) (by omega)
  omega

/-- The bytes tell the form. -/
theorem Form.bytes_inj {f g : Form} (h : f.bytes = g.bytes) : f = g := by
  obtain ⟨x, hx⟩ | ⟨x, hx⟩ | ⟨x, hx⟩ | ⟨x, hx⟩ := f <;> obtain ⟨y, hy⟩ | ⟨y, hy⟩ | ⟨y, hy⟩ | ⟨y, hy⟩ := g <;>
    simp only [Form.bytes, List.cons.injEq, and_true, reduceCtorEq, and_false] at h
  · have h₁ := ofNat_inj h (by omega) (by omega)
    simp only [Form.one.injEq, Fin.mk.injEq]
    exact h₁
  · have h₁ := ofNat_inj h.1 (by omega) (by omega)
    have h₂ := tail_inj h.2
    simp only [Form.two.injEq, Fin.mk.injEq]
    omega
  · have h₁ := ofNat_inj h.1 (by omega) (by omega)
    have h₂ := tail_inj h.2.1
    have h₃ := tail_inj h.2.2
    simp only [Form.three.injEq, Fin.mk.injEq]
    omega
  · have h₁ := ofNat_inj h.1 (by omega) (by omega)
    have h₂ := tail_inj h.2.1
    have h₃ := tail_inj h.2.2.1
    have h₄ := tail_inj h.2.2.2
    simp only [Form.four.injEq, Fin.mk.injEq]
    omega

theorem Form.append_inj {f g : Form} {r r' : Bytes} (h : f.bytes ++ r = g.bytes ++ r') : f = g ∧ r = r' := by
  have hlen : f.bytes.length = g.bytes.length := by rw [← natAbs_form f r, h, natAbs_form]
  obtain ⟨hbytes, hr⟩ := List.append_inj h hlen
  exact ⟨Form.bytes_inj hbytes, hr⟩

/-- A string is spelled with forms in one way. -/
theorem forms_unique {l l' : List Form} (h : l.flatMap Form.bytes = l'.flatMap Form.bytes) : l = l' := by
  have hne (f : Form) (l : List Form) : (f :: l).flatMap Form.bytes ≠ [] := by
    intro hnil
    rw [List.flatMap_cons, List.append_eq_nil_iff] at hnil
    exact Nat.ne_of_gt f.length_pos (by rw [hnil.1]; rfl)
  induction l generalizing l' with
  | nil =>
    cases l' with
    | nil => rfl
    | cons g l' => exact absurd h.symm (hne g l')
  | cons f l ih =>
    cases l' with
    | nil => exact absurd h (hne f l)
    | cons g l' =>
      rw [List.flatMap_cons, List.flatMap_cons] at h
      obtain ⟨rfl, hrest⟩ := Form.append_inj h
      rw [ih hrest]

/-- The validation takes the strings that are spelled with forms of which it takes each one. -/
theorem validateUtf8_iff {wcharBits : Nat} (hwide : 16 ≤ wcharBits) (s : Bytes) : validateUtf8 wcharBits s = true ↔
    ∃ l : List Form, (∀ f ∈ l, f.Taken wcharBits) ∧ s = l.flatMap Form.bytes := by
  have hloop : ∀ fuel s, s.length ≤ fuel → (validateLoop wcharBits fuel s = true ↔
      ∃ l : List Form, (∀ f ∈ l, f.Taken wcharBits) ∧ s = l.flatMap Form.bytes) := by
    intro fuel
    induction fuel with
    | zero =>
      intro s hs
      obtain rfl := List.length_eq_zero_iff.mp (Nat.le_zero.mp hs)
      exact iff_of_true rfl ⟨[], by simp, rfl⟩
    | succ fuel ih =>
      intro s hs
      by_cases hne : s = []
      · subst hne
        exact iff_of_true rfl ⟨[], by simp, rfl⟩
      · rw [validateLoop, if_neg (by simp [hne])]
        dsimp only
        by_cases hneg : (utf8ToWc wcharBits s).1 < 0
        · rw [if_pos hneg]
          refine iff_of_false Bool.false_ne_true ?_
          rintro ⟨l, hl, rfl⟩
          cases l with
          | nil => exact hne rfl
          | cons f l =>
            rw [List.flatMap_cons, utf8ToWc_of_taken (hl f List.mem_cons_self) _ hwide] at hneg
            dsimp only at hneg
            omega
        · obtain ⟨f, rest, rfl, hf⟩ := exists_taken hwide hne (Int.not_lt.mp hneg)
          have hpos := f.length_pos
          rw [List.length_append] at hs
          rw [if_neg hneg, utf8ToWc_of_taken hf rest hwide]
          dsimp only
          rw [Int.toNat_natCast, List.drop_left, ih rest (by omega)]
          constructor
          · rintro ⟨l, hl, rfl⟩
            exact ⟨f :: l, List.forall_mem_cons.mpr ⟨hf, hl⟩, rfl⟩
          · rintro ⟨l, hl, hsplit⟩
            cases l with
            | nil => exact absurd hsplit hne
            | cons g l =>
              rw [List.flatMap_cons] at hsplit
              obtain ⟨rfl, rfl⟩ := Form.append_inj hsplit
              exact ⟨l, (List.forall_mem_cons.mp hl).2, rfl⟩
  exact hloop _ s (Nat.le_refl _)

/-- The shortest form of a character is what it is encoded as. -/
theorem encodeChar_eq {c : Char} {f : Form} (hcode : f.code = c.toNat) (hshort : ¬f.Overlong) :
    String.utf8EncodeChar c = f.bytes := by
  have hval : c.val.toNat = c.toNat := rfl
  rw [String.utf8EncodeChar]
  simp only [hval]
  obtain ⟨x, hx⟩ | ⟨x, hx⟩ | ⟨x, hx⟩ | ⟨x, hx⟩ := f <;> simp only [Form.code, Form.Overlong] at hcode hshort <;>
    subst hcode <;> simp only [Form.bytes, Form.tail]
  · rw [if_pos (by omega)]
  · rw [if_neg (by omega), if_pos (by omega), Nat.mod_eq_of_lt (b := 0x20) (by omega), Nat.add_comm 192]
  · rw [if_neg (by omega), if_neg (by omega), if_pos (by omega), Nat.mod_eq_of_lt (b := 0x10) (by omega),
      Nat.add_comm 224]
  · rw [if_neg (by omega), if_neg (by omega), if_neg (by omega), Nat.mod_eq_of_lt (b := 0x08) (by omega),
      Nat.add_comm 240]

theorem exists_shortest (c : Char) : ∃ f : Form, f.code = c.toNat ∧ ¬f.Overlong := by
  obtain ⟨hle, -⟩ := toNat_le c
  by_cases h₁ : c.toNat < 0x80
  · exact ⟨Form.one ⟨c.toNat, h₁⟩, rfl, not_false⟩
  · by_cases h₂ : c.toNat < 0x800
    · exact ⟨Form.two ⟨c.toNat, h₂⟩, rfl, h₁⟩
    · by_cases h₃ : c.toNat < 0x10000
      · exact ⟨Form.three ⟨c.toNat, h₃⟩, rfl, h₂⟩
      · exact ⟨Form.four ⟨c.toNat, by omega⟩, rfl, h₃⟩

theorem exists_proper (c : Char) : ∃ f : Form, f.Proper ∧ String.utf8EncodeChar c = f.bytes := by
  obtain ⟨f, hcode, hshort⟩ := exists_shortest c
  exact ⟨f, ⟨by rw [hcode]; exact toNat_le c, hshort⟩, encodeChar_eq hcode hshort⟩

theorem exists_char {f : Form} (h : f.Proper) : ∃ c : Char, c.toNat = f.code ∧ String.utf8EncodeChar c = f.bytes := by
  obtain ⟨⟨hle, hno⟩, hshort⟩ := h
  have hvalid : f.code.isValidChar := by
    rw [Nat.isValidChar]
    omega
  have hcode : (Char.ofNat f.code).toNat = f.code := by
    rw [Char.ofNat, dif_pos hvalid]
    rfl
  exact ⟨Char.ofNat f.code, hcode, encodeChar_eq hcode.symm hshort⟩

theorem wellFormed_iff (s : Bytes) :
    WellFormed s ↔ ∃ l : List Form, (∀ f ∈ l, f.Proper) ∧ s = l.flatMap Form.bytes := by
  constructor
  · rintro ⟨cs, rfl⟩
    induction cs with
    | nil => exact ⟨[], by simp, rfl⟩
    | cons c cs ih =>
      obtain ⟨l, hl, hcs⟩ := ih
      obtain ⟨f, hf, hc⟩ := exists_proper c
      refine ⟨f :: l, List.forall_mem_cons.mpr ⟨hf, hl⟩, ?_⟩
      rw [encode, List.flatMap_cons, List.flatMap_cons, hc, ← hcs]
      rfl
  · rintro ⟨l, hl, rfl⟩
    induction l with
    | nil => exact ⟨[], rfl⟩
    | cons f l ih =>
      obtain ⟨hf, hl⟩ := List.forall_mem_cons.mp hl
      obtain ⟨cs, hcs⟩ := ih hl
      obtain ⟨c, -, hc⟩ := exists_char hf
      refine ⟨c :: cs, ?_⟩
      rw [encode, List.flatMap_cons, List.flatMap_cons, hc, hcs]
      rfl

/-- Forms of scalar values spell the string, and one of them is not the shortest. -/
def SpelledOverlong (s : Bytes) : Prop :=
  ∃ l : List Form, s = l.flatMap Form.bytes ∧ (∀ f ∈ l, IsScalar f.code) ∧ ∃ f ∈ l, f.Overlong

/-- Forms spell the string, and either all of them are taken though one is not proper, or all of them are proper though
one is not taken. -/
def Misjudged (wcharBits : Nat) (s : Bytes) : Prop :=
  ∃ l : List Form, s = l.flatMap Form.bytes ∧
    ((∀ f ∈ l, f.Taken wcharBits) ∧ (∃ f ∈ l, ¬f.Proper) ∨ (∀ f ∈ l, f.Proper) ∧ ∃ f ∈ l, ¬f.Taken wcharBits)

theorem judged_iff {wcharBits : Nat} (hwide : 16 ≤ wcharBits) (s : Bytes) :
    (validateUtf8 wcharBits s = true ↔ WellFormed s) ↔ ¬Misjudged wcharBits s := by
  rw [validateUtf8_iff hwide, wellFormed_iff]
  have hone {P : Form → Prop} {l : List Form} (hs : s = l.flatMap Form.bytes)
      (h : ∃ l : List Form, (∀ f ∈ l, P f) ∧ s = l.flatMap Form.bytes) : ∀ f ∈ l, P f := by
    obtain ⟨l', hl', hs'⟩ := h
    rwa [forms_unique (hs.symm.trans hs')]
  constructor
  · rintro h ⟨l, hs, ⟨htaken, f, hf, hno⟩ | ⟨hproper, f, hf, hno⟩⟩
    · exact hno (hone hs (h.mp ⟨l, htaken, hs⟩) f hf)
    · exact hno (hone hs (h.mpr ⟨l, hproper, hs⟩) f hf)
  · intro h
    constructor
    · rintro ⟨l, htaken, hs⟩
      refine ⟨l, ?_, hs⟩
      by_contra hno
      push Not at hno
      exact h ⟨l, hs, Or.inl ⟨htaken, hno⟩⟩
    · rintro ⟨l, hproper, hs⟩
      refine ⟨l, ?_, hs⟩
      by_contra hno
      push Not at hno
      exact h ⟨l, hs, Or.inr ⟨hproper, hno⟩⟩

/-- No code is cut where a `wchar_t` has 21 bits. -/
theorem taken_iff_of_wide {wcharBits : Nat} (hwide : 21 ≤ wcharBits) (f : Form) :
    f.Taken wcharBits ↔ IsScalar f.code := by
  have hpow : 2 ^ 21 ≤ 2 ^ wcharBits := Nat.pow_le_pow_right (by omega) hwide
  have hcode : f.code < 2 ^ 21 := by
    obtain ⟨x, hx⟩ | ⟨x, hx⟩ | ⟨x, hx⟩ | ⟨x, hx⟩ := f <;> simp only [Form.code] <;> omega
  rw [Form.Taken, Nat.mod_eq_of_lt (by omega)]

theorem misjudged_iff_of_wide {wcharBits : Nat} (hwide : 21 ≤ wcharBits) (s : Bytes) :
    Misjudged wcharBits s ↔ SpelledOverlong s := by
  apply exists_congr
  intro l
  apply and_congr_right
  intro _
  simp only [taken_iff_of_wide hwide]
  constructor
  · rintro (⟨hscalar, f, hf, hno⟩ | ⟨hproper, f, hf, hno⟩)
    · refine ⟨hscalar, f, hf, ?_⟩
      by_contra hshort
      exact hno ⟨hscalar f hf, hshort⟩
    · exact absurd (hproper f hf).1 hno
  · rintro ⟨hscalar, f, hf, hlong⟩
    exact Or.inl ⟨hscalar, f, hf, fun h => h.2 hlong⟩

/-- The validation is right about a string unless it is spelled with an overlong form, where a `wchar_t` has 32 bits;
where it has 16, codes are cut to them. -/
theorem validateUtf8_right_iff (s : Bytes) :
    ((validateUtf8 32 s = true ↔ WellFormed s) ↔ ¬SpelledOverlong s) ∧
      ((validateUtf8 16 s = true ↔ WellFormed s) ↔ ¬Misjudged 16 s) := by
  rw [judged_iff (by decide), misjudged_iff_of_wide (by decide), judged_iff (by decide)]
  exact ⟨Iff.rfl, Iff.rfl⟩

/-- A slash in two bytes. -/
theorem not_validateUtf8_right : ¬(validateUtf8 32 [0xc0, 0xaf] = true ↔ WellFormed [0xc0, 0xaf]) := by
  intro h
  have hvalid : validateUtf8 32 [0xc0, 0xaf] = true := by decide
  obtain ⟨l, hproper, hs⟩ := (wellFormed_iff _).mp (h.mp hvalid)
  have hspelled : [Form.two 0x2f].flatMap Form.bytes = l.flatMap Form.bytes := hs
  have hl := forms_unique hspelled
  subst hl
  have hlong : (0x2f : Fin 0x800).val < 0x80 := by decide
  exact (hproper (Form.two 0x2f) List.mem_cons_self).2 hlong

end Dcpp.Text
