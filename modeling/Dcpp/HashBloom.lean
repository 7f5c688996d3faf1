import Dcpp.Encoder
import Dcpp.Library.Bits
import Dcpp.Library.ByteFile
import Dcpp.Library.Loop
import Dcpp.Library.Runs

-- The filter that a hub asks for, where something undefined is none.
namespace Dcpp

open Encoder Loop

structure HashBloom where
  bloom : List Bool
  k : Nat
  h : Nat
deriving DecidableEq

namespace HashBloom

/-- `TTHValue::BITS`. -/
def BITS : Nat := 8 * BYTES

/-- The values of a `size_t`. -/
def SIZE : Nat := 2 ^ 64

def empty : HashBloom := ⟨[], 0, 0⟩

/-- One bit of the hash goes into the number. -/
def posStep (tth : HashValue) (start : Nat) (x : UInt64) (i : Nat) : Option UInt64 :=
  let bit := (start + i) % SIZE
  match tth.data[bit / 8]? with
  | none => none
  | some c =>
    if c.toNat &&& 1 <<< (bit % 8) = 0 then some x
    else if i < 64 then some (x ||| 1 <<< UInt64.ofNat i)
    else none

def pos (b : HashBloom) (tth : HashValue) (n : Nat) : Option Nat :=
  if (n + 1) * b.h % SIZE > BITS then some 0
  else
    (forRange b.h (posStep tth (n * b.h % SIZE)) 0).bind fun x =>
      if b.bloom.length = 0 then none else some (x.toNat % b.bloom.length)

def setBit (b : HashBloom) (j : Nat) : Option HashBloom :=
  if j < b.bloom.length then some { b with bloom := b.bloom.set j true } else none

def add (b : HashBloom) (tth : HashValue) : Option HashBloom :=
  forRange b.k (fun b' i => (b'.pos tth i).bind b'.setBit) b

/-- The loop of `match` over the numbers that are left. -/
def matchLoop (b : HashBloom) (tth : HashValue) : List Nat → Option Bool
  | [] => some true
  | i :: is =>
    match (b.pos tth i).bind fun j => b.bloom[j]? with
    | none => none
    | some false => some false
    | some true => matchLoop b tth is

def «match» (b : HashBloom) (tth : HashValue) : Option Bool :=
  if b.bloom = [] then some false else matchLoop b tth (List.range b.k)

def push_back (b : HashBloom) (v : Bool) : HashBloom := { b with bloom := b.bloom ++ [v] }

def reset (b : HashBloom) (k m h : Nat) : HashBloom :=
  ⟨b.bloom.take m ++ List.replicate (m - b.bloom.length) false, k, h⟩

def copy_to (b : HashBloom) (v : Bytes) : Option Bytes :=
  forRange b.bloom.length
    (fun v i => if i / 8 < v.length then some (v.modify (i / 8) (Bits.orBit (b.bloom.getD i false) i)) else none)
    (ByteFile.resize (b.bloom.length / 8) v)

def addAll (b : HashBloom) (tths : List HashValue) : Option HashBloom := Runs.run add b tths

/-- The bits of the bytes are put into the filter. -/
def fed (b : HashBloom) (v : Bytes) : HashBloom := (Bits.bits v).foldl push_back b

/-- Filters of one shape look for a hash at the same places. -/
structure SameShape (b b' : HashBloom) : Prop where
  k : b'.k = b.k
  h : b'.h = b.h
  length : b'.bloom.length = b.bloom.length

theorem SameShape.refl (b : HashBloom) : SameShape b b := ⟨rfl, rfl, rfl⟩

theorem SameShape.trans {b b' b'' : HashBloom} (h : SameShape b b') (h' : SameShape b' b'') : SameShape b b'' :=
  ⟨h'.k.trans h.k, h'.h.trans h.h, h'.length.trans h.length⟩

theorem SameShape.pos {b b' : HashBloom} (h : SameShape b b') (tth : HashValue) (n : Nat) :
    b'.pos tth n = b.pos tth n := by
  rw [HashBloom.pos, HashBloom.pos, h.h, h.length]

/-- The filter has bits, and its sizes are such that no product of them is too large for a `size_t`. -/
structure Sound (b : HashBloom) : Prop where
  bits : 0 < b.bloom.length
  hash : b.h ≤ 64
  product : b.k * b.h < SIZE

theorem SameShape.sound {b b' : HashBloom} (h : SameShape b b') (hb : Sound b) : Sound b' :=
  ⟨h.length ▸ hb.bits, h.h ▸ hb.hash, by rw [h.k, h.h]; exact hb.product⟩

/-- Every bit that is read belongs to the hash. -/
theorem posStep_isSome (tth : HashValue) (start : Nat) {i : Nat} (x : UInt64) (hi : i < 64) (hbit : start + i < BITS) :
    ∃ y, posStep tth start x i = some y := by
  have hmod : (start + i) % SIZE = start + i := by
    apply Nat.mod_eq_of_lt
    simp only [BITS, BYTES, SIZE] at hbit ⊢
    omega
  have hlt : (start + i) / 8 < tth.data.length := by
    rw [tth.size]
    simp only [BITS] at hbit
    omega
  rw [posStep, hmod, List.getElem?_eq_getElem hlt]
  simp only [hi, if_true]
  split
  next => exact ⟨_, rfl⟩
  next => exact ⟨_, rfl⟩

/-- A place is always one of the filter's. -/
theorem pos_lt {b : HashBloom} (hb : Sound b) (tth : HashValue) {n : Nat} (hn : n < b.k) :
    ∃ j, b.pos tth n = some j ∧ j < b.bloom.length := by
  have hmul : (n + 1) * b.h ≤ b.k * b.h := Nat.mul_le_mul_right _ hn
  have hmod : (n + 1) * b.h % SIZE = (n + 1) * b.h := Nat.mod_eq_of_lt (Nat.lt_of_le_of_lt hmul hb.product)
  have hsucc : (n + 1) * b.h = n * b.h + b.h := Nat.succ_mul n b.h
  have hstart : n * b.h % SIZE = n * b.h := by
    apply Nat.mod_eq_of_lt
    have hlt := hb.product
    omega
  rw [pos, hmod, hstart]
  split
  next => exact ⟨0, rfl, hb.bits⟩
  next hbits =>
    obtain ⟨x, hx, -⟩ := forRange_invariant b.h (posStep tth (n * b.h)) (fun _ _ => True)
      (fun i x hi _ => by
        have hh := hb.hash
        obtain ⟨y, hy⟩ := posStep_isSome tth (n * b.h) x (i := i) (by omega) (by omega)
        exact ⟨y, hy, trivial⟩) (s := 0) trivial
    have hpos := hb.bits
    refine ⟨x.toNat % b.bloom.length, ?_, Nat.mod_lt _ hpos⟩
    rw [hx, Option.bind_some, if_neg (by omega)]

/-- The bits of a hash are set, of the first `n` places. -/
def SetUpTo (b : HashBloom) (tth : HashValue) (n : Nat) : Prop :=
  ∀ i < n, ∃ j, b.pos tth i = some j ∧ b.bloom[j]? = some true

/-- A bit that is set stays so. -/
structure Extends (b b' : HashBloom) : Prop where
  shape : SameShape b b'
  keeps : ∀ j : Nat, b.bloom[j]? = some true → b'.bloom[j]? = some true

theorem Extends.refl (b : HashBloom) : Extends b b := ⟨SameShape.refl b, fun _ h => h⟩

theorem Extends.trans {b b' b'' : HashBloom} (h : Extends b b') (h' : Extends b' b'') : Extends b b'' :=
  ⟨h.shape.trans h'.shape, fun j hj => h'.keeps j (h.keeps j hj)⟩

theorem Extends.setUpTo {b b' : HashBloom} (h : Extends b b') {tth : HashValue} {n : Nat} (hs : SetUpTo b tth n) :
    SetUpTo b' tth n := by
  intro i hi
  obtain ⟨j, hj, hset⟩ := hs i hi
  exact ⟨j, by rw [h.shape.pos, hj], h.keeps j hset⟩

theorem setBit_spec {b : HashBloom} {j : Nat} (hj : j < b.bloom.length) :
    ∃ b', b.setBit j = some b' ∧ Extends b b' ∧ b'.bloom[j]? = some true := by
  refine ⟨{ b with bloom := b.bloom.set j true }, if_pos hj, ⟨⟨rfl, rfl, by simp⟩, fun i hi => ?_⟩, by simp [hj]⟩
  by_cases h : j = i
  · subst h
    simp [hj]
  · simpa [List.getElem?_set, h] using hi

/-- `add` is defined, keeps what is set and sets all bits of the hash. -/
theorem add_spec {b : HashBloom} (hb : Sound b) (tth : HashValue) :
    ∃ b', b.add tth = some b' ∧ Extends b b' ∧ SetUpTo b' tth b.k := by
  apply forRange_invariant _ _ (fun n b' => Extends b b' ∧ SetUpTo b' tth n)
  · intro i b' hi hinv
    obtain ⟨hext, hset⟩ := hinv
    obtain ⟨j, hj, hlt⟩ := pos_lt (hext.shape.sound hb) tth (n := i) (by rw [hext.shape.k]; exact hi)
    obtain ⟨b'', hb'', hext', hbit⟩ := setBit_spec hlt
    refine ⟨b'', by rw [hj, Option.bind_some, hb''], hext.trans hext', ?_⟩
    intro n hn
    obtain hn | rfl := Nat.lt_succ_iff_lt_or_eq.mp hn
    · exact hext'.setUpTo hset n hn
    · exact ⟨j, by rw [hext'.shape.pos, hj], hbit⟩
  · exact ⟨Extends.refl b, fun i hi => absurd hi (Nat.not_lt_zero i)⟩

theorem addAll_spec {b : HashBloom} (hb : Sound b) (tths : List HashValue) :
    ∃ b', b.addAll tths = some b' ∧ Extends b b' ∧ ∀ tth ∈ tths, SetUpTo b' tth b.k := by
  induction tths generalizing b with
  | nil => exact ⟨b, rfl, Extends.refl b, fun _ h => absurd h List.not_mem_nil⟩
  | cons tth tths ih =>
    obtain ⟨b', hb', hext, hset⟩ := add_spec hb tth
    obtain ⟨b'', hb'', hext', hsets⟩ := ih (hext.shape.sound hb)
    refine ⟨b'', by rw [addAll, Runs.run_cons hb']; exact hb'', hext.trans hext', ?_⟩
    intro t ht
    rw [hext.shape.k] at hsets
    obtain rfl | ht := List.mem_cons.mp ht
    · exact hext'.setUpTo hset
    · exact hsets t ht

theorem matchLoop_eq_true {b : HashBloom} {tth : HashValue} {is : List Nat}
    (h : ∀ i ∈ is, ∃ j, b.pos tth i = some j ∧ b.bloom[j]? = some true) : matchLoop b tth is = some true := by
  induction is with
  | nil => rfl
  | cons i is ih =>
    obtain ⟨j, hj, hset⟩ := h i List.mem_cons_self
    rw [matchLoop, hj, Option.bind_some, hset]
    exact ih fun n hn => h n (List.mem_cons_of_mem i hn)

/-- What has all its bits set matches. -/
theorem match_of_setUpTo {b : HashBloom} (hb : Sound b) {tth : HashValue} (h : SetUpTo b tth b.k) :
    b.match tth = some true := by
  have hne : b.bloom ≠ [] := List.length_pos_iff.mp hb.bits
  rw [HashBloom.match, if_neg hne]
  apply matchLoop_eq_true
  intro i hi
  exact h i (List.mem_range.mp hi)

theorem reset_empty (k m h : Nat) : empty.reset k m h = ⟨List.replicate m false, k, h⟩ := by simp [reset, empty]

theorem fed_reset (k h : Nat) (v : Bytes) : (empty.reset k 0 h).fed v = ⟨Bits.bits v, k, h⟩ := by
  have hfold : ∀ (l : List Bool) (b : HashBloom), l.foldl push_back b = { b with bloom := b.bloom ++ l } := by
    intro l
    induction l with
    | nil => intro b; simp
    | cons v l ih => intro b; simp [ih, push_back]
  rw [fed, hfold, reset_empty]
  simp

/-- The bytes that are written have the bits of the filter. -/
theorem copy_to_spec (b : HashBloom) (h8 : 8 ∣ b.bloom.length) :
    ∃ v, b.copy_to [] = some v ∧ 8 * v.length = b.bloom.length ∧ Bits.bits v = b.bloom := by
  obtain ⟨q, hq⟩ := h8
  have hdiv : b.bloom.length / 8 = q := by omega
  obtain ⟨v, hv, hlen, hbits⟩ := forRange_invariant b.bloom.length
    (fun v i => if i / 8 < v.length then some (v.modify (i / 8) (Bits.orBit (b.bloom.getD i false) i)) else none)
    (fun n v => v.length = q ∧ ∀ j, Bits.bitAt v j = (decide (j < n) && b.bloom.getD j false))
    (s := ByteFile.resize (b.bloom.length / 8) [])
    (by
      intro i v hi hinv
      obtain ⟨hlen, hbits⟩ := hinv
      have hlt : i / 8 < v.length := by omega
      refine ⟨_, if_pos hlt, by simpa using hlen, fun j => ?_⟩
      rw [Bits.bitAt_modify hlt, hbits]
      by_cases hij : i = j
      · subst hij
        simp
      · have hiff : j < i + 1 ↔ j < i := by omega
        simp [hij, hiff])
    (by
      refine ⟨by rw [ByteFile.resize_length, hdiv], fun j => ?_⟩
      simp only [Bits.bitAt, ByteFile.resize, List.take_nil, List.nil_append, List.getD_eq_getElem?_getD,
        List.getElem?_replicate]
      split <;> simp)
  refine ⟨v, hv, by omega, ?_⟩
  apply List.ext_getElem?
  intro j
  rw [Bits.bits_getElem?, hbits, hlen, ← hq]
  by_cases hj : j < b.bloom.length
  · simp [hj]
  · rw [if_neg hj, List.getElem?_eq_none (Nat.le_of_not_lt hj)]

/-- Nothing that was added is missed, and a filter that is made of the bytes answers the same. -/
theorem addAll_match {k m h : Nat} (hm : 0 < m) (h8 : 8 ∣ m) (hh : h ≤ 64) (hkh : k * h < SIZE)
    (tths : List HashValue) :
    ∃ b, (empty.reset k m h).addAll tths = some b ∧ (∀ tth ∈ tths, b.match tth = some true) ∧
      ∃ v, b.copy_to [] = some v ∧ ∀ tth, ((empty.reset k 0 h).fed v).match tth = b.match tth := by
  have hsound : Sound (empty.reset k m h) := by
    rw [reset_empty]
    exact ⟨by simpa using hm, hh, hkh⟩
  obtain ⟨b, hb, hext, hsets⟩ := addAll_spec hsound tths
  have hbk : b.k = k := hext.shape.k
  have hbh : b.h = h := hext.shape.h
  have hlen : b.bloom.length = m := by
    rw [hext.shape.length, reset_empty]
    exact List.length_replicate
  refine ⟨b, hb, fun tth htth => ?_, ?_⟩
  · apply match_of_setUpTo (hext.shape.sound hsound)
    rw [hext.shape.k]
    exact hsets tth htth
  · obtain ⟨v, hv, -, hbits⟩ := copy_to_spec b (hlen ▸ h8)
    refine ⟨v, hv, fun tth => ?_⟩
    rw [fed_reset, hbits, ← hbk, ← hbh]

def zeros : HashValue := ⟨List.replicate 24 0, rfl⟩

theorem addAll_match_zeros : ∃ b, (empty.reset 8 1024 24).addAll [zeros] = some b ∧
    (∀ tth ∈ [zeros], b.match tth = some true) ∧
    ∃ v, b.copy_to [] = some v ∧ ∀ tth, ((empty.reset 8 0 24).fed v).match tth = b.match tth :=
  addAll_match (by decide) (by decide) (by decide) (by decide) [zeros]

end HashBloom

end Dcpp
