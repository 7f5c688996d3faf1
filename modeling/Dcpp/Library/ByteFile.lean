import Mathlib.Algebra.Group.Nat.Defs
import Mathlib.Tactic.Common

-- The bytes of a file, read and written at a position, and numbers stored in them.
namespace Dcpp.ByteFile

/-- The bytes from a position on; there may be fewer than `n`. -/
def readAt (pos n : Nat) (f : List UInt8) : List UInt8 := (f.drop pos).take n

/-- A write after the end leaves zeros before it, and one of no bytes changes nothing. -/
def writeAt (pos : Nat) (data f : List UInt8) : List UInt8 :=
  if data = [] then f
  else f.take pos ++ List.replicate (pos - f.length) 0 ++ data ++ f.drop (pos + data.length)

def resize (n : Nat) (f : List UInt8) : List UInt8 := f.take n ++ List.replicate (n - f.length) 0

theorem readAt_length {pos n : Nat} {f : List UInt8} (h : pos + n ≤ f.length) : (readAt pos n f).length = n := by
  rw [readAt, List.length_take, List.length_drop]
  omega

theorem readAt_getElem? (pos n : Nat) (f : List UInt8) (i : Nat) :
    (readAt pos n f)[i]? = if i < n then f[pos + i]? else none := by
  rw [readAt, List.getElem?_take, List.getElem?_drop]

theorem writeAt_getElem? {pos : Nat} {data f : List UInt8} {i : Nat} (hi : i < f.length ∨ pos ≤ i) :
    (writeAt pos data f)[i]? = if pos ≤ i ∧ i < pos + data.length then data[i - pos]? else f[i]? := by
  have hfront : (f.take pos ++ List.replicate (pos - f.length) 0).length = pos := by
    rw [List.length_append, List.length_take, List.length_replicate]
    omega
  have hupto : (f.take pos ++ List.replicate (pos - f.length) 0 ++ data).length = pos + data.length := by
    rw [List.length_append, hfront]
  rw [writeAt]
  split_ifs with hnil hin hin
  · rw [hnil, List.length_nil] at hin
    omega
  · rfl
  · rw [List.getElem?_append_left (by omega), List.getElem?_append_right (by omega), hfront]
  · obtain hlt | hge := Nat.lt_or_ge i pos
    · rw [List.getElem?_append_left (by omega), List.getElem?_append_left (by omega),
        List.getElem?_append_left (by rw [List.length_take]; omega), List.getElem?_take, if_pos hlt]
    · rw [List.getElem?_append_right (by omega), hupto, List.getElem?_drop]
      congr 1
      omega

theorem writeAt_length {pos : Nat} {data f : List UInt8} (h : data ≠ []) :
    (writeAt pos data f).length = max f.length (pos + data.length) := by
  rw [writeAt, if_neg h]
  simp only [List.length_append, List.length_take, List.length_replicate, List.length_drop]
  omega

/-- What was written is read. -/
theorem readAt_writeAt (pos : Nat) (data f : List UInt8) : readAt pos data.length (writeAt pos data f) = data := by
  ext1 i
  rw [readAt_getElem?, writeAt_getElem? (Or.inr (Nat.le_add_right pos i)), Nat.add_sub_cancel_left]
  split_ifs with hi hin
  · rfl
  · omega
  · exact (List.getElem?_eq_none (by omega)).symm

/-- A write leaves the bytes beside it. -/
theorem readAt_writeAt_of_disjoint {pos p n : Nat} {data f : List UInt8} (hf : p + n ≤ f.length)
    (h : p + n ≤ pos ∨ pos + data.length ≤ p) : readAt p n (writeAt pos data f) = readAt p n f := by
  ext1 i
  rw [readAt_getElem?, readAt_getElem?]
  split_ifs with hi
  · rw [writeAt_getElem? (Or.inl (by omega)), if_neg (by omega)]
  · rfl

theorem resize_length (n : Nat) (f : List UInt8) : (resize n f).length = n := by
  rw [resize, List.length_append, List.length_take, List.length_replicate]
  omega

theorem readAt_resize {m p n : Nat} {f : List UInt8} (hf : p + n ≤ f.length) (h : p + n ≤ m) :
    readAt p n (resize m f) = readAt p n f := by
  ext1 i
  rw [readAt_getElem?, readAt_getElem?]
  split_ifs with hi
  · rw [resize, List.getElem?_append_left (by rw [List.length_take]; omega), List.getElem?_take, if_pos (by omega)]
  · rfl

/-- A number in `k` bytes, the least significant first. -/
def encode : Nat → Nat → List UInt8
  | 0, _ => []
  | k + 1, n => UInt8.ofNat n :: encode k (n / 256)

def decode : List UInt8 → Nat
  | [] => 0
  | b :: bs => b.toNat + 256 * decode bs

theorem encode_length (k n : Nat) : (encode k n).length = k := by
  induction k generalizing n with
  | zero => rfl
  | succ k ih => rw [encode, List.length_cons, ih]

theorem decode_encode {k n : Nat} (h : n < 256 ^ k) : decode (encode k n) = n := by
  induction k generalizing n with
  | zero =>
    rw [Nat.pow_zero] at h
    exact (Nat.lt_one_iff.mp h).symm
  | succ k ih =>
    have hlt : n / 256 < 256 ^ k := by
      rw [Nat.pow_succ] at h
      exact Nat.div_lt_of_lt_mul (by rwa [Nat.mul_comm])
    rw [encode, decode, ih hlt, UInt8.toNat_ofNat']
    omega

end Dcpp.ByteFile
