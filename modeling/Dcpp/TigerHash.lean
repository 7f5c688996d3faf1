import Dcpp.Bytes
import Dcpp.Library.Blocks
import Dcpp.Library.ByteFile
import Dcpp.Library.Edit
import Dcpp.TigerTable
import Dcpp.TigerTree

-- The Tiger hash, fed piece by piece. The machine has words of 64 bits, the least significant byte first.
namespace Dcpp

namespace TigerHash

open Blocks ByteFile Edit

def BITS : Nat := 192
def BYTES : Nat := BITS / 8
def BLOCK_SIZE : Nat := 512 / 8

/-- The three words of the state. -/
abbrev State := UInt64 × UInt64 × UInt64

/-- The words of a block. -/
structure Words where
  x0 : UInt64
  x1 : UInt64
  x2 : UInt64
  x3 : UInt64
  x4 : UInt64
  x5 : UInt64
  x6 : UInt64
  x7 : UInt64

/-- Byte `i` of a word in one of the boxes. -/
def box (t : Nat) (c : UInt64) (i : Nat) : UInt64 := table.getD (256 * t + c.toNat / 256 ^ i % 256) default

def t1 : UInt64 → Nat → UInt64 := box 0
def t2 : UInt64 → Nat → UInt64 := box 1
def t3 : UInt64 → Nat → UInt64 := box 2
def t4 : UInt64 → Nat → UInt64 := box 3

def round (s : State) (x mul : UInt64) : State :=
  let (a, b, c) := s
  let c := c ^^^ x
  let a := a - (t1 c 0 ^^^ t2 c 2 ^^^ t3 c 4 ^^^ t4 c 6)
  let b := b + (t4 c 1 ^^^ t3 c 3 ^^^ t2 c 5 ^^^ t1 c 7)
  (a, b * mul, c)

/-- A round with the three words one place further. -/
def rotated (f : State → State) (s : State) : State :=
  let (b, c, a) := f (s.2.1, s.2.2, s.1)
  (a, b, c)

def pass (w : Words) (mul : UInt64) (s : State) : State :=
  let s := round s w.x0 mul
  let s := rotated (fun s => round s w.x1 mul) s
  let s := rotated (rotated fun s => round s w.x2 mul) s
  let s := round s w.x3 mul
  let s := rotated (fun s => round s w.x4 mul) s
  let s := rotated (rotated fun s => round s w.x5 mul) s
  let s := round s w.x6 mul
  rotated (fun s => round s w.x7 mul) s

def keySchedule (w : Words) : Words :=
  let x0 := w.x0 - (w.x7 ^^^ 0xA5A5A5A5A5A5A5A5)
  let x1 := w.x1 ^^^ x0
  let x2 := w.x2 + x1
  let x3 := w.x3 - (x2 ^^^ (~~~x1 <<< 19))
  let x4 := w.x4 ^^^ x3
  let x5 := w.x5 + x4
  let x6 := w.x6 - (x5 ^^^ (~~~x4 >>> 23))
  let x7 := w.x7 ^^^ x6
  let x0 := x0 + x7
  let x1 := x1 - (x0 ^^^ (~~~x7 <<< 19))
  let x2 := x2 ^^^ x1
  let x3 := x3 + x2
  let x4 := x4 - (x3 ^^^ (~~~x2 >>> 23))
  let x5 := x5 ^^^ x4
  let x6 := x6 + x5
  let x7 := x7 - (x6 ^^^ 0x0123456789ABCDEF)
  ⟨x0, x1, x2, x3, x4, x5, x6, x7⟩

def compress (w : Words) (s : State) : State :=
  let (aa, bb, cc) := s
  let s := pass w 5 s
  let w := keySchedule w
  let s := rotated (rotated (pass w 7)) s
  let w := keySchedule w
  let (a, b, c) := rotated (pass w 9) s
  (a ^^^ aa, b - bb, c + cc)

/-- Word `i` of some bytes. -/
def word (str : Bytes) (i : Nat) : UInt64 := UInt64.ofNat (decode (readAt (8 * i) 8 str))

def tigerCompress (state : State) (str : Bytes) : State :=
  compress ⟨word str 0, word str 1, word str 2, word str 3, word str 4, word str 5, word str 6, word str 7⟩ state

end TigerHash

open TigerHash in
/-- A hash on its way: the last block, the state and the number of bytes so far. -/
structure TigerHash where
  tmp : Bytes
  res : TigerHash.State
  pos : Nat

namespace TigerHash

open Blocks ByteFile Edit

def initial : State := (0x0123456789ABCDEF, 0xFEDCBA9876543210, 0xF096A5B4C3B2E187)

/-- The constructor, which leaves the block as its memory was. -/
def new (memory : Vector UInt8 BLOCK_SIZE) : TigerHash := ⟨memory.toList, initial, 0⟩

def memcpy (tmp : Bytes) (pos : Nat) (data : Bytes) : Bytes := replace tmp pos data.length data

def memset (tmp : Bytes) (pos n : Nat) : Bytes := memcpy tmp pos (List.replicate n (byte '\x00'))

/-- The loop over the whole blocks of the data; the result is also what is left. -/
def bulk (h : TigerHash) (str : Bytes) : TigerHash × Bytes :=
  if BLOCK_SIZE ≤ str.length then
    bulk { h with res := tigerCompress h.res (str.take BLOCK_SIZE), pos := (h.pos + BLOCK_SIZE) % 2 ^ 64 } (str.drop BLOCK_SIZE)
  else (h, str)
termination_by str.length
decreasing_by
  simp only [BLOCK_SIZE, List.length_drop] at *
  omega

/-- The part of the data that goes into the block that was begun. -/
def fill (h : TigerHash) (str : Bytes) : TigerHash × Bytes :=
  let tmppos := h.pos % BLOCK_SIZE
  if 0 < tmppos then
    let n := min str.length (BLOCK_SIZE - tmppos)
    let tmp := memcpy h.tmp tmppos (str.take n)
    let res := if tmppos + n = BLOCK_SIZE then tigerCompress h.res tmp else h.res
    (⟨tmp, res, (h.pos + n) % 2 ^ 64⟩, str.drop n)
  else (h, str)

def update (h : TigerHash) (data : Bytes) : TigerHash :=
  let (h, str) := fill h data
  let (h, str) := bulk h str
  { h with tmp := memcpy h.tmp 0 str, pos := (h.pos + str.length) % 2 ^ 64 }

def finalize (h : TigerHash) : TigerHash :=
  let tmppos := h.pos % BLOCK_SIZE
  let tmp := memcpy h.tmp tmppos [byte '\x01']
  let tmppos := tmppos + 1
  let (tmp, res) :=
    if BLOCK_SIZE - 8 < tmppos then
      let tmp := memset tmp tmppos (BLOCK_SIZE - tmppos)
      (memset tmp 0 BLOCK_SIZE, tigerCompress h.res tmp)
    else (memset tmp tmppos (BLOCK_SIZE - tmppos - 8), h.res)
  let tmp := memcpy tmp 56 (encode 8 (h.pos * 8 % 2 ^ 64))
  { h with tmp, res := tigerCompress res tmp }

/-- The bytes of the state. -/
def digest (s : State) : HashValue BYTES :=
  let (a, b, c) := s
  Vector.ofFn fun i => (encode 8 a.toNat ++ encode 8 b.toNat ++ encode 8 c.toNat).getD i default

def getResult (h : TigerHash) : HashValue BYTES := digest h.res

/-- What comes after `n` bytes: a byte 1, zeros and the number of bits, up to the end of a block. -/
def padding (n : Nat) : Bytes :=
  byte '\x01' :: List.replicate ((119 - n % 64) % 64) (byte '\x00') ++ encode 8 (n * 8 % 2 ^ 64)

def blocks (data : Bytes) : List Bytes := Chunks.chunks BLOCK_SIZE (data ++ padding data.length)

/-- The hash of the whole data. -/
def tiger : Hasher BYTES := fun data => digest ((blocks data).foldl tigerCompress initial)

section Pieces

theorem blockSize_eq : BLOCK_SIZE = 64 := rfl

theorem length_memcpy {tmp data : Bytes} {pos : Nat} (h : pos + data.length ≤ tmp.length) :
    (memcpy tmp pos data).length = tmp.length := by
  rw [memcpy, replace]
  simp only [List.length_append, List.length_take, List.length_drop]
  omega

/-- The block up to the end of what was copied. -/
theorem take_memcpy {tmp data : Bytes} {pos : Nat} (h : pos ≤ tmp.length) :
    (memcpy tmp pos data).take (pos + data.length) = tmp.take pos ++ data := by
  have hlen : (tmp.take pos ++ data).length = pos + data.length := by
    rw [List.length_append, List.length_take, Nat.min_eq_left h]
  rw [memcpy, replace, ← hlen, List.take_left]

theorem memcpy_nil (tmp : Bytes) (pos : Nat) : memcpy tmp pos [] = tmp := by
  rw [memcpy, replace, List.append_nil, List.length_nil, Nat.add_zero, List.take_append_drop]

/-- A copy right behind what is known of the block. -/
theorem memcpy_append (u v data : Bytes) :
    memcpy (u ++ v) u.length data = u ++ data ++ v.drop data.length := by
  rw [memcpy, replace, List.take_left, List.drop_length_add_append]

/-- The hash has taken some data: the state is that of its whole blocks, and the block has the rest. -/
structure Carries (h : TigerHash) (data : Bytes) : Prop where
  length : h.tmp.length = BLOCK_SIZE
  tmp : h.tmp.take (data.length % BLOCK_SIZE) = rest BLOCK_SIZE data
  res : h.res = (whole BLOCK_SIZE data).foldl tigerCompress initial
  pos : h.pos = data.length % 2 ^ 64

variable {h : TigerHash} {data : Bytes}

theorem new_carries (memory : Vector UInt8 BLOCK_SIZE) : Carries (new memory) [] :=
  ⟨memory.length_toList, rfl, by rw [(whole_of_lt (show ([] : Bytes).length < BLOCK_SIZE by decide)).1]; rfl, rfl⟩

theorem Carries.tmppos (hc : Carries h data) : h.pos % BLOCK_SIZE = data.length % BLOCK_SIZE := by
  rw [hc.pos, blockSize_eq]
  omega

theorem bulk_eq (str : Bytes) {h : TigerHash} (hpos : h.pos < 2 ^ 64) :
    bulk h str = ({ h with res := (whole BLOCK_SIZE str).foldl tigerCompress h.res,
                           pos := (h.pos + (str.length - str.length % BLOCK_SIZE)) % 2 ^ 64 }, rest BLOCK_SIZE str) := by
  induction hn : str.length using Nat.strong_induction_on generalizing str h with
  | _ n ih =>
    rw [bulk]
    split
    next hle =>
      have htake : (str.take BLOCK_SIZE).length = BLOCK_SIZE := by rw [List.length_take, Nat.min_eq_left hle]
      obtain ⟨hwhole, hrest⟩ := whole_rest_cons (show 0 < BLOCK_SIZE by decide) htake (str.drop BLOCK_SIZE)
      rw [List.take_append_drop] at hwhole hrest
      have hdrop : (str.drop BLOCK_SIZE).length = n - BLOCK_SIZE := by rw [List.length_drop, hn]
      have hnext := @ih (n - BLOCK_SIZE) (by rw [blockSize_eq] at hle ⊢; omega) (str.drop BLOCK_SIZE)
        { h with res := tigerCompress h.res (str.take BLOCK_SIZE), pos := (h.pos + BLOCK_SIZE) % 2 ^ 64 }
        (Nat.mod_lt _ (Nat.two_pow_pos 64)) hdrop
      rw [hnext, hwhole, hrest, List.foldl_cons]
      have hcount : ((h.pos + BLOCK_SIZE) % 2 ^ 64 + (n - BLOCK_SIZE - (n - BLOCK_SIZE) % BLOCK_SIZE)) % 2 ^ 64 =
          (h.pos + (n - n % BLOCK_SIZE)) % 2 ^ 64 := by
        rw [blockSize_eq] at hle ⊢
        omega
      rw [hcount]
    next hlt =>
      obtain ⟨hwhole, hrest⟩ := whole_of_lt (Nat.lt_of_not_le hlt)
      have hcount : (h.pos + (n - n % BLOCK_SIZE)) % 2 ^ 64 = h.pos := by
        rw [show n % BLOCK_SIZE = n from Nat.mod_eq_of_lt (hn ▸ Nat.lt_of_not_le hlt), Nat.sub_self, Nat.add_zero,
          Nat.mod_eq_of_lt hpos]
      rw [hwhole, hrest, hcount]
      rfl

/-- The block that was begun takes the data up to its end. -/
theorem fill_carries (hc : Carries h data) (str : Bytes) : ∃ u v, str = u ++ v ∧ (fill h str).2 = v ∧
    Carries (fill h str).1 (data ++ u) ∧ (v = [] ∨ (data ++ u).length % BLOCK_SIZE = 0) := by
  have hpos := hc.tmppos
  have hlt : data.length % BLOCK_SIZE < BLOCK_SIZE := Nat.mod_lt _ (by decide)
  rw [fill, hpos]
  dsimp only
  split
  next hbegun =>
    generalize hr : data.length % BLOCK_SIZE = r at hbegun hlt
    refine ⟨str.take (min str.length (BLOCK_SIZE - r)), str.drop (min str.length (BLOCK_SIZE - r)),
      (List.take_append_drop _ _).symm, rfl, ?_, ?_⟩
    · generalize hu : str.take (min str.length (BLOCK_SIZE - r)) = u
      have hlen : u.length = min str.length (BLOCK_SIZE - r) := by
        rw [← hu, List.length_take]
        omega
      have hfit : r + u.length ≤ h.tmp.length := by
        rw [hc.length, hlen]
        omega
      have hrest := hc.tmp
      rw [hr] at hrest
      have htake : (memcpy h.tmp r u).take (r + u.length) = rest BLOCK_SIZE data ++ u := by
        rw [take_memcpy (by omega), hrest]
      obtain ⟨hwhole, hrest'⟩ := whole_rest_append (show 0 < BLOCK_SIZE by decide) data u
      have hcount : (h.pos + u.length) % 2 ^ 64 = (data ++ u).length % 2 ^ 64 := by
        rw [hc.pos, List.length_append]
        omega
      rw [← hlen]
      by_cases hfull : r + u.length = BLOCK_SIZE
      · have hblock : (rest BLOCK_SIZE data ++ u).length = BLOCK_SIZE := by
          rw [List.length_append, rest_length, hr, hfull]
        have hmod : (data ++ u).length % BLOCK_SIZE = 0 := by
          rw [List.length_append]
          rw [blockSize_eq] at *
          omega
        have htmp : memcpy h.tmp r u = rest BLOCK_SIZE data ++ u := by
          rw [← htake, List.take_of_length_le (by rw [length_memcpy hfit, hc.length]; omega)]
        obtain ⟨hw, hr'⟩ := whole_rest_cons (show 0 < BLOCK_SIZE by decide) hblock []
        obtain ⟨hw0, hr0⟩ := @whole_of_lt UInt8 BLOCK_SIZE [] (by decide)
        rw [List.append_nil, hw0] at hw
        rw [List.append_nil, hr0] at hr'
        refine ⟨?_, ?_, ?_, hcount⟩
        · dsimp only
          rw [length_memcpy hfit, hc.length]
        · rw [hmod, List.take_zero, hrest', hr']
        · dsimp only
          rw [if_pos hfull, hwhole, hw, List.foldl_append, ← hc.res, htmp]
          rfl
      · have hshort : (rest BLOCK_SIZE data ++ u).length < BLOCK_SIZE := by
          rw [List.length_append, rest_length, hr]
          omega
        obtain ⟨hw, hr'⟩ := whole_of_lt hshort
        have hmod : (data ++ u).length % BLOCK_SIZE = r + u.length := by
          rw [← rest_length, hrest', hr', List.length_append, rest_length, hr]
        refine ⟨?_, ?_, ?_, hcount⟩
        · dsimp only
          rw [length_memcpy hfit, hc.length]
        · rw [hmod, htake, hrest', hr']
        · dsimp only
          rw [if_neg hfull, hwhole, hw, List.append_nil, hc.res]
    · obtain hle | hgt := Nat.le_total str.length (BLOCK_SIZE - r)
      · left
        rw [Nat.min_eq_left hle, List.drop_length]
      · right
        rw [Nat.min_eq_right hgt, List.length_append, List.length_take, Nat.min_eq_left hgt]
        rw [blockSize_eq] at *
        omega
  next hnone =>
    refine ⟨[], str, rfl, rfl, ?_, Or.inr ?_⟩
    · rw [List.append_nil]
      exact hc
    · rw [List.append_nil]
      omega

theorem update_carries (hc : Carries h data) (str : Bytes) : Carries (update h str) (data ++ str) := by
  obtain ⟨u, v, rfl, hv, hcarries, hend⟩ := fill_carries hc str
  rw [update, ← List.append_assoc]
  generalize fill h (u ++ v) = filled at hv hcarries
  obtain ⟨h', v'⟩ := filled
  obtain rfl : v' = v := hv
  dsimp only at hcarries ⊢
  generalize data ++ u = taken at hcarries hend
  have hbound : h'.pos < 2 ^ 64 := by
    rw [hcarries.pos]
    exact Nat.mod_lt _ (Nat.two_pow_pos 64)
  rw [bulk_eq v' hbound]
  dsimp only
  have hrest : (rest BLOCK_SIZE v').length = v'.length % BLOCK_SIZE := rest_length _ _
  have hmod : v'.length % BLOCK_SIZE < BLOCK_SIZE := Nat.mod_lt _ (by decide)
  have hfit : 0 + (rest BLOCK_SIZE v').length ≤ h'.tmp.length := by
    rw [hrest, hcarries.length]
    omega
  have hcount : ((h'.pos + (v'.length - v'.length % BLOCK_SIZE)) % 2 ^ 64 + (rest BLOCK_SIZE v').length) % 2 ^ 64 =
      (taken ++ v').length % 2 ^ 64 := by
    have := Nat.mod_le v'.length BLOCK_SIZE
    rw [hrest, hcarries.pos, List.length_append]
    omega
  obtain rfl | haligned := hend
  · obtain ⟨hw0, hr0⟩ := @whole_of_lt UInt8 BLOCK_SIZE [] (by decide)
    rw [hr0, memcpy_nil, hw0]
    rw [hr0] at hcount
    rw [List.append_nil] at hcount ⊢
    exact ⟨hcarries.length, hcarries.tmp, hcarries.res, hcount⟩
  · have hnil : rest BLOCK_SIZE taken = [] := List.length_eq_zero_iff.mp (by rw [rest_length, haligned])
    obtain ⟨hwhole, hrest'⟩ := whole_rest_append (show 0 < BLOCK_SIZE by decide) taken v'
    rw [hnil, List.nil_append] at hwhole hrest'
    refine ⟨?_, ?_, ?_, hcount⟩
    · dsimp only
      rw [length_memcpy hfit, hcarries.length]
    · have hend : (taken ++ v').length % BLOCK_SIZE = 0 + (rest BLOCK_SIZE v').length := by
        rw [← rest_length, hrest', Nat.zero_add]
      rw [hend, take_memcpy (Nat.zero_le _), List.take_zero, List.nil_append, hrest']
    · dsimp only
      rw [hwhole, List.foldl_append, hcarries.res]

theorem updates_carries (hc : Carries h data) (pieces : List Bytes) :
    Carries (pieces.foldl update h) (data ++ pieces.flatten) := by
  induction pieces generalizing h data with
  | nil =>
    rw [List.flatten_nil, List.append_nil]
    exact hc
  | cons piece pieces ih =>
    rw [List.foldl_cons, List.flatten_cons, ← List.append_assoc]
    exact ih (update_carries hc piece)

end Pieces

section Finalize

variable {h : TigerHash} {data : Bytes}

/-- The blocks of the data, and those that its rest makes with the padding. -/
theorem blocks_eq {last : List Bytes} (hlast : rest BLOCK_SIZE data ++ padding data.length = last.flatten)
    (hlen : ∀ b ∈ last, b.length = BLOCK_SIZE) : blocks data = whole BLOCK_SIZE data ++ last := by
  have hpos : 0 < BLOCK_SIZE := by decide
  have hall : ∀ b ∈ whole BLOCK_SIZE data ++ last, b.length = BLOCK_SIZE := by
    intro b hb
    obtain hb | hb := List.mem_append.mp hb
    · exact length_of_mem_whole hpos hb
    · exact hlen b hb
  have hdata : data ++ padding data.length = (whole BLOCK_SIZE data ++ last).flatten := by
    rw [List.flatten_append, ← hlast, ← List.append_assoc, whole_append_rest hpos]
  rw [blocks, hdata, Chunks.chunks_flatten_of_length hpos hall]

theorem finalize_eq (hc : Carries h data) : (finalize h).getResult = tiger data := by
  have hpos := hc.tmppos
  have hlt : data.length % BLOCK_SIZE < BLOCK_SIZE := Nat.mod_lt _ (by decide)
  have hrest := hc.tmp
  have hlen := rest_length BLOCK_SIZE data
  have hbits : h.pos * 8 % 2 ^ 64 = data.length * 8 % 2 ^ 64 := by
    rw [hc.pos]
    omega
  obtain ⟨v, hv⟩ : ∃ v, h.tmp = rest BLOCK_SIZE data ++ v := ⟨_, by rw [← hrest, List.take_append_drop]⟩
  have htmp := hc.length
  rw [hv, List.length_append, hlen] at htmp
  have hone : memcpy h.tmp (data.length % BLOCK_SIZE) [byte '\x01'] = rest BLOCK_SIZE data ++ [byte '\x01'] ++ v.drop 1 := by
    rw [hv, ← hlen, memcpy_append]
    rfl
  have hbegun : (rest BLOCK_SIZE data ++ [byte '\x01']).length = data.length % BLOCK_SIZE + 1 := by
    rw [List.length_append, hlen]
    rfl
  rw [getResult, tiger, finalize, hpos, hone, hbits]
  generalize hB : rest BLOCK_SIZE data ++ [byte '\x01'] = B at hbegun
  generalize hr : data.length % BLOCK_SIZE = r at *
  have hmod : data.length % 64 = r := hr
  have hrestpad : rest BLOCK_SIZE data ++ padding data.length =
      B ++ List.replicate ((119 - r) % 64) (byte '\x00') ++ encode 8 (data.length * 8 % 2 ^ 64) := by
    rw [padding, hmod, ← hB, List.append_assoc, List.append_assoc]
    rfl
  have hbitslen : (encode 8 (data.length * 8 % 2 ^ 64)).length = 8 := encode_length _ _
  generalize encode 8 (data.length * 8 % 2 ^ 64) = bits at hrestpad hbitslen ⊢
  have hv' : (v.drop 1).length = 63 - r := by
    rw [List.length_drop]
    rw [blockSize_eq] at htmp
    omega
  have hset : ∀ n, memset (B ++ v.drop 1) (r + 1) n = B ++ List.replicate n (byte '\x00') ++ (v.drop 1).drop n := by
    intro n
    rw [memset, ← hbegun, memcpy_append, List.length_replicate]
  rw [blockSize_eq] at hlt
  by_cases hbig : BLOCK_SIZE - 8 < r + 1
  · -- the rest and the byte 1 leave no place for the number of bits
    have hfirst : memset (B ++ v.drop 1) (r + 1) (BLOCK_SIZE - (r + 1)) = B ++ List.replicate (63 - r) (byte '\x00') := by
      rw [hset, blockSize_eq, List.drop_of_length_le (by omega), List.append_nil]
      congr 2
      omega
    have hfirstlen : (B ++ List.replicate (63 - r) (byte '\x00')).length = BLOCK_SIZE := by
      rw [List.length_append, hbegun, List.length_replicate, blockSize_eq]
      omega
    have hzero : memset (B ++ List.replicate (63 - r) (byte '\x00')) 0 BLOCK_SIZE =
        List.replicate 56 (byte '\x00') ++ List.replicate 8 (byte '\x00') := by
      have h := memcpy_append [] (B ++ List.replicate (63 - r) (byte '\x00')) (List.replicate BLOCK_SIZE (byte '\x00'))
      rw [List.nil_append, List.nil_append, List.length_nil, List.drop_of_length_le
        (by rw [hfirstlen, List.length_replicate]), List.append_nil] at h
      rw [memset, h]
      rfl
    have hsecond : memcpy (List.replicate 56 (byte '\x00') ++ List.replicate 8 (byte '\x00')) 56 bits =
        List.replicate 56 (byte '\x00') ++ bits := by
      have h := memcpy_append (List.replicate 56 (byte '\x00')) (List.replicate 8 (byte '\x00')) bits
      rw [List.length_replicate, List.drop_of_length_le (by rw [List.length_replicate, hbitslen]), List.append_nil] at h
      exact h
    have hblocks := @blocks_eq data [B ++ List.replicate (63 - r) (byte '\x00'), List.replicate 56 (byte '\x00') ++ bits] ?_ ?_
    · rw [if_pos hbig, hfirst]
      dsimp only
      rw [hzero, hsecond, hblocks, List.foldl_append, ← hc.res]
      rfl
    · have hcount : (119 - r) % 64 = 63 - r + 56 := by
        rw [blockSize_eq] at hbig
        omega
      rw [hrestpad, hcount, List.replicate_add]
      simp only [List.flatten_cons, List.flatten_nil, List.append_nil, List.append_assoc]
    · simp only [List.forall_mem_cons, List.not_mem_nil, false_implies, implies_true, and_true]
      refine ⟨hfirstlen, ?_⟩
      rw [List.length_append, List.length_replicate, hbitslen]
      rfl
  · have hfirst : memset (B ++ v.drop 1) (r + 1) (BLOCK_SIZE - (r + 1) - 8) =
        B ++ List.replicate (55 - r) (byte '\x00') ++ (v.drop 1).drop (55 - r) := by
      have hcount : BLOCK_SIZE - (r + 1) - 8 = 55 - r := by
        rw [blockSize_eq]
        omega
      rw [hset, hcount]
    have hlen56 : (B ++ List.replicate (55 - r) (byte '\x00')).length = 56 := by
      rw [blockSize_eq] at hbig
      rw [List.length_append, hbegun, List.length_replicate]
      omega
    have hlast : memcpy (B ++ List.replicate (55 - r) (byte '\x00') ++ (v.drop 1).drop (55 - r)) 56 bits =
        B ++ List.replicate (55 - r) (byte '\x00') ++ bits := by
      have hw : ((v.drop 1).drop (55 - r)).length ≤ bits.length := by
        rw [List.length_drop, hv', hbitslen]
        omega
      have h := memcpy_append (B ++ List.replicate (55 - r) (byte '\x00')) ((v.drop 1).drop (55 - r)) bits
      rw [hlen56, List.drop_of_length_le hw, List.append_nil] at h
      exact h
    have hblocks := @blocks_eq data [B ++ List.replicate (55 - r) (byte '\x00') ++ bits] ?_ ?_
    · rw [if_neg hbig, hfirst]
      dsimp only
      rw [hlast, hblocks, List.foldl_append, ← hc.res]
      rfl
    · have hcount : (119 - r) % 64 = 55 - r := by
        rw [blockSize_eq] at hbig
        omega
      rw [hrestpad, hcount, List.flatten_singleton]
    · intro b hb
      obtain rfl := List.mem_singleton.mp hb
      rw [List.length_append, hlen56, hbitslen]
      rfl

/-- However the data is cut into pieces, and whatever the block had in its memory, the hash is that of the whole data. -/
theorem updates_digest (memory : Vector UInt8 BLOCK_SIZE) (pieces : List Bytes) :
    (finalize (pieces.foldl update (new memory))).getResult = tiger pieces.flatten :=
  finalize_eq (updates_carries (new_carries memory) pieces)

end Finalize

end TigerHash

end Dcpp
