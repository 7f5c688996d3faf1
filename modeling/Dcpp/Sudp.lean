import Mathlib.Data.List.TakeWhile
import Mathlib.Logic.Equiv.Defs
import Mathlib.Tactic.Common
import Dcpp.Bytes

-- Search results that are encrypted.
namespace Dcpp.CryptoManager

/-- The cipher with the initialization vector 0: for each key a bijection that keeps the length. -/
structure Cipher (Key : Type) where
  cbc : Key → Equiv.Perm Bytes
  length_cbc : ∀ aKey s, (cbc aKey s).length = s.length

/-- The random bytes in front of a message. -/
structure Block where
  data : Bytes
  size : data.length = 16

variable {Key : Type} (c : Cipher Key)

/-- The message between 16 random bytes and the padding. -/
def pad (ivd : Block) (aCmd : Bytes) : Bytes :=
  let pad := 16 - aCmd.length % 16
  ivd.data ++ aCmd ++ List.replicate pad pad.toUInt8

def encryptSUDP (aKey : Key) (ivd : Block) (aCmd : Bytes) : Bytes := c.cbc aKey (pad ivd aCmd)

/-- The loop over the padding, with the number of its bytes that are left, which replaces them by NULs. Nothing is left
of what is not all `padlen`; where the loop leaves the data there is no result at all. -/
def unpadLoop (padlen : UInt8) : Nat → Nat → Bytes → Option (Option Bytes)
  | _, 0, out => some (some out)
  | i, n + 1, out =>
    match out[i]? with
    | none => none
    | some x => if x ≠ padlen then some none else unpadLoop padlen (i + 1) n (out.set i 0)

/-- The message, or `none` where it returns false. There is no result where it reads outside of the data. -/
def decryptSUDP (aKey : Key) (aData : Bytes) : Option (Option Bytes) :=
  let out := (c.cbc aKey).symm aData
  match out.getLast? with
  | none => none
  | some padlen =>
    if padlen < 1 ∨ 16 < padlen then some none
    else if out.length < padlen.toNat then none
    else
      match unpadLoop padlen (out.length - padlen.toNat) padlen.toNat out with
      | none => none
      | some none => some none
      | some (some out) => if 0 ∈ out.drop 16 then some (some ((out.drop 16).takeWhile (· ≠ 0))) else none

/-- A text that ends in `n` padding bytes. -/
structure Padded (out : Bytes) (n : Nat) : Prop where
  pos : 1 ≤ n
  le : n ≤ 16
  suffix : List.replicate n n.toUInt8 <:+ out

/-- The key takes a packet for one that is encrypted under it. -/
def Accepts (aKey : Key) (aData : Bytes) : Prop := ∃ n, Padded ((c.cbc aKey).symm aData) n

theorem unpadLoop_append (padlen : UInt8) (u v : Bytes) :
    unpadLoop padlen u.length v.length (u ++ v) =
      if v = List.replicate v.length padlen then some (some (u ++ List.replicate v.length 0)) else some none := by
  induction v generalizing u with
  | nil => rfl
  | cons x v ih =>
    have hx : (u ++ x :: v)[u.length]? = some x := by simp
    rw [List.length_cons, unpadLoop, hx]
    dsimp only
    by_cases hne : x = padlen
    · subst hne
      have hset : (u ++ x :: v).set u.length 0 = u ++ [0] ++ v := by simp
      have h := ih (u ++ [0])
      rw [List.length_append, List.length_singleton] at h
      rw [if_neg (not_not_intro rfl), hset, h, List.replicate_succ, List.replicate_succ]
      simp
    · rw [if_pos hne, if_neg fun h => hne (by simpa [List.replicate_succ] using congrArg List.head? h)]

theorem toUInt8_toNat {n : Nat} (h : n ≤ 16) : n.toUInt8.toNat = n := UInt8.toNat_ofNat_of_lt (Nat.lt_of_le_of_lt h (by decide))

theorem Padded.getLast? {out : Bytes} {n : Nat} (h : Padded out n) : out.getLast? = some n.toUInt8 := by
  obtain ⟨u, rfl⟩ := h.suffix
  obtain ⟨n, rfl⟩ := Nat.exists_eq_succ_of_ne_zero (Nat.ne_of_gt h.pos)
  rw [List.replicate_succ', ← List.append_assoc, List.getLast?_append, List.getLast?_singleton, Option.some_or]

theorem takeWhile_zero (v w : Bytes) : (v ++ 0 :: w).takeWhile (· ≠ 0) = v.takeWhile (· ≠ 0) := by
  induction v with
  | nil => rfl
  | cons x v ih => rw [List.cons_append, List.takeWhile_cons, List.takeWhile_cons, ih]

theorem padlen_range {n : Nat} (hpos : 1 ≤ n) (hle : n ≤ 16) : ¬(n.toUInt8 < 1 ∨ 16 < n.toUInt8) := by
  have hn := toUInt8_toNat hle
  simp only [UInt8.lt_iff_toNat_lt, hn, not_or, Nat.not_lt]
  exact ⟨hpos, hle⟩

/-- What ends in a padding is cut to the text behind the first 16 bytes, up to a NUL. -/
theorem decryptSUDP_padded {aKey : Key} {aData u v : Bytes} {n : Nat} (hu : u.length = 16) (hpos : 1 ≤ n) (hle : n ≤ 16)
    (h : (c.cbc aKey).symm aData = u ++ v ++ List.replicate n n.toUInt8) :
    decryptSUDP c aKey aData = some (some (v.takeWhile (· ≠ 0))) := by
  have hlast := Padded.getLast? ⟨hpos, hle, List.suffix_append (u ++ v) (List.replicate n n.toUInt8)⟩
  have hlength : (u ++ v ++ List.replicate n n.toUInt8).length = (u ++ v).length + n := by
    rw [List.length_append, List.length_replicate]
  have hloop := unpadLoop_append n.toUInt8 (u ++ v) (List.replicate n n.toUInt8)
  rw [List.length_replicate, if_pos rfl] at hloop
  have hdrop : (u ++ v ++ List.replicate n 0).drop 16 = v ++ List.replicate n 0 := by
    rw [List.append_assoc, ← hu, List.drop_left]
  have hzero : (0 : UInt8) ∈ v ++ List.replicate n 0 := by
    simp [Nat.ne_of_gt hpos]
  have hcut : (v ++ List.replicate n 0).takeWhile (· ≠ 0) = v.takeWhile (· ≠ 0) := by
    obtain ⟨m, rfl⟩ := Nat.exists_eq_succ_of_ne_zero (Nat.ne_of_gt hpos)
    exact takeWhile_zero v _
  rw [decryptSUDP, h, hlast]
  dsimp only
  rw [if_neg (padlen_range hpos hle), toUInt8_toNat hle, hlength, if_neg (by omega), Nat.add_sub_cancel, hloop]
  dsimp only
  rw [hdrop, if_pos hzero, hcut]

/-- Nothing else is accepted. -/
theorem decryptSUDP_of_not_accepts {aKey : Key} {aData : Bytes} (hlen : 16 ≤ aData.length) (h : ¬Accepts c aKey aData) :
    decryptSUDP c aKey aData = some none := by
  have hout : ((c.cbc aKey).symm aData).length = aData.length := by
    rw [← c.length_cbc aKey, Equiv.apply_symm_apply]
  rw [decryptSUDP]
  rw [Accepts] at h
  generalize (c.cbc aKey).symm aData = out at h hout
  cases hlast : out.getLast? with
  | none =>
    rw [List.getLast?_eq_none_iff] at hlast
    simp [hlast] at hout
    omega
  | some padlen =>
    dsimp only
    by_cases hrange : padlen < 1 ∨ 16 < padlen
    · rw [if_pos hrange]
    · rw [if_neg hrange]
      simp only [UInt8.lt_iff_toNat_lt, not_or, Nat.not_lt] at hrange
      have hpos : 1 ≤ padlen.toNat := hrange.1
      have hle : padlen.toNat ≤ 16 := hrange.2
      have hpad : (out.drop (out.length - padlen.toNat)).length = padlen.toNat := by
        rw [List.length_drop]
        omega
      have hloop := unpadLoop_append padlen (out.take (out.length - padlen.toNat)) (out.drop (out.length - padlen.toNat))
      rw [List.take_append_drop, List.length_take_of_le (Nat.sub_le _ _), hpad] at hloop
      have hno : out.drop (out.length - padlen.toNat) ≠ List.replicate padlen.toNat padlen := by
        intro heq
        refine h ⟨padlen.toNat, hpos, hle, ?_⟩
        rw [show padlen.toNat.toUInt8 = padlen from UInt8.ofNat_toNat, ← heq]
        exact List.drop_suffix _ _
      rw [if_neg (by omega), hloop, if_neg hno]

theorem decryptSUDP_encryptSUDP (aKey : Key) (ivd : Block) {aCmd : Bytes} (h : 0 ∉ aCmd) :
    decryptSUDP c aKey (encryptSUDP c aKey ivd aCmd) = some (some aCmd) := by
  have hout : (c.cbc aKey).symm (encryptSUDP c aKey ivd aCmd) = ivd.data ++ aCmd ++
      List.replicate (16 - aCmd.length % 16) (16 - aCmd.length % 16).toUInt8 := Equiv.symm_apply_apply _ _
  have hmod := Nat.mod_lt aCmd.length (by decide : 0 < 16)
  rw [decryptSUDP_padded c ivd.size (by omega) (by omega) hout]
  have hcut : aCmd.takeWhile (· ≠ 0) = aCmd :=
    List.takeWhile_eq_self_iff.mpr fun x hx => decide_eq_true fun h0 => h (h0 ▸ hx)
  rw [hcut]

end CryptoManager

namespace SearchManager

open CryptoManager

variable {Key : Type} (c : Cipher Key)

/-- The loop of `decryptPacket` over the keys that are left, with what becomes of `x`. -/
def decryptLoop (x aBuf : Bytes) : List Key → Option (Bytes × Bool)
  | [] => some (x, false)
  | key :: keys =>
    match decryptSUDP c key aBuf with
    | none => none
    | some none => decryptLoop x aBuf keys
    | some (some result) => some (result, true)

/-- The keys are in the order of their searches, and the newest one is tried first. -/
def decryptPacket (searchKeys : List Key) (x aBuf : Bytes) : Option (Bytes × Bool) :=
  decryptLoop c x aBuf searchKeys.reverse

/-- What `run` makes of a packet that it has read. -/
def received (enableSudp : Bool) (searchKeys : List Key) (packet : Bytes) : Option Bytes :=
  if enableSudp ∧ 32 ≤ packet.length ∧ packet.length % 16 = 0 then
    (decryptPacket c searchKeys packet packet).map Prod.fst
  else some packet

theorem decryptLoop_none (x : Bytes) {aBuf : Bytes} (hlen : 16 ≤ aBuf.length) {keys : List Key}
    (h : ∀ key ∈ keys, ¬Accepts c key aBuf) (rest : List Key) :
    decryptLoop c x aBuf (keys ++ rest) = decryptLoop c x aBuf rest := by
  induction keys with
  | nil => rfl
  | cons key keys ih =>
    obtain ⟨hkey, hkeys⟩ := List.forall_mem_cons.mp h
    rw [List.cons_append, decryptLoop, decryptSUDP_of_not_accepts c hlen hkey]
    exact ih hkeys

theorem length_encryptSUDP (aKey : Key) (ivd : Block) (aCmd : Bytes) :
    16 ≤ (encryptSUDP c aKey ivd aCmd).length := by
  simp only [encryptSUDP, c.length_cbc, pad, List.length_append, ivd.size]
  omega

/-- A message comes through; a packet is decrypted with its key unless a newer key accepts it, and stays as it is when
no key accepts it. -/
theorem sudp_spec (c : Cipher Key) :
    (∀ key ivd aCmd, 0 ∉ aCmd → decryptSUDP c key (encryptSUDP c key ivd aCmd) = some (some aCmd)) ∧
    (∀ (older newer : List Key) key ivd x aCmd, 0 ∉ aCmd →
      (∀ k ∈ newer, ¬Accepts c k (encryptSUDP c key ivd aCmd)) →
      decryptPacket c (older ++ key :: newer) x (encryptSUDP c key ivd aCmd) = some (aCmd, true)) ∧
    ∀ enableSudp searchKeys packet,
      (enableSudp = true ∧ 32 ≤ packet.length ∧ packet.length % 16 = 0 → ∀ k ∈ searchKeys, ¬Accepts c k packet) →
      received c enableSudp searchKeys packet = some packet := by
  refine ⟨fun key ivd aCmd => decryptSUDP_encryptSUDP c key ivd, ?_, ?_⟩
  · intro older newer key ivd x aCmd hzero hnewer
    rw [decryptPacket, List.reverse_append, List.reverse_cons, List.append_assoc,
      decryptLoop_none c x (length_encryptSUDP c key ivd aCmd) fun k hk => hnewer k (List.mem_reverse.mp hk),
      List.singleton_append, decryptLoop, decryptSUDP_encryptSUDP c key ivd hzero]
  · intro enableSudp searchKeys packet hnone
    rw [received]
    split
    next hgate =>
      have hkeys : ∀ k ∈ searchKeys.reverse, ¬Accepts c k packet := fun k hk => hnone hgate k (List.mem_reverse.mp hk)
      have h := decryptLoop_none c packet (Nat.le_trans (by decide) hgate.2.1) hkeys []
      rw [List.append_nil] at h
      rw [decryptPacket, h]
      rfl
    next => rfl

/-- What is asked of `decryptPacket`, whatever the keys. -/
structure Decrypts (c : Cipher Key) : Prop where
  decrypted : ∀ (searchKeys : List Key) (key : Key) (ivd : Block) (x aCmd : Bytes), key ∈ searchKeys → 0 ∉ aCmd →
    decryptPacket c searchKeys x (encryptSUDP c key ivd aCmd) = some (aCmd, true)
  unchanged : ∀ (searchKeys : List Key) (packet : Bytes),
    (∀ key ∈ searchKeys, ∀ ivd aCmd, packet ≠ encryptSUDP c key ivd aCmd) →
    received c true searchKeys packet = some packet

/-- Changes the first character of the message, or nothing. -/
def flip (s : Bytes) : Bytes := s.modify 16 (· ^^^ 1)

theorem flip_flip (s : Bytes) : flip (flip s) = s := by
  have h : (fun x : UInt8 => x ^^^ 1) ∘ (fun x : UInt8 => x ^^^ 1) = id := by
    funext x
    change (x ^^^ 1) ^^^ 1 = x
    rw [UInt8.xor_assoc, UInt8.xor_self, UInt8.xor_zero]
  rw [flip, flip, List.modify_modify_eq, h, List.modify_id]

def flipCipher : Cipher Bool where
  cbc aKey := if aKey then ⟨flip, flip, flip_flip, flip_flip⟩ else Equiv.refl Bytes
  length_cbc aKey s := by cases aKey <;> simp [flip]

/-- The newer key accepts the packet of the older one. -/
theorem not_decrypts : ¬∀ (Key : Type) (c : Cipher Key), Decrypts c := by
  intro h
  have hdec := (h Bool flipCipher).decrypted [false, true] false ⟨List.replicate 16 0, rfl⟩ [] (str "A")
    (by decide) (by decide)
  exact absurd hdec (by decide +kernel)

end SearchManager

end Dcpp
