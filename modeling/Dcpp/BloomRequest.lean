import Dcpp.AdcCommand
import Dcpp.HashBloom
import Dcpp.Util

-- The request of a hub for the filter.
namespace Dcpp.AdcHub

open Encoder

def SEV_FATAL : Nat := 2
def ERROR_PROTOCOL_GENERIC : Nat := 40
def ERROR_TRANSFER_GENERIC : Nat := 50

/-- `AdcCommand(sev, err, desc, TYPE_HUB)`. -/
def sta (sev err : Nat) (desc : Bytes) : AdcCommand :=
  ⟨(byte 'S', byte 'T', byte 'A'), .HUB, 0, 0, [], [if sev = 0 then str "000" else Util.toString (sev * 100 + err), desc]⟩

/-- The parameter at a place, which is empty when there is none. -/
def param (c : AdcCommand) (n : Nat) : Bytes := c.parameters.getD n []

inductive Sent where
  | command (c : AdcCommand)
  | data (v : Bytes)
deriving DecidableEq

/-- `Util::roundUp`. -/
def roundUp (size blockSize : Int64) : Int64 := (size + blockSize - 1) / blockSize * blockSize

/-- The size of the filter in bits, a product of 32 bits. -/
def bloomBits (c : AdcCommand) : Nat := Util.toUInt32 (param c 3) * 8 % 2 ^ 32

/-- `ideal` is what the division by `log(2.)` makes of a number. -/
def unsupportedM (ideal : UInt64 → Int64) (n m k h : Nat) : Bool :=
  m > (5 * roundUp (ideal (UInt64.ofNat (n * k))) 64).toUInt64.toNat || (h < 32 && m > 2 ^ h)

/-- `ShareManager::getBloom`; `tths` are the keys of the index. -/
def getBloom (tths : List Encoder.HashValue) (k m h : Nat) : Option Bytes :=
  ((HashBloom.empty.reset k m h).addAll tths).bind fun bloom => bloom.copy_to []

def refuse (err : Nat) (desc : String) : Option (List Sent) := some [.command (sta SEV_FATAL err (str desc))]

/-- The command that announces the filter. -/
def snd (c : AdcCommand) : AdcCommand :=
  ⟨(byte 'S', byte 'N', byte 'D'), .HUB, 0, 0, [], [param c 0, param c 1, param c 2, param c 3, param c 4]⟩

/-- What is sent for a filter with these parameters; none is undefined. -/
def sendBloom (tths : List Encoder.HashValue) (c : AdcCommand) (k m h : Nat) : Option (List Sent) :=
  if m > 0 then (getBloom tths k m h).map fun v => [.command (snd c), .data v]
  else some [.command (snd c)]

/-- `handle(GET)`. -/
def handleGET (ideal : UInt64 → Int64) (tths : List Encoder.HashValue) (c : AdcCommand) : Option (List Sent) :=
  if c.parameters.length < 5 then
    if c.parameters ≠ [] then
      if param c 0 = str "blom" then refuse ERROR_PROTOCOL_GENERIC "Too few parameters for blom"
      else refuse ERROR_TRANSFER_GENERIC "Unknown transfer type"
    else refuse ERROR_PROTOCOL_GENERIC "Too few parameters for GET"
  else if param c 0 = str "blom" then
    match c.getParam (str "BK") 4, c.getParam (str "BH") 4 with
    | some sk, some sh =>
      let m := bloomBits c
      let k := Util.toUInt32 sk
      let h := Util.toUInt32 sh
      if k > 8 ∨ k < 1 then refuse ERROR_TRANSFER_GENERIC "Unsupported k"
      else if h > 64 ∨ h < 1 then refuse ERROR_TRANSFER_GENERIC "Unsupported h"
      else if unsupportedM ideal tths.length m k h then refuse ERROR_TRANSFER_GENERIC "Unsupported m"
      else sendBloom tths c k m h
    | _, _ => some []
  else some []

/-- The handler admits the request. -/
def Admits (ideal : UInt64 → Int64) (tths : List Encoder.HashValue) (c : AdcCommand) : Prop :=
  5 ≤ c.parameters.length ∧ param c 0 = str "blom" ∧ ∃ sk sh, c.getParam (str "BK") 4 = some sk ∧
    c.getParam (str "BH") 4 = some sh ∧ (1 ≤ Util.toUInt32 sk ∧ Util.toUInt32 sk ≤ 8) ∧
    (1 ≤ Util.toUInt32 sh ∧ Util.toUInt32 sh ≤ 64) ∧
    unsupportedM ideal tths.length (bloomBits c) (Util.toUInt32 sk) (Util.toUInt32 sh) = false

/-- The number of bytes that a request asks for and an announcement promises. -/
def byteCount (c : AdcCommand) : Int := Util.toInt64 (param c 3)

/-- Nothing but an error. -/
def Refused (reply : List Sent) : Prop :=
  ∀ s ∈ reply, ∃ c, s = .command c ∧ c.cmd = (byte 'S', byte 'T', byte 'A')

/-- The bytes that follow are as many as are announced, and make up a filter of eight times as many bits. -/
def Announced (bits : Nat) (reply : List Sent) : Prop :=
  ∃ header v, reply = .command header :: (if v = [] then [] else [.data v]) ∧
    header.cmd = (byte 'S', byte 'N', byte 'D') ∧ byteCount header = v.length ∧ bits = 8 * v.length

/-- The reply is defined, so that no division by zero and no access out of bounds has happened. -/
def Answers (bits : Nat) (reply : Option (List Sent)) : Prop :=
  ∃ r, reply = some r ∧ (Refused r ∨ Announced bits r)

theorem bloomBits_eq (c : AdcCommand) : (bloomBits c : Int) = 8 * (byteCount c % 2 ^ 29) := by
  have htoUInt32 : (Util.toUInt32 (param c 3) : Int) = byteCount c % 2 ^ 32 := by
    have hmod : (Util.toInt (param c 3)) % 2 ^ 32 = byteCount c % 2 ^ 32 := Int.bmod_emod
    rw [Util.toUInt32, hmod]
    omega
  rw [bloomBits]
  omega

theorem dvd_bloomBits (c : AdcCommand) : 8 ∣ bloomBits c := by
  have h := bloomBits_eq c
  omega

/-- A filter that the handler admits is made without anything undefined, and has the bytes for its bits. -/
theorem getBloom_spec (tths : List Encoder.HashValue) {k m h : Nat} (hm : 0 < m) (h8 : 8 ∣ m) (hk : k ≤ 8) (hh : h ≤ 64) :
    ∃ v, getBloom tths k m h = some v ∧ 8 * v.length = m := by
  have hkh : k * h < HashBloom.SIZE := by
    have hmul : k * h ≤ 8 * 64 := Nat.mul_le_mul hk hh
    exact Nat.lt_of_le_of_lt hmul (by decide)
  have hreset := HashBloom.reset_empty k m h
  have hsound : HashBloom.Sound (HashBloom.empty.reset k m h) := by
    rw [hreset]
    exact ⟨by simpa using hm, hh, hkh⟩
  obtain ⟨b, hb, hext, -⟩ := HashBloom.addAll_spec hsound tths
  have hlen : b.bloom.length = m := by
    rw [hext.shape.length, hreset]
    exact List.length_replicate
  obtain ⟨v, hv, hbytes, -⟩ := HashBloom.copy_to_spec b (hlen ▸ h8)
  exact ⟨v, by rw [getBloom, hb, Option.bind_some, hv], hbytes.trans hlen⟩

theorem answers_refuse (bits err : Nat) (desc : String) : Answers bits (refuse err desc) := by
  refine ⟨_, rfl, Or.inl fun s hs => ?_⟩
  exact ⟨_, List.mem_singleton.mp hs, rfl⟩

theorem answers_nothing (bits : Nat) : Answers bits (some []) :=
  ⟨[], rfl, Or.inl fun _ hs => absurd hs List.not_mem_nil⟩

/-- What is sent is what is announced exactly when no bit of the number was lost. -/
theorem answers_sendBloom_iff (tths : List Encoder.HashValue) (c : AdcCommand) {k h : Nat} (hk : k ≤ 8) (hh : h ≤ 64) :
    Answers (bloomBits c) (sendBloom tths c k (bloomBits c) h) ↔ 0 ≤ byteCount c ∧ byteCount c < 2 ^ 29 := by
  have hbits := bloomBits_eq c
  have hnot : ∀ rest, ¬Refused (.command (snd c) :: rest) := by
    intro rest href
    obtain ⟨c', hc', hcmd⟩ := href _ List.mem_cons_self
    rw [← Sent.command.inj hc'] at hcmd
    have hne : (byte 'S', byte 'N', byte 'D') ≠ (byte 'S', byte 'T', byte 'A') := by decide
    exact hne hcmd
  obtain ⟨v, hv, hbytes⟩ : ∃ v, sendBloom tths c k (bloomBits c) h =
      some (.command (snd c) :: (if v = [] then [] else [.data v])) ∧ 8 * v.length = bloomBits c := by
    by_cases hm : bloomBits c > 0
    · obtain ⟨v, hv, hbytes⟩ := getBloom_spec tths (k := k) hm (dvd_bloomBits c) hk hh
      have hne : v ≠ [] := by
        rintro rfl
        rw [List.length_nil] at hbytes
        omega
      exact ⟨v, by rw [sendBloom, if_pos hm, hv, if_neg hne]; rfl, hbytes⟩
    · refine ⟨[], ?_, ?_⟩
      · rw [sendBloom, if_neg hm, if_pos rfl]
      · rw [List.length_nil]
        omega
  have hcount : byteCount (snd c) = byteCount c := rfl
  rw [hv]
  constructor
  · rintro ⟨r, hr, href | ⟨header, v', rfl, -, hannounced, hsize⟩⟩
    · obtain rfl := Option.some.inj hr
      exact absurd href (hnot _)
    · obtain ⟨hheader, -⟩ := List.cons.inj (Option.some.inj hr)
      rw [← Sent.command.inj hheader, hcount] at hannounced
      omega
  · intro h
    refine ⟨_, rfl, Or.inr ⟨snd c, v, rfl, rfl, ?_, hbytes.symm⟩⟩
    rw [hcount]
    omega

/-- A request is answered exactly when it is refused or asks for less than 2^29 bytes, and not for a negative
number of them. -/
theorem handleGET_answers_iff (ideal : UInt64 → Int64) (tths : List Encoder.HashValue) (c : AdcCommand) :
    Answers (bloomBits c) (handleGET ideal tths c) ↔
      (Admits ideal tths c → 0 ≤ byteCount c ∧ byteCount c < 2 ^ 29) := by
  have hother : ∀ {reply}, ¬Admits ideal tths c → Answers (bloomBits c) reply →
      (Answers (bloomBits c) reply ↔ (Admits ideal tths c → 0 ≤ byteCount c ∧ byteCount c < 2 ^ 29)) :=
    fun hn hr => iff_of_true hr fun ha => absurd ha hn
  rw [handleGET]
  split
  next hlen =>
    have hn : ¬Admits ideal tths c := fun ha => absurd ha.1 (by omega)
    split
    next =>
      split
      next => exact hother hn (answers_refuse _ _ _)
      next => exact hother hn (answers_refuse _ _ _)
    next => exact hother hn (answers_refuse _ _ _)
  next hlen =>
    split
    next htype =>
      split
      next sk sh hsk hsh =>
        -- the parameters that `Admits` speaks of are the ones that were found
        have hadmits : Admits ideal tths c ↔ (1 ≤ Util.toUInt32 sk ∧ Util.toUInt32 sk ≤ 8) ∧
            (1 ≤ Util.toUInt32 sh ∧ Util.toUInt32 sh ≤ 64) ∧
            unsupportedM ideal tths.length (bloomBits c) (Util.toUInt32 sk) (Util.toUInt32 sh) = false := by
          constructor
          · rintro ⟨-, -, sk', sh', hsk', hsh', h⟩
            obtain rfl := Option.some.inj (hsk.symm.trans hsk')
            obtain rfl := Option.some.inj (hsh.symm.trans hsh')
            exact h
          · intro h
            exact ⟨Nat.le_of_not_lt hlen, htype, sk, sh, hsk, hsh, h⟩
        dsimp only
        split
        next hk =>
          refine hother (fun ha => ?_) (answers_refuse _ _ _)
          have := (hadmits.mp ha).1
          omega
        next hk =>
          split
          next hh =>
            refine hother (fun ha => ?_) (answers_refuse _ _ _)
            have := (hadmits.mp ha).2.1
            omega
          next hh =>
            split
            next hm =>
              refine hother (fun ha => ?_) (answers_refuse _ _ _)
              rw [(hadmits.mp ha).2.2] at hm
              cases hm
            next hm =>
              have ha : Admits ideal tths c := hadmits.mpr ⟨by omega, by omega, Bool.eq_false_iff.mpr hm⟩
              rw [answers_sendBloom_iff tths c (by omega) (by omega)]
              exact ⟨fun h _ => h, fun h => h ha⟩
      next hnone =>
        refine hother (fun ha => ?_) (answers_nothing _)
        obtain ⟨-, -, sk, sh, hsk, hsh, -⟩ := ha
        exact hnone sk sh hsk hsh
    next htype => exact hother (fun ha => htype ha.2.1) (answers_nothing _)

/-- With one file, a filter of 8 functions needs 11 bits. -/
def oneFile : UInt64 → Int64 := fun n => (n * 1000000 / 693147).toInt64

/-- Eight bytes more than 2^29 of them. -/
def largeRequest : AdcCommand :=
  ⟨(byte 'G', byte 'E', byte 'T'), .INFO, AdcCommand.HUB_SID, 0, [],
    [str "blom", str "/", str "0", str "536870920", str "BK8", str "BH64"]⟩

/-- The filter that is sent has eight bytes. -/
theorem not_handleGET_answers : ¬∀ ideal tths c, Answers (bloomBits c) (handleGET ideal tths c) := by
  intro h
  have hsent : handleGET oneFile [HashBloom.zeros] largeRequest =
      sendBloom [HashBloom.zeros] largeRequest 8 (bloomBits largeRequest) 64 := by decide +kernel
  have hanswers := h oneFile [HashBloom.zeros] largeRequest
  rw [hsent, answers_sendBloom_iff _ _ (by decide) (by decide)] at hanswers
  exact absurd hanswers.2 (by decide +kernel)

end Dcpp.AdcHub
