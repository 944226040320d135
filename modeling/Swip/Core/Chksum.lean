import Swip.Wire
import Swip.Library.OnesComplement

/-! The Internet checksum of `inet_chksum.c`, algorithm 2, on a little-endian processor. A pbuf is
the address of its payload and the bytes there; only whether the address is odd matters. -/
namespace Swip.Core
open Library.OnesComplement

/-- `len` is a `u16_t`. -/
structure Payload where
  address : Nat
  data : List Byte
  short : data.length < 65536

def octets (data : List Byte) : List Nat := data.map UInt8.toNat

def foldU32T (u : Nat) : Nat := u / 65536 + u % 65536

def swapBytesInWord (w : Nat) : Nat := w % 256 * 256 + w / 256 % 256

/-- `sum` wraps at 32 bits. The result has the bytes that are left, one at most. -/
def chksumLoop : Nat → List Byte → Nat × List Byte
  | sum, a :: b :: rest => chksumLoop ((sum + (a.toNat + 256 * b.toNat)) % 4294967296) rest
  | sum, rest => (sum,rest)

def lwipStandardChksum (dataptr : Nat) (data : List Byte) : Nat :=
  let odd := dataptr % 2 = 1
  -- `t` takes the byte before the first even address and the one behind the last pair
  let high := if odd then (data.headD 0).toNat else 0
  let (sum,rest) := chksumLoop 0 (if odd then data.tail else data)
  let t := (rest.headD 0).toNat + 256 * high
  let sum := foldU32T (foldU32T ((sum + t) % 4294967296))
  if odd then swapBytesInWord sum else sum % 65536

def inetChksum (dataptr : Nat) (data : List Byte) : Nat := 65535 - lwipStandardChksum dataptr data

/-- The loop over the chain, which `inet_chksum_pbuf` and `inet_cksum_pseudo_base` share. -/
def chainLoop : List Payload → Nat → Bool → Nat × Bool
  | [], acc, swapped => (acc,swapped)
  | q :: next, acc, swapped =>
    let acc := foldU32T ((acc + lwipStandardChksum q.address q.data) % 4294967296)
    if q.data.length % 2 ≠ 0 then chainLoop next (swapBytesInWord acc) !swapped else chainLoop next acc swapped

def chainSum (p : List Payload) (acc : Nat) : Nat :=
  let (acc,swapped) := chainLoop p acc false
  if swapped then swapBytesInWord acc else acc

def inetChksumPbuf (p : List Payload) : Nat := 65535 - chainSum p 0 % 65536

def lwipHtons (x : Nat) : Nat := swapBytesInWord x

def inetCksumPseudoBase (p : List Payload) (proto : UInt8) (protoLen : UInt16) (acc : Nat) : Nat :=
  let acc := chainSum p acc + lwipHtons proto.toNat + lwipHtons protoLen.toNat
  65535 - foldU32T (foldU32T (acc % 4294967296)) % 65536

/-- The addresses are in network order. -/
def inetChksumPseudo (p : List Payload) (proto : UInt8) (protoLen : UInt16) (src dest : UInt32) : Nat :=
  let acc := src.toNat % 65536 + src.toNat / 65536 % 65536 + dest.toNat % 65536 + dest.toNat / 65536 % 65536
  inetCksumPseudoBase p proto protoLen (foldU32T (foldU32T acc))

/-! ### The sum of one buffer -/

theorem square : 256 * 256 = 65535 + 1 := rfl
theorem largest : 0 < 65535 := by decide

def payloadBytes (p : List Payload) : List Byte := p.flatMap Payload.data

/-- The words of the data added up, as a 16-bit word. -/
def internetSum (data : List Byte) : Nat := wrap 65535 (pairSum 256 (octets data))

theorem internetSum_ofDigits (data : List Byte) : internetSum data = wrap 65535 (Nat.ofDigits 256 (octets data)) :=
  wrap_pairSum square largest _

/-- Two folds make a 32-bit sum a word. -/
theorem fold_fold (sum : Nat) (small : sum < 4294967296) : foldU32T (foldU32T sum) = wrap 65535 sum := by
  apply eq_wrap
  · unfold foldU32T
    omega
  · unfold foldU32T Nat.ModEq
    omega
  · unfold foldU32T
    omega

theorem fold_once (sum : Nat) (small : sum ≤ 131070) : foldU32T sum = wrap 65535 sum := by
  apply eq_wrap
  · unfold foldU32T
    omega
  · unfold foldU32T Nat.ModEq
    omega
  · unfold foldU32T
    omega

/-- To swap the bytes of a word is to multiply by 256. -/
theorem swap_wrap (sum : Nat) : swapBytesInWord (wrap 65535 sum) = wrap 65535 (256 * sum) := by
  have bound := wrap_le largest sum
  rw [← wrap_mul_wrap largest]
  generalize wrap 65535 sum = word at bound
  have split : 256 * word = swapBytesInWord word + 65535 * (word / 256) := by
    unfold swapBytesInWord
    omega
  apply eq_wrap
  · unfold swapBytesInWord
    omega
  · rw [split]
    simp [Nat.ModEq]
  · unfold swapBytesInWord
    omega

theorem chksumLoop_eq (sum : Nat) (data : List Byte) (room : sum + 65535 * data.length < 4294967296) :
    (chksumLoop sum data).1 + ((chksumLoop sum data).2.headD 0).toNat = sum + pairSum 256 (octets data) ∧
      (chksumLoop sum data).1 ≤ sum + 65535 * data.length := by
  match data with
  | [] => simp [chksumLoop,octets,pairSum]
  | [a] => simp [chksumLoop,octets,pairSum]
  | a :: b :: rest =>
    have byteA : a.toNat < 256 := UInt8.toNat_lt a
    have byteB : b.toNat < 256 := UInt8.toNat_lt b
    simp only [List.length_cons] at room
    have exact : (sum + (a.toNat + 256 * b.toNat)) % 4294967296 = sum + (a.toNat + 256 * b.toNat) :=
      Nat.mod_eq_of_lt (by omega)
    obtain ⟨total,bound⟩ := chksumLoop_eq (sum + (a.toNat + 256 * b.toNat)) rest (by omega)
    simp only [chksumLoop,exact,octets,List.map_cons,pairSum,List.length_cons] at total ⊢
    exact ⟨by omega,by omega⟩

/-- A sum that starts at an odd address has every byte in the other half of its word. -/
theorem internetSum_cons (first : Byte) (rest : List Byte) :
    internetSum (first :: rest) = wrap 65535 (256 * (pairSum 256 (octets rest) + 256 * first.toNat)) := by
  have later := pairSum_modEq square (octets rest)
  have empty := pairSum_eq_zero (by decide : 0 < 256) (octets rest)
  rw [internetSum_ofDigits]
  have digits : Nat.ofDigits 256 (octets (first :: rest)) = first.toNat + 256 * Nat.ofDigits 256 (octets rest) :=
    Nat.ofDigits_cons ..
  rw [digits]
  apply wrap_congr largest
  · calc first.toNat + 256 * Nat.ofDigits 256 (octets rest)
        ≡ first.toNat + 256 * pairSum 256 (octets rest) [MOD 65535] := (later.symm.mul_left 256).add_left _
      _ ≡ first.toNat + 256 * pairSum 256 (octets rest) + 65535 * first.toNat [MOD 65535] := by simp [Nat.ModEq]
      _ = 256 * (pairSum 256 (octets rest) + 256 * first.toNat) := by ring
  · omega

theorem lwipStandardChksum_eq (dataptr : Nat) (data : List Byte) (short : data.length < 65536) :
    lwipStandardChksum dataptr data = internetSum data := by
  have added : ∀ (rest : List Byte) (high : Nat), rest.length < 65536 → high < 256 →
      foldU32T (foldU32T (((chksumLoop 0 rest).1 + (((chksumLoop 0 rest).2.headD 0).toNat + 256 * high)) % 4294967296)) =
        wrap 65535 (pairSum 256 (octets rest) + 256 * high) := by
    intro rest high few byte
    obtain ⟨total,bound⟩ := chksumLoop_eq 0 rest (by omega)
    have least : ((chksumLoop 0 rest).2.headD 0).toNat < 256 := UInt8.toNat_lt _
    have sum : (chksumLoop 0 rest).1 + (((chksumLoop 0 rest).2.headD 0).toNat + 256 * high) =
        pairSum 256 (octets rest) + 256 * high := by omega
    have small : pairSum 256 (octets rest) + 256 * high < 4294967296 := by omega
    rw [sum,Nat.mod_eq_of_lt small,fold_fold _ small]
  unfold lwipStandardChksum
  by_cases odd : dataptr % 2 = 1
  · simp only [odd,if_true]
    cases data with
    | nil => rfl
    | cons first rest =>
      simp only [List.length_cons] at short
      simp only [List.headD_cons,List.tail_cons]
      rw [added rest first.toNat (by omega) (UInt8.toNat_lt first),swap_wrap,internetSum_cons]
  · simp only [odd,if_false]
    rw [added data 0 short (by decide)]
    exact Nat.mod_eq_of_lt (Nat.lt_succ_of_le (wrap_le largest _))

/-! ### The sum of a chain -/

/-- The value of the data as one number. -/
def numeral (data : List Byte) : Nat := Nat.ofDigits 256 (octets data)

/-- The sum in `acc` stands in the other half of its words after an odd number of bytes. -/
theorem chainLoop_eq (p : List Payload) (sum : Nat) (swapped : Bool) :
    chainLoop p (wrap 65535 sum) swapped =
      if (payloadBytes p).length % 2 = 0 then (wrap 65535 (sum + numeral (payloadBytes p)),swapped)
      else (wrap 65535 (256 * (sum + numeral (payloadBytes p))),!swapped) := by
  induction p generalizing sum swapped with
  | nil => simp [chainLoop,payloadBytes,numeral,octets]
  | cons q next ih =>
    have bound := wrap_le largest sum
    have other := wrap_le largest (numeral q.data)
    have added : foldU32T ((wrap 65535 sum + lwipStandardChksum q.address q.data) % 4294967296) =
        wrap 65535 (sum + numeral q.data) := by
      rw [lwipStandardChksum_eq q.address q.data q.short,internetSum_ofDigits]
      change foldU32T ((wrap 65535 sum + wrap 65535 (numeral q.data)) % 4294967296) = _
      rw [Nat.mod_eq_of_lt (by omega),fold_once _ (by omega),wrap_add_wrap largest,wrap_wrap_add largest]
    have whole : wrap 65535 (sum + numeral (payloadBytes (q :: next))) =
        wrap 65535 (sum + numeral q.data + 256^(q.data.length % 2) * numeral (payloadBytes next)) := by
      have joined := wrap_append square largest sum (octets q.data) (octets (payloadBytes next))
      rw [show (octets q.data).length = q.data.length by simp [octets]] at joined
      rw [numeral,octets,payloadBytes,List.flatMap_cons,List.map_append]
      exact joined
    have length : (payloadBytes (q :: next)).length = q.data.length + (payloadBytes next).length := by
      simp [payloadBytes]
    rw [chainLoop,added,← wrap_mul_wrap largest 256 (sum + numeral (payloadBytes (q :: next))),whole,length]
    generalize numeral (payloadBytes next) = later at ih
    generalize (payloadBytes next).length = count at ih
    rcases Nat.mod_two_eq_zero_or_one q.data.length with even | odd
    · have parity : (q.data.length + count) % 2 = count % 2 := by omega
      simp only [even,parity,ne_eq,not_true_eq_false,if_false,ih,pow_zero,one_mul,wrap_mul_wrap largest]
    · simp only [odd,ne_eq,one_ne_zero,not_false_eq_true,if_true,swap_wrap,ih,pow_one,wrap_mul_wrap largest]
      rcases Nat.mod_two_eq_zero_or_one count with even | odd'
      · have parity : (q.data.length + count) % 2 = 1 := by omega
        simp only [even,parity,if_true,one_ne_zero,if_false]
        rw [Nat.mul_add 256 _ (256 * later),wrap_add_square square largest]
      · have parity : (q.data.length + count) % 2 = 0 := by omega
        simp only [odd',parity,one_ne_zero,if_false,if_true,Bool.not_not]
        rw [Nat.mul_add 256 _ later,Nat.add_comm (256 * (256 * _)),wrap_add_square square largest,Nat.add_comm]

theorem chainSum_eq (p : List Payload) (sum : Nat) :
    chainSum p (wrap 65535 sum) = wrap 65535 (sum + numeral (payloadBytes p)) := by
  unfold chainSum
  rw [chainLoop_eq]
  by_cases even : (payloadBytes p).length % 2 = 0
  · simp only [if_pos even,Bool.false_eq_true,if_false]
  · simp only [if_neg even,Bool.not_false,if_true,swap_wrap]
    have cancelled := wrap_add_square square largest 0 (sum + numeral (payloadBytes p))
    rwa [Nat.zero_add,Nat.zero_add] at cancelled

/-- However the data is cut into pbufs and wherever they lie, the checksum is the complement of
the sum of its words. -/
theorem inetChksumPbuf_eq (p : List Payload) : inetChksumPbuf p = 65535 - internetSum (payloadBytes p) := by
  have summed := chainSum_eq p 0
  rw [wrap_zero,Nat.zero_add] at summed
  rw [inetChksumPbuf,summed,internetSum_ofDigits]
  have bound := wrap_le largest (numeral (payloadBytes p))
  rw [Nat.mod_eq_of_lt (by omega)]
  rfl

/-- A `u32_t` in memory. -/
def addressBytes (addr : UInt32) : List Byte :=
  [.ofNat addr.toNat,.ofNat (addr.toNat / 256),.ofNat (addr.toNat / 65536),.ofNat (addr.toNat / 16777216)]

/-- What TCP and UDP put before the data for their checksum, as it would stand in memory. -/
def pseudoHeader (proto : UInt8) (protoLen : UInt16) (src dest : UInt32) : List Byte :=
  addressBytes src ++ addressBytes dest ++ [0,proto,.ofNat (protoLen.toNat / 256),.ofNat protoLen.toNat]

theorem inetChksumPseudo_eq (p : List Payload) (proto : UInt8) (protoLen : UInt16) (src dest : UInt32) :
    inetChksumPseudo p proto protoLen src dest =
      65535 - internetSum (pseudoHeader proto protoLen src dest ++ payloadBytes p) := by
  have small : proto.toNat < 256 := UInt8.toNat_lt proto
  have len : protoLen.toNat < 65536 := UInt16.toNat_lt protoLen
  have addr : src.toNat < 4294967296 := UInt32.toNat_lt src
  have addr' : dest.toNat < 4294967296 := UInt32.toNat_lt dest
  have header : pairSum 256 (octets (pseudoHeader proto protoLen src dest ++ payloadBytes p)) =
      src.toNat % 65536 + src.toNat / 65536 % 65536 + dest.toNat % 65536 + dest.toNat / 65536 % 65536 +
        lwipHtons proto.toNat + lwipHtons protoLen.toNat + pairSum 256 (octets (payloadBytes p)) := by
    have halves : ∀ addr : Nat, addr < 4294967296 → addr % 256 + 256 * (addr / 256 % 256) = addr % 65536 ∧
        addr / 65536 % 256 + 256 * (addr / 16777216 % 256) = addr / 65536 % 65536 := by
      intro addr bound
      omega
    have low := halves src.toNat addr
    have low' := halves dest.toNat addr'
    have zero : UInt8.toNat 0 = 0 := rfl
    simp only [pseudoHeader,addressBytes,octets,List.cons_append,List.nil_append,List.map_cons,pairSum,UInt8.toNat_ofNat',
      lwipHtons,swapBytesInWord,zero,Nat.reducePow]
    omega
  have bound : src.toNat % 65536 + src.toNat / 65536 % 65536 + dest.toNat % 65536 + dest.toNat / 65536 % 65536 < 4294967296 := by
    omega
  have words : lwipHtons proto.toNat ≤ 65535 ∧ lwipHtons protoLen.toNat ≤ 65535 := by
    unfold lwipHtons swapBytesInWord
    omega
  unfold inetChksumPseudo inetCksumPseudoBase
  simp only
  generalize src.toNat % 65536 + src.toNat / 65536 % 65536 + dest.toNat % 65536 + dest.toNat / 65536 % 65536 = acc at *
  rw [fold_fold acc bound,chainSum_eq]
  have least := wrap_le largest (acc + numeral (payloadBytes p))
  have total : foldU32T (foldU32T ((wrap 65535 (acc + numeral (payloadBytes p)) + lwipHtons proto.toNat +
      lwipHtons protoLen.toNat) % 4294967296)) = internetSum (pseudoHeader proto protoLen src dest ++ payloadBytes p) := by
    rw [Nat.mod_eq_of_lt (by omega),fold_fold _ (by omega),internetSum,header,Nat.add_assoc,wrap_wrap_add largest,
      ← wrap_add_wrap largest _ (pairSum 256 _),wrap_pairSum square largest,wrap_add_wrap largest]
    congr 1
    change acc + numeral (payloadBytes p) + _ = _ + numeral (payloadBytes p)
    omega
  have word : internetSum (pseudoHeader proto protoLen src dest ++ payloadBytes p) ≤ 65535 := wrap_le largest _
  rw [total,Nat.mod_eq_of_lt (by omega)]

/-- Both checksums depend on the bytes alone: they are the complement of the sum of all words, the
pseudo header before the data, for every way to cut the data into pbufs of any length at odd
and even addresses. -/
theorem chain_checksums (p : List Payload) (proto : UInt8) (protoLen : UInt16) (src dest : UInt32) :
    inetChksumPbuf p = 65535 - wrap 65535 (pairSum 256 (octets (payloadBytes p))) ∧
      inetChksumPseudo p proto protoLen src dest =
        65535 - wrap 65535 (pairSum 256 (octets (pseudoHeader proto protoLen src dest ++ payloadBytes p))) :=
  ⟨inetChksumPbuf_eq p,inetChksumPseudo_eq p proto protoLen src dest⟩

end Swip.Core
