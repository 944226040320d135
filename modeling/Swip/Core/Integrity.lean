import Swip.Core.Chksum

/-! What the checksum is good for: a packet that carries its own checksum is accepted, however the
receiver's pbufs are cut, and damage to a byte or to two bytes next to each other is found. -/
namespace Swip.Core
open Library.OnesComplement

/-- A `u16_t` in memory. -/
def wordBytes (word : Nat) : List Byte := [.ofNat word,.ofNat (word / 256)]

/-- Two bytes in the place `word` has in the sum. -/
def wordAt (front : List Byte) (a b : Byte) : Nat :=
  if front.length % 2 = 0 then a.toNat + 256 * b.toNat else b.toNat + 256 * a.toNat

theorem octets_append (front back : List Byte) : octets (front ++ back) = octets front ++ octets back := List.map_append

theorem octets_length (data : List Byte) : (octets data).length = data.length := List.length_map _

theorem internetSum_le (data : List Byte) : internetSum data ≤ 65535 := wrap_le largest _

/-- The two bytes are added to the sum of the others. -/
theorem internetSum_word (front after : List Byte) (a b : Byte) :
    internetSum (front ++ a :: b :: after) = wrap 65535 (internetSum (front ++ 0 :: 0 :: after) + wordAt front a b) := by
  have shape : ∀ x y : Byte, internetSum (front ++ x :: y :: after) = wrap 65535 (numeral front +
      256^(front.length % 2) * (x.toNat + 256 * y.toNat + 256 * (256 * numeral after))) := by
    intro x y
    have joined := wrap_append square largest 0 (octets front) (octets (x :: y :: after))
    rw [octets_length] at joined
    rw [internetSum_ofDigits,octets_append,← Nat.zero_add (Nat.ofDigits _ _),joined,Nat.zero_add]
    have digits : Nat.ofDigits 256 (octets (x :: y :: after)) = x.toNat + 256 * (y.toNat + 256 * numeral after) := by
      rw [octets,List.map_cons,List.map_cons,Nat.ofDigits_cons,Nat.ofDigits_cons]
      rfl
    rw [digits]
    congr 2
    ring
  have zero : UInt8.toNat 0 = 0 := rfl
  rw [shape,shape,wrap_wrap_add largest,zero,wordAt]
  rcases Nat.mod_two_eq_zero_or_one front.length with even | odd
  · rw [even,if_pos rfl]
    congr 1
    ring
  · rw [odd,if_neg (by decide)]
    have split : numeral front + 256^1 * (a.toNat + 256 * b.toNat + 256 * (256 * numeral after)) =
        numeral front + 256^1 * (0 + 256 * 0 + 256 * (256 * numeral after)) + 256 * a.toNat + 256 * (256 * b.toNat) := by ring
    rw [split,wrap_add_square square largest]
    congr 1
    ring

theorem wordAt_even (front : List Byte) (even : front.length % 2 = 0) (word : Nat) (small : word < 65536) :
    wordAt front (.ofNat word) (.ofNat (word / 256)) = word := by
  rw [wordAt,if_pos even]
  simp only [UInt8.toNat_ofNat',Nat.reducePow]
  omega

/-- The filled in checksum makes the sum full. -/
theorem internetSum_filled (front after : List Byte) (even : front.length % 2 = 0) :
    internetSum (front ++ (wordBytes (65535 - internetSum (front ++ 0 :: 0 :: after)) ++ after)) = 65535 := by
  have bound := internetSum_le (front ++ 0 :: 0 :: after)
  have full := wrap_complement largest (internetSum (front ++ 0 :: 0 :: after))
  rw [wrap_of_le bound] at full
  have shape := internetSum_word front after (.ofNat (65535 - internetSum (front ++ 0 :: 0 :: after)))
    (.ofNat ((65535 - internetSum (front ++ 0 :: 0 :: after)) / 256))
  rw [wordAt_even front even _ (by omega),full] at shape
  exact shape

theorem pseudoHeader_even (proto : UInt8) (protoLen : UInt16) (src dest : UInt32) (front : List Byte)
    (even : front.length % 2 = 0) : (pseudoHeader proto protoLen src dest ++ front).length % 2 = 0 := by
  have twelve : (pseudoHeader proto protoLen src dest).length = 12 := rfl
  rw [List.length_append,twelve]
  omega

/-- TCP and UDP compute the checksum with its own field zero and store it there. The receiver, who
computes it over everything, gets zero: for every way in which sender and receiver cut the
packet into pbufs, at odd and even addresses. -/
theorem checksum_accepted (p q : List Payload) (proto : UInt8) (protoLen : UInt16) (src dest : UInt32) (front after : List Byte)
    (even : front.length % 2 = 0) (blank : payloadBytes p = front ++ 0 :: 0 :: after)
    (filled : payloadBytes q = front ++ (wordBytes (inetChksumPseudo p proto protoLen src dest) ++ after)) :
    inetChksumPseudo q proto protoLen src dest = 0 := by
  have full := internetSum_filled (pseudoHeader proto protoLen src dest ++ front) after
    (pseudoHeader_even proto protoLen src dest front even)
  simp only [List.append_assoc] at full
  rw [inetChksumPseudo_eq p,blank] at filled
  rw [inetChksumPseudo_eq q,filled,full]

theorem take_short (data : List Byte) : (data.take 65535).length < 65536 := by
  rw [List.length_take]
  omega

def Payload.of (address : Nat) (data : List Byte) : Payload := ⟨address,data.take 65535,take_short data⟩

/-- The sender has the first byte in a pbuf of its own, at an odd address. -/
theorem checksum_accepted_cut :
    inetChksumPseudo [.of 4096 [1,2,244,222,7]] 6 5 167772161 167772162 = 0 :=
  checksum_accepted [.of 4097 [1],.of 4100 [2,0,0,7]] [.of 4096 [1,2,244,222,7]] 6 5 167772161 167772162 [1,2] [7] rfl rfl
    (by decide +kernel)

theorem wordAt_le (front : List Byte) (a b : Byte) : wordAt front a b ≤ 65535 := by
  have one : a.toNat < 256 := UInt8.toNat_lt a
  have two : b.toNat < 256 := UInt8.toNat_lt b
  unfold wordAt
  split <;> omega

/-- Two bytes in a full sum cannot be replaced, but for zeros and ones. -/
theorem word_replaced (front after : List Byte) (a b a' b' : Byte) (before : internetSum (front ++ a :: b :: after) = 65535)
    (now : internetSum (front ++ a' :: b' :: after) = 65535) :
    a = a' ∧ b = b' ∨ a = 0 ∧ b = 0 ∧ a' = 255 ∧ b' = 255 ∨ a = 255 ∧ b = 255 ∧ a' = 0 ∧ b' = 0 := by
  rw [internetSum_word,wrap_full_iff largest] at before now
  have bound := wordAt_le front a b
  have bound' := wordAt_le front a' b'
  have words : wordAt front a b = wordAt front a' b' ∨ wordAt front a b = 0 ∧ wordAt front a' b' = 65535 ∨
      wordAt front a b = 65535 ∧ wordAt front a' b' = 0 := by
    have one := before.2
    have two := now.2
    omega
  have byteA : a.toNat < 256 := UInt8.toNat_lt a
  have byteB : b.toNat < 256 := UInt8.toNat_lt b
  have byteA' : a'.toNat < 256 := UInt8.toNat_lt a'
  have byteB' : b'.toNat < 256 := UInt8.toNat_lt b'
  simp only [← UInt8.toNat_inj,show UInt8.toNat 0 = 0 from rfl,show UInt8.toNat 255 = 255 from rfl]
  unfold wordAt at words
  split at words <;> omega

/-- A packet that was sent with a correct checksum and is damaged in two bytes next to each other
is not accepted, unless the damage turns 00 00 into FF FF or back. -/
theorem damage_found (p q : List Payload) (proto : UInt8) (protoLen : UInt16) (src dest : UInt32) (front after : List Byte)
    (a b a' b' : Byte) (sent : payloadBytes p = front ++ a :: b :: after) (arrived : payloadBytes q = front ++ a' :: b' :: after)
    (correct : inetChksumPseudo p proto protoLen src dest = 0) (damaged : ¬ (a = a' ∧ b = b'))
    (zeros : ¬ (a = 0 ∧ b = 0 ∧ a' = 255 ∧ b' = 255)) (ones : ¬ (a = 255 ∧ b = 255 ∧ a' = 0 ∧ b' = 0)) :
    inetChksumPseudo q proto protoLen src dest ≠ 0 := by
  intro accepted
  rw [inetChksumPseudo_eq,sent,← List.append_assoc] at correct
  rw [inetChksumPseudo_eq,arrived,← List.append_assoc] at accepted
  have full := internetSum_le (pseudoHeader proto protoLen src dest ++ front ++ a :: b :: after)
  have full' := internetSum_le (pseudoHeader proto protoLen src dest ++ front ++ a' :: b' :: after)
  obtain same | zero | one := word_replaced (pseudoHeader proto protoLen src dest ++ front) after a b a' b' (by omega) (by omega)
  · exact damaged same
  · exact zeros zero
  · exact ones one

theorem damage_found_cut : inetChksumPseudo [.of 4096 [1,2],.of 4099 [244,223,7]] 6 5 167772161 167772162 ≠ 0 :=
  damage_found [.of 4096 [1,2,244,222,7]] [.of 4096 [1,2],.of 4099 [244,223,7]] 6 5 167772161 167772162 [1,2,244] [] 222 7 223 7 rfl
    rfl (by decide +kernel) (by decide) (by decide) (by decide)

end Swip.Core
