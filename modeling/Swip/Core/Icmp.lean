import Swip.Core.Integrity

/-! The answer to a ping, `icmp_input` of `icmp.c`. The checksum of the message is not computed
again but adjusted for the changed type. The SLIP interface has no broadcast address of its
own. -/
namespace Swip.Core
open Library.OnesComplement

def ipHlen : Nat := 20
def icmpEr : Byte := 0
def icmpEcho : Byte := 8
def icmpTtl : Byte := 255
def sizeofStructIcmpEchoHdr : Nat := 8

/-- The place of the header in memory, and its bytes. -/
structure IpHeader where
  address : Nat
  data : List Byte

def IpHeader.hlen (iphdr : IpHeader) : Nat := (iphdr.data.headD 0).toNat % 16 * 4
def IpHeader.src (iphdr : IpHeader) : List Byte := (iphdr.data.drop 12).take 4
def IpHeader.dest (iphdr : IpHeader) : List Byte := (iphdr.data.drop 16).take 4

def ip4AddrIsmulticast (addr : List Byte) : Bool := (addr.headD 0).toNat / 16 = 14

def ip4AddrIsbroadcast (addr : List Byte) : Bool := addr = [255,255,255,255] ∨ addr = [0,0,0,0]

/-- `htons(0xffff - (ICMP_ECHO << 8))` is 0xFFF7 and `htons(ICMP_ECHO << 8)` is 8. -/
def adjustChksum (chksum : Nat) : Nat := if chksum > 65527 then (chksum + 8 + 1) % 65536 else (chksum + 8) % 65536

def echoMessage : List Byte → List Byte
  | _ :: code :: low :: high :: rest => icmpEr :: code :: (wordBytes (adjustChksum (low.toNat + 256 * high.toNat)) ++ rest)
  | short => short

/-- The header of the answer with `chksum` filled in. -/
def echoHeader (iphdr : IpHeader) (chksum : Nat) : List Byte :=
  iphdr.data.take 8 ++ [icmpTtl,iphdr.data.getD 9 0] ++ (wordBytes chksum ++
    (iphdr.dest ++ iphdr.src ++ (iphdr.data.drop ipHlen).take (iphdr.hlen - ipHlen)))

/-- The header and the message that are given to `ip4_output_if`. `moved` tells whether the pbuf
has room for the headers of the link; if not, the message is copied to a new one, which
is `allocated` or not. -/
def icmpInput (iphdr : IpHeader) (p : List Payload) (moved allocated : Bool) : Option (List Byte × List Byte) :=
  if iphdr.hlen < ipHlen then none
  else match p with
    | [] => none
    | first :: next =>
      if first.data.length < 4 then none
      else if first.data.headD 0 = icmpEcho then
        if ip4AddrIsmulticast iphdr.dest then none
        else if ip4AddrIsbroadcast iphdr.dest then none
        else if (payloadBytes (first :: next)).length < sizeofStructIcmpEchoHdr then none
        else if inetChksumPbuf (first :: next) ≠ 0 then none
        else if ¬ moved ∧ ¬ allocated then none
        else some (echoHeader iphdr (inetChksum iphdr.address (echoHeader iphdr 0)),echoMessage (payloadBytes (first :: next)))
      else none

/-! ### The answer is accepted -/

theorem internetSum_full_iff (data : List Byte) :
    internetSum data = 65535 ↔ pairSum 256 (octets data) ≠ 0 ∧ 65535 ∣ pairSum 256 (octets data) := wrap_full_iff largest _

/-- The adjusted checksum is never zero, so that even an answer of zeros has a full sum. -/
theorem echoMessage_full (code low high : Byte) (rest : List Byte)
    (full : internetSum (icmpEcho :: code :: low :: high :: rest) = 65535) :
    internetSum (echoMessage (icmpEcho :: code :: low :: high :: rest)) = 65535 := by
  have byte : low.toNat < 256 := UInt8.toNat_lt low
  have byte' : high.toNat < 256 := UInt8.toNat_lt high
  have echo : UInt8.toNat icmpEcho = 8 := rfl
  have reply : UInt8.toNat icmpEr = 0 := rfl
  rw [internetSum_full_iff] at full ⊢
  simp only [echoMessage,wordBytes,octets,List.cons_append,List.nil_append,List.map_cons,pairSum,echo,reply,UInt8.toNat_ofNat',
    Nat.reducePow] at full ⊢
  unfold adjustChksum
  generalize pairSum 256 (List.map UInt8.toNat rest) = sum at full ⊢
  split <;> omega

theorem echoHeader_full (iphdr : IpHeader) (enough : iphdr.hlen ≤ iphdr.data.length) (some : ipHlen ≤ iphdr.hlen)
    (address : Nat) :
    internetSum (echoHeader iphdr (inetChksum address (echoHeader iphdr 0))) = 65535 := by
  have most : iphdr.hlen ≤ 60 := by
    unfold IpHeader.hlen
    omega
  unfold ipHlen at some
  have blank : echoHeader iphdr 0 = iphdr.data.take 8 ++ [icmpTtl,iphdr.data.getD 9 0] ++ (0 :: 0 ::
      (iphdr.dest ++ iphdr.src ++ (iphdr.data.drop ipHlen).take (iphdr.hlen - ipHlen))) := rfl
  have short : (echoHeader iphdr 0).length < 65536 := by
    rw [blank]
    simp only [IpHeader.dest,IpHeader.src,List.length_append,List.length_cons,List.length_nil,List.length_take,List.length_drop]
    omega
  rw [inetChksum,lwipStandardChksum_eq address _ short,blank]
  apply internetSum_filled
  rw [List.length_append,List.length_take,Nat.min_eq_left (by omega),List.length_cons,List.length_singleton]

theorem echoHeader_length (iphdr : IpHeader) (chksum : Nat) (enough : iphdr.hlen ≤ iphdr.data.length) (some : ipHlen ≤ iphdr.hlen) :
    (echoHeader iphdr chksum).length = iphdr.hlen := by
  unfold ipHlen at some
  simp only [echoHeader,wordBytes,IpHeader.dest,IpHeader.src,ipHlen,List.length_append,List.length_cons,List.length_nil,
    List.length_take,List.length_drop]
  omega

theorem echoHeader_addresses (iphdr : IpHeader) (chksum : Nat) (enough : 20 ≤ iphdr.data.length) :
    (⟨0,echoHeader iphdr chksum⟩ : IpHeader).src = iphdr.dest ∧ (⟨0,echoHeader iphdr chksum⟩ : IpHeader).dest = iphdr.src := by
  have four : iphdr.dest.length = 4 ∧ iphdr.src.length = 4 := by
    simp only [IpHeader.dest,IpHeader.src,List.length_take,List.length_drop]
    omega
  have twelve : (iphdr.data.take 8 ++ [icmpTtl,iphdr.data.getD 9 0] ++ wordBytes chksum).length = 12 := by
    simp only [wordBytes,List.length_append,List.length_cons,List.length_nil,List.length_take]
    omega
  have behind : (echoHeader iphdr chksum).drop 12 =
      iphdr.dest ++ (iphdr.src ++ (iphdr.data.drop ipHlen).take (iphdr.hlen - ipHlen)) := by
    rw [echoHeader,← List.append_assoc,List.drop_left' twelve,List.append_assoc]
  refine ⟨?_,?_⟩
  · rw [IpHeader.src,behind,List.take_left' four.1]
  · rw [IpHeader.dest,show 16 = 12 + 4 from rfl,← List.drop_drop,behind,List.drop_left' four.1,List.take_left' four.2]

theorem icmpInput_some (iphdr : IpHeader) (p : List Payload) (moved allocated : Bool) (header message : List Byte)
    (answered : icmpInput iphdr p moved allocated = some (header,message)) :
    ipHlen ≤ iphdr.hlen ∧ inetChksumPbuf p = 0 ∧
      header = echoHeader iphdr (inetChksum iphdr.address (echoHeader iphdr 0)) ∧ message = echoMessage (payloadBytes p) ∧
      ∃ code low high rest, payloadBytes p = icmpEcho :: code :: low :: high :: rest := by
  unfold icmpInput at answered
  cases p with
  | nil => simp at answered
  | cons first next =>
    dsimp only at answered
    split_ifs at answered with short few echo multicast broadcast less wrong room
    obtain ⟨rfl,rfl⟩ := Prod.mk.inj (Option.some.inj answered)
    refine ⟨Nat.not_lt.mp short,not_not.mp wrong,rfl,rfl,?_⟩
    match shape : first.data with
    | [] | [_] | [_,_] | [_,_,_] => exact absurd (by rw [shape]; exact of_decide_eq_true rfl) few
    | type :: code :: low :: high :: rest =>
      rw [shape] at echo
      exact ⟨code,low,high,rest ++ payloadBytes next,by simp [payloadBytes,shape,← echo]⟩

/-- Every ping that is answered is answered with correct checksums, with the data it came with,
and to where it came from. -/
theorem echo_answered (iphdr : IpHeader) (enough : iphdr.hlen ≤ iphdr.data.length) (p : List Payload) (moved allocated : Bool)
    (header message : List Byte) (answered : icmpInput iphdr p moved allocated = some (header,message)) :
    (∀ address, inetChksum address header = 0) ∧ (∀ q, payloadBytes q = message → inetChksumPbuf q = 0) ∧
      message.drop 4 = (payloadBytes p).drop 4 ∧ message.head? = some icmpEr ∧
      (⟨0,header⟩ : IpHeader).src = iphdr.dest ∧ (⟨0,header⟩ : IpHeader).dest = iphdr.src := by
  obtain ⟨long,correct,rfl,rfl,code,low,high,rest,shape⟩ := icmpInput_some iphdr p moved allocated header message answered
  have most : iphdr.hlen ≤ 60 := by
    unfold IpHeader.hlen
    omega
  have full : internetSum (payloadBytes p) = 65535 := by
    have bound := internetSum_le (payloadBytes p)
    rw [inetChksumPbuf_eq] at correct
    omega
  rw [shape] at full ⊢
  refine ⟨?_,?_,rfl,rfl,echoHeader_addresses iphdr _ (by unfold ipHlen at long; omega)⟩
  · intro address
    rw [inetChksum,lwipStandardChksum_eq _ _ (by rw [echoHeader_length _ _ enough long]; omega),
      echoHeader_full iphdr enough long]
  · intro q same
    rw [inetChksumPbuf_eq,same,echoMessage_full code low high rest full]

def pingHeader : IpHeader := ⟨4096,[69,0,0,31,0,1,0,0,64,1,102,219,10,0,0,1,10,0,0,2]⟩

/-- A ping of three bytes that comes in two pbufs; its checksum is so large that the adjustment
carries. -/
theorem echo_answered_carry :
    inetChksum 4096 [69,0,0,31,0,1,0,0,255,1,167,218,10,0,0,2,10,0,0,1] = 0 ∧
      inetChksumPbuf [.of 4117 [0,0,7,0,0,1,0,0,247,254,1]] = 0 := by
  have answered : icmpInput pingHeader [.of 4116 [8,0,254,255,0,1],.of 4201 [0,0,247,254,1]] true true =
      some ([69,0,0,31,0,1,0,0,255,1,167,218,10,0,0,2,10,0,0,1],[0,0,7,0,0,1,0,0,247,254,1]) := by decide +kernel
  obtain ⟨header,message,_⟩ := echo_answered pingHeader (by decide) _ true true _ _ answered
  exact ⟨header 4096,message _ rfl⟩

end Swip.Core
