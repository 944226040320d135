import Swip.Bridge.Slip

/-! `send_packet_to_uart` of `bridge.py`: the frame of a sniffed packet goes to the serial
port in slices of `SEND_FRAG_SIZE` bytes, one `port.write` each. -/
namespace Swip.Bridge
open Slip

def sendFragSize : Nat := 20
def sendFragmentize : Bool := true

/-- `[p_slip[i:i+SEND_FRAG_SIZE] for i in range(0, len(p_slip), SEND_FRAG_SIZE)]` -/
def fragments (pSlip : List Byte) : List (List Byte) :=
  (List.range ((pSlip.length + sendFragSize - 1) / sendFragSize)).map fun k =>
    (pSlip.drop (k * sendFragSize)).take sendFragSize

/-- The list of all writes so far, and the sniffed packet's IP layer if it has one. -/
def sendPacketToUart (writes : List (List Byte)) : Option (List Byte) → List (List Byte)
  | none => writes
  | some p =>
    let pSlip := encode p
    if sendFragmentize then writes ++ fragments pSlip else writes ++ [pSlip]

theorem fragments_short (pSlip : List Byte) : ∀ f ∈ fragments pSlip, f.length ≤ sendFragSize := by
  intro f member
  obtain ⟨k,_,rfl⟩ := List.mem_map.mp member
  exact List.length_take_le _ _

private theorem slices_joined (pSlip : List Byte) (count : Nat) :
    ((List.range count).map fun k => (pSlip.drop (k * sendFragSize)).take sendFragSize).flatten =
      pSlip.take (count * sendFragSize) := by
  induction count with
  | zero => simp
  | succ count ih =>
    rw [List.range_succ,List.map_append,List.flatten_append,ih,Nat.succ_mul,List.take_add]
    simp

theorem fragments_joined (pSlip : List Byte) : (fragments pSlip).flatten = pSlip := by
  rw [fragments,slices_joined]
  apply List.take_of_length_le
  unfold sendFragSize
  omega

def sendPackets (packets : List (List Byte)) : List (List Byte) :=
  (packets.map some).foldl sendPacketToUart []

private theorem writes_joined (writes : List (List Byte)) (packets : List (List Byte)) :
    ((packets.map some).foldl sendPacketToUart writes).flatten = writes.flatten ++ packets.flatMap encode := by
  induction packets generalizing writes with
  | nil => simp
  | cons p packets ih => simp [ih,sendPacketToUart,sendFragmentize,fragments_joined]

theorem sendPackets_joined (packets : List (List Byte)) : (sendPackets packets).flatten = packets.flatMap encode :=
  writes_joined [] packets

private theorem writes_short (writes : List (List Byte)) (packets : List (List Byte))
    (short : ∀ f ∈ writes, f.length ≤ sendFragSize) :
    ∀ f ∈ (packets.map some).foldl sendPacketToUart writes, f.length ≤ sendFragSize := by
  induction packets generalizing writes with
  | nil => exact short
  | cons p packets ih =>
    apply ih
    intro f member
    simp only [sendPacketToUart,sendFragmentize,if_true,List.mem_append] at member
    exact member.elim (short f) (fragments_short (encode p) f)

theorem sendPackets_short (packets : List (List Byte)) : ∀ f ∈ sendPackets packets, f.length ≤ sendFragSize :=
  writes_short [] packets (by simp)

end Swip.Bridge
