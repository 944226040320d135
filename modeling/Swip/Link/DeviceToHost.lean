import Swip.Device.Output
import Swip.Bridge.Recovery
import Swip.Bridge.Resolution

/-! The line from the device to the host: what `slipif_output` sends, `slipRecvWorker`
hands on, until something behind it raises. -/
namespace Swip.Link
open Library.Stuffing Library.Run Bridge Device

theorem recv_frame (handed : List (List Byte)) (packet : List Byte) (starts : StartsOrdinary packet) :
    slipRecvWorker openEthernet (.between false () handed) (frame slipCode packet) =
      .between false () (handed ++ [packet]) := by
  have order : frame slipCode packet = [slipEnd] ++ (body slipCode packet ++ [slipEnd]) := by
    simp [frame,slipCode]
  rw [order,slipRecvWorker_append,recv_end,recv_body openEthernet () handed packet starts,handOn_open]
  rfl

theorem recv_frames (handed : List (List Byte)) (packets : List (List Byte))
    (starts : ∀ packet ∈ packets, StartsOrdinary packet) :
    slipRecvWorker openEthernet (.between false () handed) (packets.flatMap (frame slipCode)) =
      .between false () (handed ++ packets) := by
  induction packets generalizing handed with
  | nil => simp [slipRecvWorker]
  | cons packet packets ih =>
    rw [List.flatMap_cons,slipRecvWorker_append,recv_frame handed packet (starts packet (by simp)),
      ih (handed ++ [packet]) (fun other member => starts other (by simp [member])),List.append_assoc]
    rfl

theorem output_frames (line : List Byte) (chains : List (List (List Byte))) :
    chains.foldl slipifOutput line = line ++ (chains.map List.flatten).flatMap (frame slipCode) := by
  induction chains generalizing line with
  | nil => simp
  | cons p chains ih => simp [ih,slipifOutput_frame]

section
variable {π δ ε : Type} (eth : Ethernet π δ ε)

/-- Every packet `slipif_output` sends reaches `IP` unaltered, once and in order, however its
payload is split into pbufs, exactly when `IP` and `send_packet_to_ethernet` raise on none of
them. Nothing before them raises, and what has been handed on is a first part in any case. -/
theorem deviceToHost (net : δ) (chains : List (List (List Byte)))
    (starts : ∀ chain ∈ chains, StartsOrdinary chain.flatten) :
    let worker := slipRecvWorker eth (.start net) (chains.foldl slipifOutput [])
    worker.raised ≠ some .slipProtocolError ∧
      worker.handed <+: chains.map List.flatten ∧ [] ∉ worker.handed ∧
      (worker.raised = none ∧ worker.handed = chains.map List.flatten ↔
        (eth.takeAll net (chains.map List.flatten)).isSome) := by
  intro worker
  have starts : ∀ packet ∈ chains.map List.flatten, StartsOrdinary packet := by
    intro packet member
    obtain ⟨chain,sent,rfl⟩ := List.mem_map.mp member
    exact starts chain sent
  have read : slipRecvWorker openEthernet (.start ()) (chains.foldl slipifOutput []) =
      .between false () (chains.map List.flatten) := by
    rw [output_frames,List.nil_append]
    exact recv_frames [] (chains.map List.flatten) starts
  have follows := slipRecvWorker_follows eth net (chains.foldl slipifOutput [])
  rw [read] at follows
  obtain ⟨clean,order,complete,running⟩ := follows.outcome rfl
  have nonempty : [] ∉ worker.handed := by
    intro member
    obtain ⟨first,head,_⟩ := starts [] (order.subset member)
    simp at head
  refine ⟨clean,order,nonempty,?_⟩
  constructor
  · intro whole
    exact running.mp whole.1
  · intro taken
    exact ⟨running.mpr taken,complete (running.mpr taken)⟩

/-- The worker survives noise and hands on the frame that follows it exactly when the noise
leaves no escape open across an ordinary byte or its own end, and nothing downstream raises on
a packet of the noise or on the one that was sent. -/
theorem noise_recovered (net : δ) (noise : List Byte) (chain : List (List Byte)) (ipv4 : IsIPv4 chain.flatten) :
    let worker := slipRecvWorker eth (.start net) (noise ++ slipifOutput [] chain)
    (worker.raised = none ∧ worker.handed.getLast? = some chain.flatten) ↔
      Resolved noise ∧ (eth.takeAll net (noisePackets noise ++ [chain.flatten])).isSome := by
  intro worker
  let twin := slipRecvWorker openEthernet (.start ()) (noise ++ slipifOutput [] chain)
  have outcome := recv_noise false [] noise chain.flatten (ipv4_starts _ ipv4)
  have same : slipRecvWorker openEthernet (.between false () []) (noise ++ frame slipCode chain.flatten) = twin := by
    simp only [twin,slipifOutput_frame,List.nil_append]
    rfl
  have follows : worker.Follows eth net twin := slipRecvWorker_follows eth net (noise ++ slipifOutput [] chain)
  rw [← (escapeAfter_resolved noise).1]
  simp only [same] at outcome
  split_ifs at outcome with resolved
  · have read : twin.handed = noisePackets noise ++ [chain.flatten] := by
      rw [outcome]
      rfl
    obtain ⟨_,_,complete,running⟩ := follows.outcome (by rw [outcome]; rfl)
    rw [read] at complete running
    rw [← running]
    constructor
    · intro recovered
      exact ⟨resolved,recovered.1⟩
    · intro none
      exact ⟨none.2,by simp [complete none.2]⟩
  · have stopped : worker.raised ≠ none := by
      cases follows with
      | stopped _ error raised _ => simp [raised]
      | same _ alike =>
        rcases alike.raised with ⟨_,running⟩ | ⟨raised,_⟩
        · exact absurd (outcome.symm.trans running) (by simp)
        · simp [raised]
    constructor
    · intro recovered
      exact absurd recovered.1 stopped
    · intro condition
      exact absurd condition.1 resolved

end

/-- The twenty bytes of an IPv4 header from host 2 of the network to `host`, with an escape in
every frame. -/
def datagram (id host : Byte) : List Byte :=
  [0x45,0x00,0x00,20,0xDB,id,0x00,0x00,0x40,0x06,0x00,0x00,192,168,43,2,192,168,43,host]

theorem datagram_ipv4 (id host : Byte) : IsIPv4 (datagram id host) := ⟨0x45,rfl,by decide⟩

/-- Host 8 answers, whatever the bridge has learned so far. -/
theorem datagram_taken (id : Byte) (lan : Lan (List Byte)) : ((lanEthernet oneAnswer).take lan (datagram id 8)).isSome := by
  have host : oneAnswer.dst (datagram id 8) = dotted 192 168 43 8 := rfl
  have answered : (resolved oneAnswer (datagram id 8)).isSome := by
    rw [resolved,host]
    decide
  exact take_answered oneAnswer lan (datagram id 8) (datagram id 8) rfl answered

/-- A cut-off escape pair, a whole frame and an escape that the next END does not close. -/
theorem noise_recovered_pair :
    (slipRecvWorker (lanEthernet oneAnswer) (.start .start)
      ([0xDB,0xDD,0xC0] ++ frame slipCode (datagram 1 8) ++ [0xDB,0xC0,0xDC] ++
        slipifOutput [] [[0x45],[],(datagram 2 8).tail])).handed.getLast? = some (datagram 2 8) :=
  ((noise_recovered (lanEthernet oneAnswer) .start ([0xDB,0xDD,0xC0] ++ frame slipCode (datagram 1 8) ++ [0xDB,0xC0,0xDC])
    [[0x45],[],(datagram 2 8).tail] (datagram_ipv4 2 8)).mpr
      ⟨(escapeAfter_resolved _).1.mp (by decide +kernel),by decide +kernel⟩).2

/-- A cut-off escape before the frame: its leading END does not close the escape, and the
first byte of the packet raises. -/
theorem noise_stops :
    IsIPv4 (0x45 :: List.replicate 19 0x00) ∧
      (slipRecvWorker openEthernet (.start ()) ([0xDB] ++ slipifOutput [] [0x45 :: List.replicate 19 0x00])).raised =
        some .slipProtocolError ∧
      (slipRecvWorker openEthernet (.start ()) ([0xDB] ++ slipifOutput [] [0x45 :: List.replicate 19 0x00])).handed =
        [] :=
  ⟨⟨0x45,rfl,by decide⟩,by decide +kernel,by decide +kernel⟩

theorem deviceToHost_split :
    let chains := [[[0x45],[],(datagram 1 8).tail],[datagram 2 8,[]],[(datagram 3 8).take 5,(datagram 3 8).drop 5]]
    (slipRecvWorker (lanEthernet oneAnswer) (.start .start) (chains.foldl slipifOutput [])).raised = none ∧
      (slipRecvWorker (lanEthernet oneAnswer) (.start .start) (chains.foldl slipifOutput [])).handed =
        [datagram 1 8,datagram 2 8,datagram 3 8] := by
  intro chains
  have starts : ∀ chain ∈ chains, StartsOrdinary chain.flatten := by
    intro chain member
    simp only [chains,List.mem_cons,List.not_mem_nil,or_false] at member
    rcases member with rfl | rfl | rfl <;> exact ⟨0x45,rfl,by decide⟩
  exact (deviceToHost (lanEthernet oneAnswer) .start chains starts).2.2.2.mpr (by decide +kernel)

/-- Host 7 answers no ARP request: `get_mac` raises, nothing catches it, and the packet for
host 8 is never handed on. -/
theorem deviceToHost_stops :
    let chains := [[datagram 1 7],[datagram 2 8]]
    (∀ chain ∈ chains, StartsOrdinary chain.flatten) ∧
      (slipRecvWorker (lanEthernet oneAnswer) (.start .start) (chains.foldl slipifOutput [])).raised =
        some (.downstream (.failedToFind (dotted 192 168 43 7))) ∧
      (slipRecvWorker (lanEthernet oneAnswer) (.start .start) (chains.foldl slipifOutput [])).handed = [datagram 1 7] ∧
      [datagram 1 7] ≠ chains.map List.flatten := by
  refine ⟨?_,by decide +kernel,by decide +kernel,by decide⟩
  intro chain member
  simp only [List.mem_cons,List.not_mem_nil,or_false] at member
  rcases member with rfl | rfl <;> exact ⟨0x45,rfl,by decide⟩

end Swip.Link
