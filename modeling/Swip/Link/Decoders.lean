import Swip.Link.DeviceToHost
import Swip.Device.Poll

/-! Two decoders for one code. `slipRecvWorker` and `slipif_rxbyte` both make the packets of
`packetsOf` out of a stream whose escapes are paired; the first one ends where something
behind it raises. -/
namespace Swip.Link
open Library.Stuffing Library.Run Bridge Device

def Framed (stream : List Byte) : Prop :=
  ∀ stretch ∈ stretches slipCode [] stream, stretch ≠ [] →
    (unstuff slipCode stretch).length ≤ slipMaxSize ∧ Marked stretch

instance (stream : List Byte) : Decidable (Framed stream) :=
  inferInstanceAs (Decidable (∀ stretch ∈ stretches slipCode [] stream, _))

theorem framed_closed (stretch rest : List Byte) (inside : slipEnd ∉ stretch)
    (framed : Framed (stretch ++ slipEnd :: rest)) : (stretch ≠ [] → Marked stretch) ∧ Framed rest := by
  have split : stretches slipCode [] (stretch ++ slipEnd :: rest) = stretch :: stretches slipCode [] rest :=
    stretches_closed slipCode [] stretch rest inside
  rw [Framed,split] at framed
  exact ⟨fun nonempty => (framed stretch (by simp) nonempty).2,
    fun other member => framed other (by simp [member])⟩

section
variable {π δ ε : Type} (eth : Ethernet π δ ε)

/-- Whether the last packet is taken does not matter for those before it. -/
theorem takeAll_dropLast (net : δ) (x : List Byte) (rest : List (List Byte)) :
    (eth.takeAll net (x :: rest).dropLast).isSome ↔
      rest = [] ∨ ∃ next, eth.take net x = some next ∧ (eth.takeAll next rest.dropLast).isSome := by
  cases rest with
  | nil => simp [Ethernet.takeAll]
  | cons y rest =>
    rw [List.dropLast_cons_cons,takeAll_cons]
    cases eth.take net x <;> simp

/-- The packets a worker hands on, and that it hands on all of them exactly when nothing raises
on one that has a successor. -/
theorem recv_stream (net : δ) (handed : List (List Byte)) (stream : List Byte) (paired : Paired slipCode stream)
    (framed : Framed stream) :
    (slipRecvWorker eth (.between false net handed) stream).raised ≠ some .slipProtocolError ∧
      ∃ got, (slipRecvWorker eth (.between false net handed) stream).handed = handed ++ got ∧
        got <+: packetsOf slipCode stream ∧
        (got = packetsOf slipCode stream ↔ (eth.takeAll net (packetsOf slipCode stream).dropLast).isSome) := by
  induction stream using stream_induction slipCode generalizing net handed with
  | tail stretch inside =>
    rw [recv_stretch eth _ stretch inside rfl,packetsOf_open slipCode stretch inside]
    exact ⟨by simp [Worker.between],[],by simp [Worker.between],by simp,by simp [Ethernet.takeAll]⟩
  | closed stretch rest inside ih =>
    obtain ⟨marked,others⟩ := framed_closed stretch rest inside framed
    have before := paired_closed slipCode stretch rest paired
    have after := (paired_append slipCode stretch _ paired).2
    have order : stretch ++ slipCode.fin :: rest = (stretch ++ [slipEnd]) ++ rest := by simp [slipCode]
    rw [packetsOf_closed slipCode stretch rest inside,order,slipRecvWorker_append,
      recv_paired eth net handed stretch inside before]
    by_cases empty : stretch = []
    · have unmarked : ¬ Marked stretch := by simp [empty,Marked]
      rw [if_neg unmarked,if_pos empty,List.nil_append]
      exact ih net handed after others
    rw [if_pos (marked empty),if_neg empty,List.singleton_append,takeAll_dropLast]
    have single := handOn_single eth (.between false net handed) (unstuff slipCode stretch) rfl
    rcases handOn_cases eth (.between false net handed) [unstuff slipCode stretch] rfl with
      ⟨⟨error,raised⟩,_,refused⟩ | ⟨next,taken,passed⟩
    · have refused : eth.take net (unstuff slipCode stretch) = none := by
        simpa [Worker.between,Ethernet.takeAll] using refused
      rw [slipRecvWorker_stopped eth _ rest _ raised]
      refine ⟨by simp [raised],[unstuff slipCode stretch],single,by simp,?_⟩
      simp [refused,eq_comm (a := [])]
    · have taken : eth.take net (unstuff slipCode stretch) = some next := by
        simpa [Worker.between,Ethernet.takeAll] using taken
      have passed : handOn eth (.between false net handed) [unstuff slipCode stretch] =
          .between false next (handed ++ [unstuff slipCode stretch]) := passed
      rw [passed]
      obtain ⟨clean,got,more,first,whole⟩ := ih next (handed ++ [unstuff slipCode stretch]) after others
      refine ⟨clean,unstuff slipCode stretch :: got,?_,?_,?_⟩
      · rw [more,List.append_assoc]
        rfl
      · exact List.cons_prefix_cons.mpr ⟨rfl,first⟩
      · simp only [List.cons_inj_right,whole,taken,Option.some.injEq,exists_eq_left']
        constructor
        · exact .inr
        · rintro (none | later)
          · simp [none,Ethernet.takeAll]
          · exact later

end

/-- What the device passes on of a stream it is fed, however it is fed. -/
theorem inputs_stream {τ : Type} (n : Nat) (sent : List (τ × Byte)) (events : List PortEvent)
    (supplied : Along Port.step Port.Supplied (Port.start n sent) events) (stream : List Byte)
    (fed : (run Port.step (Port.start n sent) events).fed.map Prod.snd = stream)
    (paired : Paired slipCode stream) (framed : Framed stream) :
    (run Port.step (Port.start n sent) events).inputs.map Prod.snd = (packetsOf slipCode stream).map (List.map some) := by
  obtain ⟨_,_,_,passed⟩ := Port.sound_run n sent events supplied
  have short : ∀ stretch ∈ stretches slipCode [] stream, (unstuff slipCode stretch).length ≤ slipMaxSize + 1 := by
    intro stretch member
    by_cases empty : stretch = []
    · simp [empty]
    · exact Nat.le_succ_of_le (framed stretch member empty).1
  have received := receive_stream slipCode slipMaxSize stream paired short
  rw [passed,← received,← fed,← deliveries_packets]
  simp [Function.comp_def]

/-- However the device is fed a stream with paired escapes, it passes on what the host hands
on, as long as the pool does not run out and `IP` and `send_packet_to_ethernet` raise on no
packet but the last. Otherwise the host stops after a first part of it. -/
theorem decoders_agree {π δ ε τ : Type} (eth : Ethernet π δ ε) (net : δ) (n : Nat) (sent : List (τ × Byte))
    (events : List PortEvent) (supplied : Along Port.step Port.Supplied (Port.start n sent) events)
    (stream : List Byte) (fed : (run Port.step (Port.start n sent) events).fed.map Prod.snd = stream)
    (paired : Paired slipCode stream) (framed : Framed stream) :
    let worker := slipRecvWorker eth (.start net) stream
    let inputs := (run Port.step (Port.start n sent) events).inputs.map Prod.snd
    worker.raised ≠ some .slipProtocolError ∧ worker.handed.map (List.map some) <+: inputs ∧
      (worker.handed.map (List.map some) = inputs ↔
        (eth.takeAll net (packetsOf slipCode stream).dropLast).isSome) := by
  intro worker inputs
  have device : inputs = (packetsOf slipCode stream).map (List.map some) :=
    inputs_stream n sent events supplied stream fed paired framed
  obtain ⟨clean,got,handed,first,whole⟩ := recv_stream eth net [] stream paired framed
  have handed : worker.handed = got := handed
  have faithful : Function.Injective (List.map (List.map (some : Byte → Option Byte))) :=
    List.map_injective_iff.mpr (List.map_injective_iff.mpr (Option.some_injective Byte))
  rw [device,handed]
  exact ⟨clean,first.map _,faithful.eq_iff.trans whole⟩

/-- Data before the first END, two ENDs in a row, a bare ESC_END inside a packet and an
unfinished last frame. -/
def mixedStream : List Byte :=
  body slipCode (datagram 1 8) ++ [0xC0,0xC0] ++ body slipCode (datagram 0xDC 8) ++ [0xC0,0x45,0x00]

theorem decoders_agree_mixed :
    let events := [.readCallback 26] ++ (List.replicate 26 [.tryread,.rxbyteInput true]).flatten ++
      [.readCallback 25] ++ (List.replicate 25 [.tryread,.rxbyteInput true]).flatten
    (slipRecvWorker (lanEthernet oneAnswer) (.start .start) mixedStream).handed = [datagram 1 8,datagram 0xDC 8] ∧
      (slipRecvWorker (lanEthernet oneAnswer) (.start .start) mixedStream).handed.map (List.map some) =
        (run Port.step (Port.start 16 (mixedStream.map ((),·))) events).inputs.map Prod.snd := by
  intro events
  have agree := decoders_agree (lanEthernet oneAnswer) .start 16 (mixedStream.map ((),·)) events (by decide +kernel)
    mixedStream (by decide +kernel) (by decide +kernel) (by decide +kernel)
  exact ⟨by decide +kernel,agree.2.2.mpr (by decide +kernel)⟩

/-- Two whole frames, the first to a host that answers no ARP request: the device passes on
both packets, and the host only the one that ends its thread. -/
theorem decoders_part :
    let stream := frame slipCode (datagram 1 7) ++ frame slipCode (datagram 2 8)
    let device := Port.start 16 (stream.map ((),·))
    let events := [.readCallback 50] ++ (List.replicate 50 [.tryread,.rxbyteInput true]).flatten
    Along Port.step Port.Supplied device events ∧ (run Port.step device events).fed.map Prod.snd = stream ∧
      Paired slipCode stream ∧ Framed stream ∧
      (slipRecvWorker (lanEthernet oneAnswer) (.start .start) stream).handed = [datagram 1 7] ∧
      (run Port.step device events).inputs.map Prod.snd = [datagram 1 7,datagram 2 8].map (List.map some) := by
  exact ⟨by decide +kernel,by decide +kernel,by decide +kernel,by decide +kernel,by decide +kernel,by decide +kernel⟩

end Swip.Link
