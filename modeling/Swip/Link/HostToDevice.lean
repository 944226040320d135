import Swip.Bridge.Uart
import Swip.Device.Poll

/-! The line from the host to the device: what `send_packet_to_uart` writes reaches
`netif->input` through the mailbox and `slipif_poll`. -/
namespace Swip.Link
open Library Library.Stuffing Library.Run Bridge Device

/-- The bytes of a list of chunks, each with the number of its chunk. -/
def tagged (start : Nat) (chunks : List (List Byte)) : List (Nat × Byte) :=
  (chunks.zipIdx start).flatMap fun (chunk,j) => chunk.map (j,·)

theorem tagged_cons (start : Nat) (chunk : List Byte) (chunks : List (List Byte)) :
    tagged start (chunk :: chunks) = chunk.map (start,·) ++ tagged (start + 1) chunks := rfl

theorem tagged_values (start : Nat) (chunks : List (List Byte)) :
    (tagged start chunks).map Prod.snd = chunks.flatten := by
  induction chunks generalizing start with
  | nil => rfl
  | cons chunk chunks ih => simp [tagged_cons,ih,Function.comp_def]

theorem tagged_later (start : Nat) (chunks : List (List Byte)) : ∀ x ∈ tagged start chunks, start ≤ x.1 := by
  induction chunks generalizing start with
  | nil => simp [tagged]
  | cons chunk chunks ih =>
    intro x member
    rw [tagged_cons,List.mem_append,List.mem_map] at member
    rcases member with ⟨_,_,rfl⟩ | later
    · exact Nat.le_refl _
    · exact Nat.le_of_succ_le (ih (start + 1) x later)

theorem tagged_count (start : Nat) (chunks : List (List Byte)) (size : Nat)
    (short : ∀ chunk ∈ chunks, chunk.length ≤ size) (j : Nat) :
    (tagged start chunks).countP (·.1 = j) ≤ size := by
  induction chunks generalizing start with
  | nil => simp [tagged]
  | cons chunk chunks ih =>
    rw [tagged_cons,List.countP_append,List.countP_map]
    by_cases here : start = j
    · have none : (tagged (start + 1) chunks).countP (·.1 = j) = 0 := by
        rw [List.countP_eq_zero]
        intro x member
        have later := tagged_later (start + 1) chunks x member
        simp
        omega
      have own : chunk.countP ((fun x : Nat × Byte => decide (x.1 = j)) ∘ (start,·)) ≤ chunk.length :=
        List.countP_le_length
      have bound := short chunk (by simp)
      omega
    · have none : chunk.countP ((fun x : Nat × Byte => decide (x.1 = j)) ∘ (start,·)) = 0 := by
        simp [List.countP_eq_zero,here]
      have rest := ih (start + 1) (fun other member => short other (by simp [member]))
      omega

def TwoFragments {n : Nat} (port : Port n Nat) : Prop :=
  ∃ j, ∀ x ∈ port.mbox.waiting, x.1 = j ∨ x.1 = j + 1

/-- Everything handed on has been freed when the first payload byte of a packet is stored. -/
def Released {n : Nat} {τ : Type} (port : Port n τ) : PortEvent → Prop
  | .rxbyteInput _ => ∀ x ∈ port.c, ∀ rx ∈ port.rx, Stores rx.net x.2 → rx.net.priv.q = none → rx.held = []
  | _ => True

theorem twoFragments_iff {n : Nat} (port : Port n Nat) :
    (∀ x ∈ port.mbox.waiting, ∃ y ∈ port.mbox.waiting, ∀ z ∈ port.mbox.waiting, z.1 = y.1 ∨ z.1 = y.1 + 1) ↔
      TwoFragments port := by
  constructor
  · intro least
    cases shape : port.mbox.waiting with
    | nil => exact ⟨0,by simp [shape]⟩
    | cons x rest =>
      obtain ⟨y,_,near⟩ := least x (by simp [shape])
      exact ⟨y.1,near⟩
  · intro two x member
    obtain ⟨j,near⟩ := two
    by_cases first : ∃ y ∈ port.mbox.waiting, y.1 = j
    · obtain ⟨y,inside,rfl⟩ := first
      exact ⟨y,inside,near⟩
    · have later (z : Nat × Byte) (inside : z ∈ port.mbox.waiting) : z.1 = j + 1 :=
        (near z inside).resolve_left (fun same => first ⟨z,inside,same⟩)
      exact ⟨x,member,fun z inside => .inl ((later z inside).trans (later x member).symm)⟩

instance {n : Nat} (port : Port n Nat) : Decidable (TwoFragments port) := decidable_of_iff _ (twoFragments_iff port)

instance {n : Nat} {τ : Type} (port : Port n τ) : (event : PortEvent) → Decidable (Released port event)
  | .rxbyteInput _ => inferInstanceAs (Decidable (∀ x ∈ port.c, ∀ rx ∈ port.rx, _))
  | .readCallback _ => .isTrue trivial
  | .tryread => .isTrue trivial
  | .free _ => .isTrue trivial

def Paced {n : Nat} (port : Port n Nat) (event : PortEvent) : Prop :=
  Released port event ∧ TwoFragments (port.step event)

/-- The port of a paced run: sound, every byte accepted so far, and nothing held while a packet
is collected. -/
structure Lossless (sent : List (Nat × Byte)) (port : Port 16 Nat) : Prop where
  sound : port.Sound sent
  posted : ∀ entry ∈ port.posted, entry.2 = true
  alone : ∀ rx ∈ port.rx, (receiver port.fed).packet ≠ [] → rx.held = []

theorem lossless_start (sent : List (Nat × Byte)) : Lossless sent (Port.start 16 sent) :=
  ⟨Port.start_sound 16 sent,by simp [Port.start],by simp [Port.start,slipifInit]⟩

private theorem near_count (j : Nat) (waiting : List (Nat × Byte)) (near : ∀ x ∈ waiting, x.1 = j ∨ x.1 = j + 1) :
    waiting.length ≤ waiting.countP (·.1 = j) + waiting.countP (·.1 = j + 1) := by
  induction waiting with
  | nil => simp
  | cons x rest ih =>
    have later := ih (fun y member => near y (by simp [member]))
    rcases near x (by simp) with here | here
    · simp [here]
      omega
    · simp [here]
      omega

theorem twoFragments_room (packets : List (List Byte)) (port : Port 16 Nat)
    (sound : port.Sound (tagged 0 (sendPackets packets))) (two : TwoFragments port) :
    port.mbox.waiting.length ≤ 40 := by
  obtain ⟨j,near⟩ := two
  have part : port.mbox.waiting.Sublist (tagged 0 (sendPackets packets)) := by
    have suffix : port.mbox.waiting.Sublist (Fifo.accepted port.posted) := by
      rw [← sound.flow,Port.pending,← List.append_assoc]
      exact List.sublist_append_right _ _
    have kept : (Fifo.accepted port.posted).Sublist (port.posted.map Prod.fst) :=
      List.filter_sublist.map Prod.fst
    rw [← sound.line]
    exact suffix.trans (kept.trans (List.sublist_append_left _ _))
  have count (k : Nat) : port.mbox.waiting.countP (·.1 = k) ≤ sendFragSize :=
    (part.countP_le (p := fun x => decide (x.1 = k))).trans
      (tagged_count 0 (sendPackets packets) sendFragSize (sendPackets_short packets) k)
  have all : port.mbox.waiting.length ≤
      port.mbox.waiting.countP (·.1 = j) + port.mbox.waiting.countP (·.1 = j + 1) :=
    near_count j port.mbox.waiting near
  have first := count j
  have second := count (j + 1)
  unfold sendFragSize at first second
  omega

theorem lossless_supplied (sent : List (Nat × Byte)) (port : Port 16 Nat) (lossless : Lossless sent port)
    (event : PortEvent) (released : Released port event) : port.Supplied event := by
  cases event with
  | rxbyteInput accepted =>
    intro x read rx running stores full
    obtain ⟨rx',cells,chains,running',refines,_⟩ := lossless.sound.refined
    obtain rfl : rx = rx' := Option.some.inj (running.symm.trans running')
    refine refines.supply ?_ full
    by_cases begun : rx.net.priv.q = none
    · exact released x read rx running stores begun
    · exact lossless.alone rx running (fun empty => begun (refines.begun.mpr empty))
  | readCallback size => trivial
  | tryread => trivial
  | free k => trivial

theorem posted_step (packets : List (List Byte)) (port : Port 16 Nat)
    (lossless : Lossless (tagged 0 (sendPackets packets)) port) (event : PortEvent) (paced : Paced port event) :
    ∀ entry ∈ (port.step event).posted, entry.2 = true := by
  have supplied := lossless_supplied _ port lossless event paced.1
  have sound := port.sound_step _ event lossless.sound supplied
  have room := twoFragments_room packets _ sound paced.2
  cases event with
  | readCallback size =>
    intro entry member
    rcases List.mem_append.mp member with old | new
    · exact lossless.posted entry old
    · obtain ⟨x,taken⟩ := entry
      cases taken with
      | true => rfl
      | false =>
        have full := Fifo.postAll_full port.mbox (port.line.take size) x new
        change (port.mbox.postAll (port.line.take size)).1.waiting.length ≤ 40 at room
        omega
  | tryread =>
    rw [port.posted_step .tryread (by simp)]
    exact lossless.posted
  | rxbyteInput accepted =>
    rw [port.posted_step (.rxbyteInput accepted) (by simp)]
    exact lossless.posted
  | free k =>
    rw [port.posted_step (.free k) (by simp)]
    exact lossless.posted

theorem alone_step (sent : List (Nat × Byte)) (port : Port 16 Nat) (lossless : Lossless sent port)
    (event : PortEvent) (released : Released port event) :
    ∀ rx ∈ (port.step event).rx, (receiver (port.step event).fed).packet ≠ [] → rx.held = [] := by
  have supplied := lossless_supplied _ port lossless event released
  obtain ⟨rx,cells,chains,running,refines,_⟩ := lossless.sound.refined
  cases event with
  | readCallback size => exact lossless.alone
  | tryread =>
    obtain ⟨fed,same⟩ := port.tryread_rx
    rw [fed,same]
    exact lossless.alone
  | free k =>
    obtain ⟨after,others,freed,_,_,_,empty⟩ := refines_release rx _ cells chains refines k
    simp only [Port.step,running,freed]
    rintro _ ⟨⟩ begun
    exact empty (lossless.alone rx running begun)
  | rxbyteInput accepted =>
    cases read : port.c with
    | none =>
      simp only [Port.step,read]
      exact lossless.alone
    | some x =>
      obtain ⟨tag,c⟩ := x
      obtain ⟨after,others,left,passed,kept,same,_⟩ := refines_input rx _ cells chains refines c accepted
        (supplied _ read _ running)
      simp only [Port.step,read,running,passed,receiver_snoc]
      rintro _ ⟨⟩ begun
      have silent : ((receiver port.fed).receive slipCode slipMaxSize c).2 = none :=
        receive_silent slipCode slipMaxSize _ c begun
      rw [(same silent).1]
      by_cases empty : (receiver port.fed).packet = []
      · refine released _ read _ running ?_ (refines.begun.mpr empty)
        rcases receive_begins slipCode slipMaxSize _ c empty begun with escaped | stored
        · exact .inl (by rw [refines.escaped,escaped]; rfl)
        · exact .inr stored
      · exact lossless.alone rx running empty

theorem lossless_step (packets : List (List Byte)) (port : Port 16 Nat) (event : PortEvent)
    (lossless : Lossless (tagged 0 (sendPackets packets)) port) (paced : Paced port event) :
    Lossless (tagged 0 (sendPackets packets)) (port.step event) :=
  ⟨port.sound_step _ event lossless.sound (lossless_supplied _ port lossless event paced.1),
    posted_step packets port lossless event paced,alone_step _ port lossless event paced.1⟩

/-- Every packet of at most 1500 bytes that the bridge writes reaches `netif->input` whole,
once and in order, however the interrupt, the poll and the stack above interleave, as long as
the mailbox holds at most two fragments and every chain is freed before the next packet
begins. No byte is refused, nothing faults and `pbuf_alloc` never fails. -/
theorem hostToDevice (packets : List (List Byte)) (events : List PortEvent)
    (nonempty : ∀ p ∈ packets, p ≠ []) (short : ∀ p ∈ packets, p.length ≤ 1500)
    (paced : Along Port.step Paced (Port.start 16 (tagged 0 (sendPackets packets))) events) :
    let port := run Port.step (Port.start 16 (tagged 0 (sendPackets packets))) events
    port.inputs.map Prod.snd <+: packets.map (List.map some) ∧
      (port.line = [] → port.pending = [] → port.inputs.map Prod.snd = packets.map (List.map some)) ∧
      (∀ entry ∈ port.posted, entry.2 = true) ∧ ∃ rx, port.rx = some rx ∧ rx.net.linkDrop = 0 := by
  intro port
  have lossless : Lossless (tagged 0 (sendPackets packets)) port :=
    invariant_along Port.step Paced _ (lossless_step packets) _ events (lossless_start _) paced
  obtain ⟨⟨line,flow,⟨rx,_,_,running,_,drop⟩,inputs⟩,posted,_⟩ := lossless
  have whole : port.fed ++ port.pending ++ port.line = tagged 0 (sendPackets packets) := by
    rw [flow,Fifo.accepted_all port.posted posted,line]
  have frames : (tagged 0 (sendPackets packets)).map Prod.snd = packets.flatMap (frame slipCode) := by
    rw [tagged_values,sendPackets_joined,show Slip.encode = frame slipCode from funext encode_frame]
  have received := receive_frames slipCode slipMaxSize packets
    (fun p member => Nat.le_succ_of_le (short p member)) nonempty
  have handed : port.inputs.map Prod.snd =
      (Receiver.idle.receiveAll slipCode slipMaxSize (port.fed.map Prod.snd)).2.map (List.map some) := by
    rw [inputs,← deliveries_packets]
    simp [Function.comp_def]
  refine ⟨?_,?_,posted,rx,running,drop⟩
  · have early : port.fed.map Prod.snd <+: packets.flatMap (frame slipCode) := by
      rw [← frames,← whole,List.append_assoc,List.map_append]
      exact List.prefix_append _ _
    have sofar := receiveAll_prefix slipCode slipMaxSize .idle _ _ early
    rw [received] at sofar
    rw [handed]
    exact sofar.map _
  · intro sent polled
    rw [sent,polled,List.append_nil,List.append_nil] at whole
    rw [handed,whole,frames,received]

instance {n : Nat} (port : Port n Nat) (event : PortEvent) : Decidable (Paced port event) :=
  inferInstanceAs (Decidable (_ ∧ _))

theorem hostToDevice_two :
    (run Port.step (Port.start 16 (tagged 0 (sendPackets [[0x45,0xC0],[0x46]])))
      ([.readCallback 8] ++ (List.replicate 5 [.tryread,.rxbyteInput true]).flatten ++ [.free 0] ++
        (List.replicate 3 [.tryread,.rxbyteInput true]).flatten)).inputs.map Prod.snd =
      [[some 0x45,some 0xC0],[some 0x46]] :=
  (hostToDevice [[0x45,0xC0],[0x46]] _ (by decide) (by decide) (by decide +kernel)).2.1 (by decide +kernel)
    (by decide +kernel)

end Swip.Link
