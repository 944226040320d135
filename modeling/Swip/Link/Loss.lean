import Swip.Link.HostToDevice

/-! The line from the host to the device when the mailbox overflows. A frame that gets through
whole is delivered intact unless the bytes accepted before it leave an escape open: then its
leading END is taken as data. -/
namespace Swip.Link
open Library Library.Stuffing Library.Run Bridge Device

def frameLine (packets : List (List Byte)) : List (Nat × Byte) := tagged 0 (packets.map Slip.encode)

/-- Without the tags, which name the packet of a byte, the line is what `send_packet_to_uart`
writes. -/
theorem frameLine_values (packets : List (List Byte)) :
    (frameLine packets).map Prod.snd = (sendPackets packets).flatten := by
  rw [frameLine,tagged_values,sendPackets_joined,List.flatMap_def]

theorem tagged_sorted (start : Nat) (chunks : List (List Byte)) :
    (tagged start chunks).Pairwise (·.1 ≤ ·.1) := by
  induction chunks generalizing start with
  | nil => exact .nil
  | cons chunk chunks ih =>
    rw [tagged_cons,List.pairwise_append]
    refine ⟨?_,ih (start + 1),?_⟩
    · rw [List.pairwise_map]
      exact List.pairwise_of_forall (fun _ _ => Nat.le_refl _)
    · intro x first y second
      obtain ⟨_,_,rfl⟩ := List.mem_map.mp first
      exact Nat.le_of_succ_le (tagged_later (start + 1) chunks y second)

theorem sorted_split (stream : List (Nat × Byte)) (sorted : stream.Pairwise (·.1 ≤ ·.1)) (i : Nat) :
    stream = stream.filter (·.1 < i) ++ stream.filter (·.1 = i) ++ stream.filter (i < ·.1) := by
  induction stream with
  | nil => rfl
  | cons x rest ih =>
    obtain ⟨first,others⟩ := List.pairwise_cons.mp sorted
    have split := ih others
    rcases Nat.lt_trichotomy x.1 i with before | here | after
    · simpa [before,Nat.ne_of_lt before,Nat.le_of_lt before] using split
    · have none : rest.filter (fun y => decide (y.1 < i)) = [] := by
        rw [List.filter_eq_nil_iff]
        intro y member
        have := first y member
        simp
        omega
      rw [none] at split
      simpa [here,none] using split
    · have all : rest.filter (fun y => decide (i < y.1)) = rest := by
        rw [List.filter_eq_self]
        intro y member
        have := first y member
        simp
        omega
      have empty : rest.filter (fun y => decide (y.1 < i)) = [] ∧ rest.filter (fun y => decide (y.1 = i)) = [] := by
        have lengths := congrArg List.length split
        rw [all] at lengths
        simp only [List.length_append] at lengths
        exact ⟨List.eq_nil_of_length_eq_zero (by omega),List.eq_nil_of_length_eq_zero (by omega)⟩
      simp [after,Nat.ne_of_gt after,Nat.le_of_lt after,all,empty]

theorem frame_received (receiver : Receiver Byte) (bounded : receiver.packet.length ≤ slipMaxSize + 1)
    (packet : List Byte) (nonempty : packet ≠ []) (short : packet.length ≤ slipMaxSize) :
    packet ∈ (receiver.receiveAll slipCode slipMaxSize (frame slipCode packet)).2 ↔ receiver.escaped = false := by
  rcases receiver with ⟨_ | _,before⟩
  · rw [receive_frame slipCode slipMaxSize before packet (Nat.le_succ_of_le short) nonempty]
    simp
  · rw [receive_frame_escaped slipCode slipMaxSize before packet bounded]
    simp only [List.mem_singleton,Bool.true_eq_false,iff_false]
    intro glued
    have lengths := congrArg List.length glued
    simp only [List.length_take,List.length_append,List.length_cons] at lengths
    omega

theorem deliveries_tag (receiver : Receiver Byte) (stream : List (Nat × Byte)) :
    ∀ x ∈ receiver.deliveries slipCode slipMaxSize stream, ∃ y ∈ stream, y.1 = x.1 := by
  induction stream generalizing receiver with
  | nil => simp [Receiver.deliveries]
  | cons head rest ih =>
    intro x member
    rw [Receiver.deliveries,List.mem_append,List.mem_map] at member
    rcases member with ⟨_,_,rfl⟩ | later
    · exact ⟨head,by simp,rfl⟩
    · obtain ⟨y,inside,same⟩ := ih _ x later
      exact ⟨y,by simp [inside],same⟩

theorem deliveries_frame (before after : List (Nat × Byte)) (body : List Byte) (i : Nat) (q : List Byte)
    (earlier : ∀ x ∈ before, x.1 ≠ i) (later : ∀ x ∈ after, x.1 ≠ i) :
    (i,q) ∈ Receiver.idle.deliveries slipCode slipMaxSize (before ++ body.map (i,·) ++ after) ↔
      q ∈ ((receiver before).receiveAll slipCode slipMaxSize body).2 := by
  have values : (body.map (i,·)).map Prod.snd = body := by simp [Function.comp_def]
  have packets := deliveries_packets slipCode slipMaxSize (receiver before) (body.map (i,·))
  rw [values] at packets
  rw [deliveries_append,deliveries_append,List.mem_append,List.mem_append,← packets]
  have out (r : Receiver Byte) (stream : List (Nat × Byte)) (absent : ∀ x ∈ stream, x.1 ≠ i) :
      (i,q) ∉ r.deliveries slipCode slipMaxSize stream := by
    intro member
    obtain ⟨y,inside,same⟩ := deliveries_tag r stream _ member
    exact absent y inside same
  constructor
  · intro made
    rcases made with (first | own) | last
    · exact absurd first (out _ _ earlier)
    · exact List.mem_map.mpr ⟨_,own,rfl⟩
    · exact absurd last (out _ _ later)
  · intro own
    obtain ⟨⟨j,_⟩,member,rfl⟩ := List.mem_map.mp own
    obtain ⟨y,inside,same⟩ := deliveries_tag _ _ _ member
    obtain ⟨_,_,rfl⟩ := List.mem_map.mp inside
    obtain rfl : i = j := same
    exact .inl (.inr member)

/-- Every byte of frame `i` found room in the mailbox, and the poll has got past them. -/
def Intact {n : Nat} (port : Port n Nat) (i : Nat) (packet : List Byte) : Prop :=
  port.posted.filter (·.1.1 = i) = (Slip.encode packet).map (fun c => ((i,c),true)) ∧ ∀ x ∈ port.pending, x.1 ≠ i

instance {n : Nat} (port : Port n Nat) (i : Nat) (packet : List Byte) : Decidable (Intact port i packet) :=
  inferInstanceAs (Decidable (_ ∧ _))

/-- The bytes accepted from the frames before frame `i`. -/
def acceptedBefore {n : Nat} (port : Port n Nat) (i : Nat) : List Byte :=
  ((Fifo.accepted port.posted).filter (·.1 < i)).map Prod.snd

theorem accepted_filter (log : List ((Nat × Byte) × Bool)) (p : Nat × Byte → Bool) :
    Fifo.accepted (log.filter (fun entry => p entry.1)) = (Fifo.accepted log).filter p := by
  simp [Fifo.accepted,List.filter_map,List.filter_filter,Function.comp_def,Bool.and_comm]

theorem intact_fed {n : Nat} (packets : List (List Byte)) (port : Port n Nat) (sound : port.Sound (frameLine packets))
    (i : Nat) (packet : List Byte) (intact : Intact port i packet) :
    ∃ before after, port.fed = before ++ (Slip.encode packet).map (i,·) ++ after ∧
      before.map Prod.snd = acceptedBefore port i ∧ (∀ x ∈ before, x.1 ≠ i) ∧ ∀ x ∈ after, x.1 ≠ i := by
  obtain ⟨whole,passed⟩ := intact
  have sorted : (port.fed ++ port.pending).Pairwise (·.1 ≤ ·.1) := by
    have kept : (Fifo.accepted port.posted).Sublist (port.posted.map Prod.fst) :=
      List.filter_sublist.map Prod.fst
    have line := tagged_sorted 0 (packets.map Slip.encode)
    rw [← frameLine,← sound.line] at line
    rw [sound.flow]
    exact line.sublist (kept.trans (List.sublist_append_left _ _))
  have own : port.fed.filter (·.1 = i) = (Slip.encode packet).map (i,·) := by
    have none : port.pending.filter (·.1 = i) = [] := List.filter_eq_nil_iff.mpr (by simpa using passed)
    have taken := accepted_filter port.posted (fun x => decide (x.1 = i))
    rw [whole,← sound.flow,List.filter_append,none,List.append_nil] at taken
    rw [← taken]
    simp [Fifo.accepted,List.filter_map,Function.comp_def]
  have first : port.fed.filter (·.1 < i) = (Fifo.accepted port.posted).filter (·.1 < i) := by
    have opened : (i,slipEnd) ∈ port.fed.filter (·.1 = i) := by
      rw [own,encode_frame]
      exact List.mem_map.mpr ⟨slipEnd,by simp [frame,slipCode],rfl⟩
    have none : port.pending.filter (·.1 < i) = [] := by
      rw [List.filter_eq_nil_iff]
      intro x waiting
      have order := (List.pairwise_append.mp sorted).2.2 _ (List.mem_filter.mp opened).1 x waiting
      simpa using order
    rw [← sound.flow,List.filter_append,none,List.append_nil]
  refine ⟨port.fed.filter (·.1 < i),port.fed.filter (i < ·.1),?_,?_,?_,?_⟩
  · rw [← own]
    exact sorted_split port.fed (List.pairwise_append.mp sorted).1 i
  · rw [first]
    rfl
  · intro x member
    have := (List.mem_filter.mp member).2
    simp at this
    omega
  · intro x member
    have := (List.mem_filter.mp member).2
    simp at this
    omega

/-- In every run with pool pbufs available, a frame that is accepted whole is delivered intact
exactly when the bytes accepted before it end in an even number of ESC bytes. -/
theorem intact_delivered (n : Nat) (packets : List (List Byte)) (events : List PortEvent)
    (nonempty : ∀ p ∈ packets, p ≠ []) (short : ∀ p ∈ packets, p.length ≤ 1500)
    (supplied : Along Port.step Port.Supplied (Port.start n (frameLine packets)) events) (i : Nat) (packet : List Byte)
    (sent : packets[i]? = some packet)
    (intact : Intact (run Port.step (Port.start n (frameLine packets)) events) i packet) :
    let port := run Port.step (Port.start n (frameLine packets)) events
    (i,packet.map some) ∈ port.inputs ↔ Even (openEscapes slipCode (acceptedBefore port i)) := by
  intro port
  have sound : port.Sound (frameLine packets) := Port.sound_run n (frameLine packets) events supplied
  obtain ⟨before,after,fed,values,earlier,later⟩ := intact_fed packets port sound i packet intact
  have member := List.mem_of_getElem? sent
  have own : (i,packet.map some) ∈ port.inputs ↔
      (i,packet) ∈ Receiver.idle.deliveries slipCode slipMaxSize port.fed := by
    rw [sound.inputs]
    constructor
    · intro inside
      obtain ⟨⟨j,q⟩,made,same⟩ := List.mem_map.mp inside
      obtain ⟨rfl,equal⟩ := Prod.mk.inj same
      obtain rfl := List.map_injective_iff.mpr (Option.some_injective _) equal
      exact made
    · intro made
      exact List.mem_map.mpr ⟨_,made,rfl⟩
  have closed := receiveAll_escaped slipCode slipMaxSize (before.map Prod.snd)
  have bounded := receiveAll_bounded slipCode slipMaxSize .idle (before.map Prod.snd) (by simp [Receiver.idle])
  rw [own,fed,deliveries_frame before after _ i packet earlier later,encode_frame,
    frame_received (receiver before) bounded packet (nonempty packet member) (short packet member),← values,
    ← not_iff_not,← closed]
  simp [receiver]

/-- The first packet overruns the mailbox, and the poll only runs once that has happened. -/
def overrun (size : Nat) : List PortEvent :=
  [.readCallback size] ++ (List.replicate 50 [.tryread,.rxbyteInput true]).flatten ++
    [.readCallback 3] ++ (List.replicate 3 [.tryread,.rxbyteInput true]).flatten

theorem intact_delivered_cut :
    (1,[some 0x46]) ∈
      (run Port.step (Port.start 16 (frameLine [List.replicate 60 0x45,[0x46]])) (overrun 62)).inputs :=
  (intact_delivered 16 [List.replicate 60 0x45,[0x46]] (overrun 62) (by decide) (by decide) (by decide +kernel) 1
    [0x46] rfl (by decide +kernel)).mpr (by decide +kernel)

/-- The first frame is cut off after an ESC. The second one is accepted whole and read by the
poll, but it comes out glued to what is left of the first. -/
theorem intact_lost :
    let packets : List (List Byte) := [List.replicate 48 0x45 ++ [0xC0],[0x46]]
    let port := run Port.step (Port.start 16 (frameLine packets)) (overrun 52)
    Along Port.step Port.Supplied (Port.start 16 (frameLine packets)) (overrun 52) ∧ Intact port 1 [0x46] ∧
      port.line = [] ∧ port.pending = [] ∧ (1,[some 0x46]) ∉ port.inputs ∧
      port.inputs = [(1,List.replicate 48 (some 0x45) ++ [some 0xC0,some 0x46])] := by
  decide +kernel

end Swip.Link
