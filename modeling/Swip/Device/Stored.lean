import Swip.Device.Reception

/-! What `slipif_rxbyte_input` leaves of one frame: a chain of pool pbufs that hold the packet
96 bytes at a time. -/
namespace Swip.Device
open Library.Stuffing Library.Pieces

variable {n : Nat}

/-- Every packet that is completed is accepted above. -/
def rxBytes (rx : Reception n) (stream : List Byte) : Option (Reception n) :=
  stream.foldlM (fun rx c => (slipifRxbyteInput rx c true).map Prod.fst) rx

/-- The interface, in some state between two packets with enough free pbufs, turns the frame of
the packet into a chain with these payloads. -/
def Stored (packet : List Byte) (chain : List (List Byte)) : Prop :=
  ∃ (n : Nat) (rx after : Reception n) (chains : List (Cells n (Option Byte))) (p : Fin n),
    Refines rx .idle [] chains ∧ packet.length ≤ 96 * rx.net.mem.tab.length ∧
    rxBytes rx (frame slipCode packet) = some after ∧ after.held = rx.held ++ [p] ∧
    contentsFrom after.net.mem n (some p) = chain.map (List.map some)

theorem rxBytes_append (rx between : Reception n) (first second : List Byte) (fed : rxBytes rx first = some between) :
    rxBytes rx (first ++ second) = rxBytes between second := by
  unfold rxBytes at fed ⊢
  rw [List.foldlM_append,fed]
  rfl

theorem Refines.room {rx : Reception n} {receiver : Receiver Byte} {cells : Cells n (Option Byte)}
    {chains : List (Cells n (Option Byte))} (refines : Refines rx receiver cells chains)
    (room : receiver.packet.length < 96 * (rx.net.mem.tab.length + cells.length)) (c : Byte) : Available rx.net c := by
  intro _ full empty
  obtain ⟨⟨filling,_,_⟩,_,_,_⟩ := refines
  rw [full] at filling
  rw [empty] at room
  generalize rx.net.priv.i = i at filling
  generalize receiver.packet = packet at filling room
  cases filling with
  | filled _ _ chain shaped content =>
    have length : 96 * cells.length = packet.length := by
      rw [← shaped.uniform.payloads_length,content,List.length_map]
    simp only [List.length_nil,Nat.zero_add] at room
    omega

/-- One byte that completes no packet. -/
theorem rxBytes_one (rx : Reception n) (receiver : Receiver Byte) (cells : Cells n (Option Byte))
    (chains : List (Cells n (Option Byte))) (refines : Refines rx receiver cells chains) (c : Byte)
    (silent : (receiver.receive slipCode slipMaxSize c).2 = none)
    (room : receiver.packet.length < 96 * (rx.net.mem.tab.length + cells.length)) :
    ∃ after others, rxBytes rx [c] = some after ∧
      Refines after (receiver.receive slipCode slipMaxSize c).1 others chains ∧ after.held = rx.held ∧
      after.net.mem.tab.length + others.length = rx.net.mem.tab.length + cells.length := by
  obtain ⟨after,others,left,passed,kept,same,_⟩ :=
    refines_input rx receiver cells chains refines c true (refines.room room c)
  obtain ⟨held,rfl⟩ := same silent
  refine ⟨after,others,?_,kept,held,?_⟩
  · rw [rxBytes,List.foldlM_cons,passed]
    rfl
  · have before := refines.owned.length_eq
    have later := kept.owned.length_eq
    simp only [List.length_append,ids,List.length_map] at before later
    omega

theorem stuff_cases (c : Byte) : (stuff slipCode c = [c] ∧ c ≠ slipCode.fin ∧ c ≠ slipCode.esc) ∨
    ∃ d, stuff slipCode c = [slipCode.esc,d] ∧ unescape slipCode d = c := by
  unfold stuff
  split_ifs with fin esc
  · exact .inr ⟨_,rfl,(unescape_escFin slipCode).trans fin.symm⟩
  · exact .inr ⟨_,rfl,(unescape_escEsc slipCode).trans esc.symm⟩
  · exact .inl ⟨rfl,fin,esc⟩

theorem rxBytes_stuffed (rx : Reception n) (received : List Byte) (cells : Cells n (Option Byte))
    (chains : List (Cells n (Option Byte))) (refines : Refines rx ⟨false,received⟩ cells chains) (c : Byte)
    (short : received.length ≤ slipMaxSize)
    (room : received.length < 96 * (rx.net.mem.tab.length + cells.length)) :
    ∃ after others, rxBytes rx (stuff slipCode c) = some after ∧
      Refines after ⟨false,received ++ [c]⟩ others chains ∧ after.held = rx.held ∧
      after.net.mem.tab.length + others.length = rx.net.mem.tab.length + cells.length := by
  rcases stuff_cases c with ⟨plain,fin,esc⟩ | ⟨d,pair,same⟩
  · have stored : Receiver.receive slipCode slipMaxSize ⟨false,received⟩ c = (⟨false,received ++ [c]⟩,none) := by
      simp [Receiver.receive,Receiver.store,fin,esc,short]
    have step := rxBytes_one rx ⟨false,received⟩ cells chains refines c (by rw [stored]) room
    rw [stored] at step
    rw [plain]
    exact step
  · have escaped : Receiver.receive slipCode slipMaxSize ⟨false,received⟩ slipCode.esc = (⟨true,received⟩,none) := by
      simp [Receiver.receive,slipCode.esc_ne_fin]
    have stored : Receiver.receive slipCode slipMaxSize ⟨true,received⟩ d = (⟨false,received ++ [c]⟩,none) := by
      simp [Receiver.receive,Receiver.store,same,short]
    have first := rxBytes_one rx ⟨false,received⟩ cells chains refines slipCode.esc (by rw [escaped]) room
    rw [escaped] at first
    obtain ⟨between,some,fed,kept,held,count⟩ := first
    have second := rxBytes_one between ⟨true,received⟩ some chains kept d (by rw [stored]) (by rw [count]; exact room)
    rw [stored] at second
    obtain ⟨after,others,stored,final,later,total⟩ := second
    refine ⟨after,others,?_,final,later.trans held,total.trans count⟩
    rw [pair]
    exact (rxBytes_append rx between [slipCode.esc] [d] fed).trans stored

theorem rxBytes_body (rx : Reception n) (received packet : List Byte) (cells : Cells n (Option Byte))
    (chains : List (Cells n (Option Byte))) (refines : Refines rx ⟨false,received⟩ cells chains)
    (short : (received ++ packet).length ≤ slipMaxSize + 1)
    (room : (received ++ packet).length ≤ 96 * (rx.net.mem.tab.length + cells.length)) :
    ∃ after others, rxBytes rx (body slipCode packet) = some after ∧
      Refines after ⟨false,received ++ packet⟩ others chains ∧ after.held = rx.held := by
  induction packet generalizing rx received cells with
  | nil => exact ⟨rx,cells,rfl,by simpa using refines,rfl⟩
  | cons c packet ih =>
    simp only [List.length_append,List.length_cons] at short room
    obtain ⟨between,some,fed,kept,held,count⟩ :=
      rxBytes_stuffed rx received cells chains refines c (by omega) (by omega)
    obtain ⟨after,others,rest,final,later⟩ := ih between (received ++ [c]) some kept
      (by simp only [List.length_append,List.length_singleton]; omega)
      (by simp only [List.length_append,List.length_singleton]; omega)
    refine ⟨after,others,?_,by simpa using final,later.trans held⟩
    rw [body_cons,rxBytes_append rx between _ _ fed]
    exact rest

theorem rxBytes_frame (rx : Reception n) (chains : List (Cells n (Option Byte)))
    (refines : Refines rx .idle [] chains) (packet : List Byte) (begun : packet ≠ [])
    (short : packet.length ≤ slipMaxSize + 1) (room : packet.length ≤ 96 * rx.net.mem.tab.length) :
    ∃ after p, rxBytes rx (frame slipCode packet) = some after ∧ after.held = rx.held ++ [p] ∧
      Cut 96 (packet.map some) (contentsFrom after.net.mem n (some p)) := by
  have positive := List.length_pos_iff.mpr begun
  have opened : Receiver.receive slipCode slipMaxSize ⟨false,[]⟩ slipCode.fin = (.idle,none) :=
    receive_fin slipCode slipMaxSize []
  have first := rxBytes_one rx ⟨false,[]⟩ [] chains refines slipCode.fin (by rw [opened]) (by
    simp only [List.length_nil,Nat.add_zero]
    omega)
  rw [opened] at first
  obtain ⟨between,cells,fed,kept,held,count⟩ := first
  obtain ⟨full,others,filled,collected,same⟩ := rxBytes_body between [] packet cells chains kept short (by
    rw [count]
    simpa using room)
  obtain ⟨net,p,_,ended,_,cut,_,_⟩ := refines_end full packet others chains collected begun
  refine ⟨⟨net,full.held ++ [p]⟩,p,?_,by rw [same,held],cut⟩
  rw [frame,← List.singleton_append,rxBytes_append rx between _ _ fed,rxBytes_append between full _ _ filled,
    rxBytes,List.foldlM_cons,slipifRxbyteInput]
  simp only [show slipCode.fin = slipEnd from rfl,ended,Option.bind_eq_bind,Option.bind_some,if_true]
  rfl

theorem Stored.cut {packet : List Byte} {chain : List (List Byte)} (stored : Stored packet chain) (begun : packet ≠ [])
    (short : packet.length ≤ slipMaxSize + 1) : Cut 96 packet chain := by
  obtain ⟨n,rx,after,chains,p,refines,room,fed,held,content⟩ := stored
  obtain ⟨other,q,again,place,cut⟩ := rxBytes_frame rx chains refines packet begun short room
  obtain rfl : after = other := Option.some.inj (fed.symm.trans again)
  obtain rfl : p = q := by simpa using held.symm.trans place
  rw [content] at cut
  obtain ⟨parts,same,cut⟩ := cut.of_map
  have injective : Function.Injective (List.map (List.map (some : Byte → Option Byte))) :=
    List.map_injective_iff.mpr (List.map_injective_iff.mpr (Option.some_injective Byte))
  rwa [injective same]

theorem stored_exists (packet : List Byte) (begun : packet ≠ []) (short : packet.length ≤ slipMaxSize + 1) :
    ∃ chain, Stored packet chain := by
  have room : packet.length ≤ 96 * (slipifInit 16).net.mem.tab.length := by
    simp only [slipifInit,List.length_reverse,List.length_finRange]
    unfold slipMaxSize at short
    omega
  obtain ⟨after,p,fed,held,cut⟩ := rxBytes_frame (slipifInit 16) [] (Refines.initial 16) packet begun short room
  obtain ⟨parts,same,_⟩ := cut.of_map
  exact ⟨parts,16,slipifInit 16,after,[],p,Refines.initial 16,room,fed,held,same⟩

end Swip.Device
