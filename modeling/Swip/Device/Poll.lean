import Swip.Device.Reception
import Swip.Library.Fifo
import Swip.Library.Run

/-! The serial port of `sio.c` and `slipif_poll` above it. `readCallback` runs as an
interrupt and the main loop polls, so the two interleave at every step: between two polls,
and between `sio_tryread` and `slipif_rxbyte_input` inside one. Bytes carry a tag that
the code never sees and the statements about loss refer to. -/
namespace Swip.Device
open Library Library.Stuffing Library.Run

/-- `Mailbox_create(1, 50, ...)`: fifty messages of one byte. -/
abbrev Mailbox (α : Type) := Fifo 50 α

/-- The results of `Mailbox_post` are logged here; the code ignores them. -/
def readCallback {α : Type} (mbox : Mailbox α) (rxBuf : List α) : Mailbox α × List (α × Bool) :=
  mbox.postAll rxBuf

def sioTryread {α : Type} (mbox : Mailbox α) : Nat → Mailbox α × List α
  | 0 => (mbox,[])
  | len + 1 =>
    match mbox.pend with
    | none => (mbox,[])
    | some (x,mbox) => ((sioTryread mbox len).1,x :: (sioTryread mbox len).2)

/-- `line` is on its way to the port, `c` is the byte `slipif_poll` has read and not yet
passed on, and `rx` is `none` after a fault. The rest is history: what became of each byte
at the mailbox, what `slipif_rxbyte_input` was called with, and what it called `netif->input`
with, next to the tag of the byte that completed the packet. -/
structure Port (n : Nat) (τ : Type) where
  line : List (τ × Byte)
  mbox : Mailbox (τ × Byte)
  c : Option (τ × Byte)
  rx : Option (Reception n)
  posted : List ((τ × Byte) × Bool)
  fed : List (τ × Byte)
  inputs : List (τ × List (Option Byte))

inductive PortEvent
  | readCallback (size : Nat)
  | tryread
  | rxbyteInput (accepted : Bool)
  | free (k : Nat)
deriving DecidableEq, Repr

variable {n : Nat} {τ : Type}

def Port.start (n : Nat) (line : List (τ × Byte)) : Port n τ where
  line := line
  mbox := .empty
  c := none
  rx := some (slipifInit n)
  posted := []
  fed := []
  inputs := []

def Port.step (port : Port n τ) : PortEvent → Port n τ
  | .readCallback size =>
    let (mbox,log) := Device.readCallback port.mbox (port.line.take size)
    {port with line := port.line.drop size, mbox := mbox, posted := port.posted ++ log}
  | .tryread =>
    match port.c with
    | some _ => port
    | none =>
      let (mbox,data) := sioTryread port.mbox 1
      {port with mbox := mbox, c := data.head?}
  | .rxbyteInput accepted =>
    match port.c, port.rx with
    | some (tag,c), some rx =>
      match slipifRxbyteInput rx c accepted with
      | none => {port with c := none, rx := none, fed := port.fed ++ [(tag,c)]}
      | some (rx,input) =>
        {port with c := none, rx := some rx, fed := port.fed ++ [(tag,c)],
                   inputs := port.inputs ++ input.toList.map (tag,·)}
    | _, _ => port
  | .free k =>
    match port.rx with
    | some rx => {port with rx := releaseHeld rx k}
    | none => port

def Port.pending (port : Port n τ) : List (τ × Byte) := port.c.toList ++ port.mbox.waiting

/-- When a byte is stored that needs a new pbuf, the pool is not empty. -/
def Port.Supplied (port : Port n τ) : PortEvent → Prop
  | .rxbyteInput _ => ∀ x ∈ port.c, ∀ rx ∈ port.rx, Available rx.net x.2
  | _ => True

instance (port : Port n τ) : (event : PortEvent) → Decidable (port.Supplied event)
  | .rxbyteInput _ => inferInstanceAs (Decidable (∀ x ∈ port.c, ∀ rx ∈ port.rx, _))
  | .readCallback _ => .isTrue trivial
  | .tryread => .isTrue trivial
  | .free _ => .isTrue trivial

def receiver (fed : List (τ × Byte)) : Receiver Byte :=
  (Receiver.idle.receiveAll slipCode slipMaxSize (fed.map Prod.snd)).1

/-- Nothing is lost after the mailbox, nothing faults, and the packets handed on are the ones
the abstract receiver makes of the bytes fed to it. -/
structure Port.Sound (sent : List (τ × Byte)) (port : Port n τ) : Prop where
  line : port.posted.map Prod.fst ++ port.line = sent
  flow : port.fed ++ port.pending = Fifo.accepted port.posted
  refined : ∃ rx cells chains, port.rx = some rx ∧ Refines rx (receiver port.fed) cells chains ∧
    rx.net.linkDrop = 0
  inputs : port.inputs =
    (Receiver.idle.deliveries slipCode slipMaxSize port.fed).map (Prod.map id (List.map some))

theorem Port.start_sound (n : Nat) (sent : List (τ × Byte)) : Port.Sound sent (Port.start n sent) := by
  refine ⟨rfl,rfl,⟨slipifInit n,[],[],rfl,Refines.initial n,rfl⟩,rfl⟩

theorem receiver_snoc (fed : List (τ × Byte)) (tag : τ) (c : Byte) :
    receiver (fed ++ [(tag,c)]) = ((receiver fed).receive slipCode slipMaxSize c).1 := by
  simp [receiver,receiveAll_append,Receiver.receiveAll]

theorem deliveries_snoc (fed : List (τ × Byte)) (tag : τ) (c : Byte) :
    Receiver.idle.deliveries slipCode slipMaxSize (fed ++ [(tag,c)]) =
      Receiver.idle.deliveries slipCode slipMaxSize fed ++
        ((receiver fed).receive slipCode slipMaxSize c).2.toList.map (tag,·) := by
  simp [deliveries_append,Receiver.deliveries,receiver]

theorem sioTryread_one {α : Type} (mbox : Mailbox α) :
    (sioTryread mbox 1).2.head?.toList ++ (sioTryread mbox 1).1.waiting = mbox.waiting := by
  rcases Fifo.pend_waiting mbox with ⟨empty,_⟩ | ⟨x,rest,taken,order⟩
  · simp [sioTryread,empty]
  · simp [sioTryread,taken,order]

theorem Port.sound_readCallback (sent : List (τ × Byte)) (port : Port n τ) (sound : port.Sound sent) (size : Nat) :
    Port.Sound sent (port.step (.readCallback size)) := by
  obtain ⟨line,flow,refined,inputs⟩ := sound
  refine ⟨?_,?_,refined,inputs⟩
  · simp only [Port.step,Device.readCallback,List.map_append,Fifo.postAll_logged,List.append_assoc,
      List.take_append_drop]
    exact line
  · simp only [Port.step,Device.readCallback,Port.pending,Fifo.postAll_waiting,Fifo.accepted_append] at flow ⊢
    rw [← flow]
    simp

theorem Port.sound_tryread (sent : List (τ × Byte)) (port : Port n τ) (sound : port.Sound sent) :
    Port.Sound sent (port.step .tryread) := by
  cases read : port.c with
  | some x => simpa [Port.step,read] using sound
  | none =>
    obtain ⟨line,flow,refined,inputs⟩ := sound
    simp only [Port.step,read]
    refine ⟨line,?_,refined,inputs⟩
    rw [← flow]
    simp only [Port.pending,read,sioTryread_one]
    rfl

theorem Port.sound_rxbyteInput (sent : List (τ × Byte)) (port : Port n τ) (sound : port.Sound sent) (accepted : Bool)
    (supplied : port.Supplied (.rxbyteInput accepted)) :
    Port.Sound sent (port.step (.rxbyteInput accepted)) := by
  cases read : port.c with
  | none => simpa [Port.step,read] using sound
  | some x =>
    obtain ⟨tag,c⟩ := x
    obtain ⟨line,flow,⟨rx,cells,chains,running,refines,drop⟩,inputs⟩ := sound
    obtain ⟨after,others,left,passed,kept,_,same⟩ := refines_input rx (receiver port.fed) cells chains refines c
      accepted (supplied _ read _ running)
    simp only [Port.step,read,running,passed]
    refine ⟨line,?_,⟨after,others,left,rfl,?_,same.trans drop⟩,?_⟩
    · rw [← flow]
      simp [Port.pending,read]
    · rw [receiver_snoc]
      exact kept
    · rw [deliveries_snoc,List.map_append,← inputs]
      cases ((receiver port.fed).receive slipCode slipMaxSize c).2 <;> rfl

theorem Port.sound_free (sent : List (τ × Byte)) (port : Port n τ) (sound : port.Sound sent) (k : Nat) :
    Port.Sound sent (port.step (.free k)) := by
  obtain ⟨line,flow,⟨rx,cells,chains,running,refines,drop⟩,inputs⟩ := sound
  obtain ⟨after,others,released,kept,_,same,_⟩ := refines_release rx _ cells chains refines k
  simp only [Port.step,running,released]
  exact ⟨line,flow,⟨after,cells,others,rfl,kept,same.trans drop⟩,inputs⟩

theorem Port.posted_step (port : Port n τ) (event : PortEvent) (other : ∀ size, event ≠ .readCallback size) :
    (port.step event).posted = port.posted := by
  cases event with
  | readCallback size => exact absurd rfl (other size)
  | tryread =>
    simp only [Port.step]
    split <;> rfl
  | rxbyteInput accepted =>
    simp only [Port.step]
    split
    · split <;> rfl
    · rfl
  | free k =>
    simp only [Port.step]
    split <;> rfl

theorem Port.tryread_rx (port : Port n τ) :
    (port.step .tryread).fed = port.fed ∧ (port.step .tryread).rx = port.rx := by
  simp only [Port.step]
  split <;> exact ⟨rfl,rfl⟩

theorem Port.sound_step (sent : List (τ × Byte)) (port : Port n τ) (event : PortEvent) (sound : port.Sound sent)
    (supplied : port.Supplied event) : Port.Sound sent (port.step event) := by
  cases event with
  | readCallback size => exact port.sound_readCallback sent sound size
  | tryread => exact port.sound_tryread sent sound
  | rxbyteInput accepted => exact port.sound_rxbyteInput sent sound accepted supplied
  | free k => exact port.sound_free sent sound k

/-- Every interleaving of the interrupt, the poll and the stack above keeps the port sound, as
long as the pool is never found empty. -/
theorem Port.sound_run (n : Nat) (sent : List (τ × Byte)) (events : List PortEvent)
    (supplied : Along Port.step Port.Supplied (Port.start n sent) events) :
    Port.Sound sent (run Port.step (Port.start n sent) events) :=
  invariant_along Port.step Port.Supplied (Port.Sound sent)
    (fun port event sound met => port.sound_step sent event sound met) _ events (Port.start_sound n sent) supplied

end Swip.Device
