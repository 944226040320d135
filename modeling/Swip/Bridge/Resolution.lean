import Swip.Bridge.Worker
import Mathlib.Logic.Function.Basic

/-! `get_mac` and `send_packet_to_ethernet` of `bridge.py` behind the worker. An address that
answers no ARP request raises an exception that nothing on the way out of the thread catches. -/
namespace Swip.Bridge
open Library.Stuffing Library.Run

abbrev IPAddress := BitVec 32
abbrev Mac := BitVec 48

def dotted (a b c d : BitVec 8) : IPAddress := a ++ b ++ c ++ d

structure IPNetwork where
  base : IPAddress
  bits : Nat

def IPNetwork.contains (net : IPNetwork) (ip : IPAddress) : Bool :=
  ip >>> (32 - net.bits) == net.base >>> (32 - net.bits)

def rtosMac : Mac := 0x6c71d9bf8efb
def dfGw : IPAddress := dotted 192 168 43 1
def network : IPNetwork := ⟨dotted 192 168 43 0,24⟩

abbrev MacDict := IPAddress → Option Mac

def macDict : MacDict := Function.update (fun _ => none) (dotted 1 1 1 1) (some 0x123456aabbcc)

/-- What is scapy's and the network's: the dissector, the address it finds in a layer, and the
`hwsrc` of each answer `sr` collects for an ARP request. -/
structure Scapy (π ε : Type) where
  IP : List Byte → Except ε π
  dst : π → IPAddress
  sr : IPAddress → List Mac

inductive Failure (ε : Type)
  | dissection (error : ε)
  | failedToFind (ip : IPAddress)
deriving DecidableEq

/-- The argument of one `sendp(Ether(src=..., dst=...)/ipLayer)`. -/
structure Ether (π : Type) where
  src : Mac
  dst : Mac
  layer : π
deriving DecidableEq

structure Lan (π : Type) where
  macDict : MacDict
  sent : List (Ether π)

def Lan.start {π : Type} : Lan π := ⟨Bridge.macDict,[]⟩

def nextHop (ip : IPAddress) : IPAddress := if network.contains ip then ip else dfGw

section
variable {π ε : Type} (scapy : Scapy π ε)

def getMac (cache : MacDict) (ip : IPAddress) : MacDict × Except (Failure ε) Mac :=
  let ip := if ¬ network.contains ip then dfGw else ip
  match cache ip with
  | some mac => (cache,.ok mac)
  | none =>
    match scapy.sr ip with
    | [] => (cache,.error (.failedToFind ip))
    | hwsrc :: _ => (Function.update cache ip (some hwsrc),.ok hwsrc)

def sendPacketToEthernet (lan : Lan π) (ipLayer : π) : Except (Failure ε) (Lan π) :=
  match getMac scapy lan.macDict (scapy.dst ipLayer) with
  | (_,.error failure) => .error failure
  | (cache,.ok dstMac) => .ok ⟨cache,lan.sent ++ [⟨rtosMac,dstMac,ipLayer⟩]⟩

def lanEthernet : Ethernet π (Lan π) (Failure ε) where
  IP packet := (scapy.IP packet).mapError .dissection
  send := sendPacketToEthernet scapy

/-- The MAC address a layer is to be sent to, when its next hop answers. -/
def resolved (layer : π) : Option Mac := (scapy.sr (nextHop (scapy.dst layer))).head?

/-- What the bridge owes the network: every layer whose next hop answers, in order. -/
def deliverable (layers : List π) : List (Ether π) :=
  layers.filterMap (fun layer => (resolved scapy layer).map (fun mac => ⟨rtosMac,mac,layer⟩))

/-- The cache holds, for addresses inside the network, only what `sr` answers. -/
def Fresh (cache : MacDict) : Prop :=
  ∀ ip mac, network.contains ip → cache ip = some mac → (scapy.sr ip).head? = some mac

theorem nextHop_inside (ip : IPAddress) : network.contains (nextHop ip) := by
  unfold nextHop
  split_ifs with inside
  · exact inside
  · decide

theorem fresh_start : Fresh scapy macDict := by
  intro ip mac inside cached
  by_cases same : ip = dotted 1 1 1 1
  · subst same
    exact absurd inside (by decide)
  · rw [macDict,Function.update_of_ne same] at cached
    cases cached

theorem getMac_failed (cache : MacDict) (ip : IPAddress) (failure : Failure ε)
    (failed : (getMac scapy cache ip).2 = .error failure) : (getMac scapy cache ip).1 = cache := by
  simp only [getMac] at failed ⊢
  split at failed
  · cases failed
  · split at failed
    · rfl
    · cases failed

theorem getMac_hop (cache : MacDict) (ip : IPAddress) :
    getMac scapy cache ip =
      match cache (nextHop ip) with
      | some mac => (cache,.ok mac)
      | none =>
        match scapy.sr (nextHop ip) with
        | [] => (cache,.error (.failedToFind (nextHop ip)))
        | hwsrc :: _ => (Function.update cache (nextHop ip) (some hwsrc),.ok hwsrc) := by
  have hop : (if ¬ network.contains ip then dfGw else ip) = nextHop ip := by
    unfold nextHop
    split_ifs <;> rfl
  simp only [getMac,hop]

/-- Through the cache or past it, `get_mac` finds what the next hop answers. -/
theorem getMac_resolves (cache : MacDict) (fresh : Fresh scapy cache) (ip : IPAddress) :
    match (scapy.sr (nextHop ip)).head? with
    | none => getMac scapy cache ip = (cache,.error (.failedToFind (nextHop ip)))
    | some mac => ∃ next, getMac scapy cache ip = (next,.ok mac) ∧ Fresh scapy next := by
  have inside := nextHop_inside ip
  rw [getMac_hop]
  cases cached : cache (nextHop ip) with
  | some mac =>
    rw [fresh _ mac inside cached]
    exact ⟨cache,rfl,fresh⟩
  | none =>
    cases answers : scapy.sr (nextHop ip) with
    | nil => rfl
    | cons hwsrc others =>
      refine ⟨_,rfl,?_⟩
      intro other mac within entry
      by_cases same : other = nextHop ip
      · subst same
        simpa [answers] using entry
      · rw [Function.update_of_ne same] at entry
        exact fresh other mac within entry

theorem getMac_answered (cache : MacDict) (ip : IPAddress) (answered : (scapy.sr (nextHop ip)).head?.isSome) :
    ∃ next mac, getMac scapy cache ip = (next,.ok mac) := by
  rw [getMac_hop]
  cases cache (nextHop ip) with
  | some mac => exact ⟨cache,mac,rfl⟩
  | none =>
    cases answers : scapy.sr (nextHop ip) with
    | nil => simp [answers] at answered
    | cons hwsrc others => exact ⟨_,hwsrc,rfl⟩

/-- Nothing raises on a packet whose next hop answers, whatever the cache holds. -/
theorem take_answered (lan : Lan π) (packet : List Byte) (layer : π) (dissected : scapy.IP packet = .ok layer)
    (answered : (resolved scapy layer).isSome) : ((lanEthernet scapy).take lan packet).isSome := by
  obtain ⟨next,mac,got⟩ := getMac_answered scapy lan.macDict (scapy.dst layer) answered
  have layered : (lanEthernet scapy).IP packet = .ok layer := by
    simp [lanEthernet,dissected,Except.mapError]
  have taken : (lanEthernet scapy).send lan layer = .ok ⟨next,lan.sent ++ [⟨rtosMac,mac,layer⟩]⟩ := by
    simp only [lanEthernet,sendPacketToEthernet,got]
  simp [Ethernet.take,layered,taken,Except.toOption]

theorem sendPacketToEthernet_resolves (lan : Lan π) (fresh : Fresh scapy lan.macDict) (layer : π) :
    match resolved scapy layer with
    | none => ∃ failure, sendPacketToEthernet scapy lan layer = .error failure
    | some mac => ∃ next, sendPacketToEthernet scapy lan layer = .ok next ∧ Fresh scapy next.macDict ∧
        next.sent = lan.sent ++ [⟨rtosMac,mac,layer⟩] := by
  have found := getMac_resolves scapy lan.macDict fresh (scapy.dst layer)
  cases answer : resolved scapy layer with
  | none =>
    rw [resolved] at answer
    rw [answer] at found
    exact ⟨.failedToFind (nextHop (scapy.dst layer)),by simp only [sendPacketToEthernet,found]⟩
  | some mac =>
    rw [resolved] at answer
    rw [answer] at found
    obtain ⟨next,got,kept⟩ := found
    exact ⟨⟨next,_⟩,by simp only [sendPacketToEthernet,got],kept,rfl⟩

/-- One frame: its layer goes out and the worker waits for the next one, or the thread is over
and the network is as it was. -/
theorem recv_frame_resolves (lan : Lan π) (handed : List (List Byte)) (packet : List Byte) (layer : π)
    (starts : StartsOrdinary packet) (dissected : scapy.IP packet = .ok layer) (fresh : Fresh scapy lan.macDict) :
    let worker := slipRecvWorker (lanEthernet scapy) (.between false lan handed) (frame slipCode packet)
    match resolved scapy layer with
    | none => worker.net = lan ∧ ∃ failure, worker.raised = some (.downstream failure)
    | some mac => ∃ next, worker = .between false next (handed ++ [packet]) ∧ Fresh scapy next.macDict ∧
        next.sent = lan.sent ++ [⟨rtosMac,mac,layer⟩] := by
  intro worker
  have order : frame slipCode packet = [slipEnd] ++ (body slipCode packet ++ [slipEnd]) := by
    simp [frame,slipCode]
  have read : worker = handOn (lanEthernet scapy) (.between false lan handed) [packet] := by
    simp only [worker]
    rw [order,slipRecvWorker_append,recv_end,recv_body _ lan handed packet starts]
  have layered : (lanEthernet scapy).IP packet = .ok layer := by
    simp [lanEthernet,dissected,Except.mapError]
  have sent := sendPacketToEthernet_resolves scapy lan fresh layer
  rw [read]
  cases answer : resolved scapy layer with
  | none =>
    rw [answer] at sent
    obtain ⟨failure,raised⟩ := sent
    have refused : (lanEthernet scapy).send lan layer = .error failure := raised
    simp [handOn,dissect,layered,sendEach,Worker.between,refused]
  | some mac =>
    rw [answer] at sent
    obtain ⟨next,passed,kept,grown⟩ := sent
    have taken : (lanEthernet scapy).send lan layer = .ok next := passed
    exact ⟨next,by simp [handOn,dissect,layered,sendEach,Worker.between,taken],kept,grown⟩

/-- The worker sends up to the first layer whose next hop does not answer, and no further. -/
theorem recv_frames_resolve (lan : Lan π) (handed : List (List Byte)) (packets : List (List Byte)) (layers : List π)
    (starts : ∀ packet ∈ packets, StartsOrdinary packet)
    (dissected : List.Forall₂ (fun packet layer => scapy.IP packet = .ok layer) packets layers)
    (fresh : Fresh scapy lan.macDict) :
    (slipRecvWorker (lanEthernet scapy) (.between false lan handed) (packets.flatMap (frame slipCode))).net.sent =
      lan.sent ++ deliverable scapy (layers.takeWhile (fun layer => (resolved scapy layer).isSome)) := by
  induction dissected generalizing lan handed with
  | nil => simp [slipRecvWorker,Worker.between,deliverable]
  | @cons packet layer packets layers first _ ih =>
    have one := recv_frame_resolves scapy lan handed packet layer (starts packet (by simp)) first fresh
    rw [List.flatMap_cons,slipRecvWorker_append]
    cases answer : resolved scapy layer with
    | none =>
      simp only [answer] at one
      obtain ⟨same,failure,raised⟩ := one
      rw [slipRecvWorker_stopped _ _ _ _ raised,same]
      simp [answer,deliverable]
    | some mac =>
      simp only [answer] at one
      obtain ⟨next,passed,kept,grown⟩ := one
      rw [passed,ih next (handed ++ [packet]) (fun other member => starts other (by simp [member])) kept,grown]
      simp [answer,deliverable]

/-- No layer that can be sent stands after one that cannot. -/
def Unblocked (layers : List π) : Prop :=
  layers.Pairwise (fun earlier later => (resolved scapy later).isSome → (resolved scapy earlier).isSome)

theorem unblocked_cons (layer : π) (layers : List π) :
    Unblocked scapy (layer :: layers) ↔
      ((resolved scapy layer).isSome ∧ Unblocked scapy layers) ∨
        (resolved scapy layer = none ∧ ∀ later ∈ layers, resolved scapy later = none) := by
  rw [Unblocked,List.pairwise_cons]
  cases answer : resolved scapy layer with
  | some mac => simp [Unblocked]
  | none =>
    simp only [Option.isSome_none,Bool.false_eq_true,imp_false,Bool.not_eq_true,Option.isSome_eq_false_iff,
      Option.isNone_iff_eq_none,false_and,true_and,false_or,and_iff_left_iff_imp]
    intro silent
    apply List.Pairwise.imp_of_mem ?_ (List.pairwise_of_forall (fun _ _ => trivial))
    intro earlier later _ member _ answered
    simp [silent later member] at answered

theorem deliverable_all (layers : List π) :
    deliverable scapy (layers.takeWhile (fun layer => (resolved scapy layer).isSome)) = deliverable scapy layers ↔
      Unblocked scapy layers := by
  induction layers with
  | nil => simp [deliverable,Unblocked]
  | cons layer layers ih =>
    rw [unblocked_cons]
    cases answer : resolved scapy layer with
    | none => simp [deliverable,answer,eq_comm (a := [])]
    | some mac =>
      simp only [Option.isSome_some,true_and,reduceCtorEq,false_and,or_false]
      rw [← ih]
      simp [deliverable,answer]

/-- The bridge sends every packet whose next hop answers, in order and to the address that
answered, exactly when none of them stands behind a packet whose next hop does not answer. -/
theorem undeliverable_iff (packets : List (List Byte)) (layers : List π) (ipv4 : ∀ packet ∈ packets, IsIPv4 packet)
    (dissected : List.Forall₂ (fun packet layer => scapy.IP packet = .ok layer) packets layers) :
    ((slipRecvWorker (lanEthernet scapy) (.start .start) (packets.flatMap (frame slipCode))).net.sent =
          deliverable scapy layers ∧
        ∀ cache ip failure, (getMac scapy cache ip).2 = .error failure → (getMac scapy cache ip).1 = cache) ↔
      Unblocked scapy layers := by
  have sent := recv_frames_resolve scapy .start [] packets layers
    (fun packet member => ipv4_starts packet (ipv4 packet member)) dissected (fresh_start scapy)
  rw [← deliverable_all]
  change (slipRecvWorker (lanEthernet scapy) (.start .start) _).net.sent = [] ++ _ at sent
  rw [sent,List.nil_append]
  constructor
  · intro whole
    exact whole.1
  · intro whole
    exact ⟨whole,getMac_failed scapy⟩

end

/-- Layers are the packets themselves, and one address of the network answers. -/
def oneAnswer : Scapy (List Byte) Unit where
  IP packet := .ok packet
  dst packet := dotted (packet.getD 16 0).toBitVec (packet.getD 17 0).toBitVec (packet.getD 18 0).toBitVec
    (packet.getD 19 0).toBitVec
  sr ip := if ip = dotted 192 168 43 8 then [0x0a0b0c0d0e0f] else []

def packetTo (host : Byte) : List Byte := 0x45 :: List.replicate 15 0 ++ [192,168,43,host]

theorem packetTo_ipv4 (hosts : List Byte) : ∀ packet ∈ hosts.map packetTo, IsIPv4 packet := by
  intro packet member
  obtain ⟨host,_,rfl⟩ := List.mem_map.mp member
  exact ⟨0x45,rfl,by decide⟩

theorem undeliverable_last :
    (slipRecvWorker (lanEthernet oneAnswer) (.start .start) ([packetTo 8,packetTo 7].flatMap (frame slipCode))).net.sent =
      [⟨rtosMac,0x0a0b0c0d0e0f,packetTo 8⟩] := by
  have whole := (undeliverable_iff oneAnswer [packetTo 8,packetTo 7] [packetTo 8,packetTo 7] (packetTo_ipv4 [8,7])
    (.cons rfl (.cons rfl .nil))).mpr (by unfold Unblocked; decide)
  rw [whole.1]
  decide

/-- Host 7 answers no ARP request; the packet for host 8 behind it is never sent. -/
theorem undeliverable_stops :
    (∀ packet ∈ [packetTo 7,packetTo 8], IsIPv4 packet) ∧
      (slipRecvWorker (lanEthernet oneAnswer) (.start .start) ([packetTo 7,packetTo 8].flatMap (frame slipCode))).raised =
        some (.downstream (.failedToFind (dotted 192 168 43 7))) ∧
      (slipRecvWorker (lanEthernet oneAnswer) (.start .start) ([packetTo 7,packetTo 8].flatMap (frame slipCode))).net.sent =
        [] ∧
      deliverable oneAnswer [packetTo 7,packetTo 8] = [⟨rtosMac,0x0a0b0c0d0e0f,packetTo 8⟩] := by
  exact ⟨packetTo_ipv4 [7,8],by decide +kernel,by decide +kernel,by decide⟩

end Swip.Bridge
