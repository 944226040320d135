import Swip.Bridge.Slip
import Swip.Library.Run

/-! `slipRecvWorker` of `bridge.py`: the thread that reads the serial port one byte at a
time, decodes at every END and hands the packets on. What it hands them to, scapy's
`IP` and `send_packet_to_ethernet`, is a parameter that may raise at any call. -/
namespace Swip.Bridge
open Library.Stuffing Library.Run Slip

/-- `IP` is scapy's dissector; `send` is `send_packet_to_ethernet`, with whatever it
reads and keeps (the network, `MAC_DICT`) in `δ`. -/
structure Ethernet (π δ ε : Type) where
  IP : List Byte → Except ε π
  send : δ → π → Except ε δ

inductive Raised (ε : Type)
  | slipProtocolError
  | downstream (error : ε)
deriving DecidableEq

/-- `handed` lists the arguments of all calls `IP(_pkt=x)` so far, oldest first. An
exception ends the thread: `raised` is then set for good. -/
structure Worker (δ ε : Type) where
  slip : Slip
  net : δ
  handed : List (List Byte)
  raised : Option (Raised ε)

section
variable {π δ ε : Type} (eth : Ethernet π δ ε)

def Worker.start (net : δ) : Worker δ ε := ⟨.init,net,[],none⟩

/-- `map(lambda x: IP(_pkt=x), p_list)`, stopped by the first exception. -/
def dissect (worker : Worker δ ε) : List (List Byte) → Worker δ ε × List π
  | [] => (worker,[])
  | x :: rest =>
    let worker := {worker with handed := worker.handed ++ [x]}
    match eth.IP x with
    | .error error => ({worker with raised := some (.downstream error)},[])
    | .ok layer => ((dissect worker rest).1,layer :: (dissect worker rest).2)

def sendEach (worker : Worker δ ε) : List π → Worker δ ε
  | [] => worker
  | layer :: rest =>
    match eth.send worker.net layer with
    | .error error => {worker with raised := some (.downstream error)}
    | .ok net => sendEach {worker with net := net} rest

def handOn (worker : Worker δ ε) (packets : List (List Byte)) : Worker δ ε :=
  let (worker,layers) := dissect eth worker packets
  if worker.raised.isSome then worker else sendEach eth worker layers

/-- One turn of the `while True` loop, with the byte `port.read()` returned. -/
def recvByte (worker : Worker δ ε) (c : Byte) : Worker δ ε :=
  if worker.raised.isSome then worker
  else
    let slip := worker.slip.appendData [c]
    if c = slipEnd then
      match slip.decode with
      | .error stuck => {worker with slip := stuck, raised := some .slipProtocolError}
      | .ok (slip,packetlist) =>
        let packets := packetlist.filter (fun x => 0 < x.length)
        let worker := {worker with slip := slip}
        if 0 < packets.length then handOn eth worker packets else worker
    else {worker with slip := slip}

def slipRecvWorker (worker : Worker δ ε) (bytes : List Byte) : Worker δ ε :=
  run (recvByte eth) worker bytes

theorem slipRecvWorker_append (worker : Worker δ ε) (first second : List Byte) :
    slipRecvWorker eth worker (first ++ second) =
      slipRecvWorker eth (slipRecvWorker eth worker first) second :=
  run_append _ _ _ _

theorem slipRecvWorker_stopped (worker : Worker δ ε) (bytes : List Byte) (error : Raised ε)
    (stopped : worker.raised = some error) : slipRecvWorker eth worker bytes = worker := by
  induction bytes with
  | nil => rfl
  | cons c bytes ih =>
    have ignored : recvByte eth worker c = worker := by simp [recvByte,stopped]
    change slipRecvWorker eth (recvByte eth worker c) bytes = worker
    rw [ignored,ih]

theorem recv_stretch (worker : Worker δ ε) (stretch : List Byte) (inside : slipEnd ∉ stretch)
    (running : worker.raised = none) :
    slipRecvWorker eth worker stretch =
      {worker with slip := worker.slip.appendData stretch} := by
  induction stretch generalizing worker with
  | nil => simp [slipRecvWorker,appendData]
  | cons c stretch ih =>
    simp only [List.mem_cons,not_or] at inside
    have first : recvByte eth worker c = {worker with slip := worker.slip.appendData [c]} := by
      simp [recvByte,running,Ne.symm inside.1]
    change slipRecvWorker eth (recvByte eth worker c) stretch = _
    rw [first,ih {worker with slip := worker.slip.appendData [c]} inside.2 running]
    simp [appendData]

/-- The worker right after an END, with the escape flag that the END left alone. -/
def Worker.between (escaped : Bool) (net : δ) (handed : List (List Byte)) : Worker δ ε :=
  ⟨⟨false,escaped,[],[]⟩,net,handed,none⟩

theorem recv_closed (escaped : Bool) (net : δ) (handed : List (List Byte)) (stretch : List Byte)
    (inside : slipEnd ∉ stretch) :
    slipRecvWorker eth (.between escaped net handed) (stretch ++ [slipEnd]) =
      match stretch.foldlM decodeChar (⟨false,escaped,stretch ++ [slipEnd],[]⟩,[]) with
      | .error stuck => ⟨stuck,net,handed,some .slipProtocolError⟩
      | .ok (self,_) =>
        if self.started ∧ self.packet ≠ [] then
          handOn eth (.between self.escaped net handed) [self.packet]
        else .between self.escaped net handed := by
  rw [slipRecvWorker_append,recv_stretch eth _ stretch inside rfl]
  simp only [slipRecvWorker,run_cons,run_nil,recvByte,Worker.between,appendData,List.nil_append,Option.isSome_none,
    Bool.false_eq_true,if_false,if_true,decode,List.foldlM_append,List.foldlM_cons,List.foldlM_nil]
  cases decoded : stretch.foldlM decodeChar (⟨false,escaped,stretch ++ [slipEnd],[]⟩,[]) with
  | error stuck => simp only [bind,Except.bind]
  | ok result =>
    obtain ⟨self,packets⟩ := result
    have none : packets = [] := decode_inside _ self [] packets stretch inside decoded
    subst none
    simp only [bind,Except.bind,decodeChar_end,pure,Except.pure]
    by_cases started : self.started <;> by_cases empty : self.packet = [] <;>
      simp [started,empty,List.length_pos_iff]

theorem recv_paired (net : δ) (handed : List (List Byte)) (stretch : List Byte)
    (inside : slipEnd ∉ stretch) (paired : Paired slipCode stretch) :
    slipRecvWorker eth (.between false net handed) (stretch ++ [slipEnd]) =
      if Marked stretch then handOn eth (.between false net handed) [unstuff slipCode stretch]
      else .between false net handed := by
  rw [recv_closed eth false net handed stretch inside,
    decode_stretch _ [] stretch paired inside rfl]
  have nonempty : Marked stretch → unstuff slipCode stretch ≠ [] := by
    intro marked empty
    obtain ⟨c,member,_⟩ := marked
    rw [unstuff_eq_nil slipCode stretch paired] at empty
    simp [empty] at member
  by_cases marked : Marked stretch
  · simp [marked,nonempty marked]
  · simp [marked]

theorem recv_body (net : δ) (handed : List (List Byte)) (packet : List Byte)
    (starts : StartsOrdinary packet) :
    slipRecvWorker eth (.between false net handed) (body slipCode packet ++ [slipEnd]) =
      handOn eth (.between false net handed) [packet] := by
  obtain ⟨first,rest,shape,ordinary⟩ := starts_body packet starts
  have marked : Marked (body slipCode packet) := by
    rw [shape]
    exact marked_ordinary first rest ordinary
  rw [recv_paired eth net handed _ (body_inside slipCode packet) (body_paired slipCode packet),
    if_pos marked,unstuff_body]

theorem recv_end (escaped : Bool) (net : δ) (handed : List (List Byte)) :
    slipRecvWorker eth (.between escaped net handed) [slipEnd] = .between escaped net handed :=
  recv_closed eth escaped net handed [] (by simp)

def Ethernet.take (net : δ) (x : List Byte) : Option δ :=
  match eth.IP x with
  | .error _ => none
  | .ok layer => (eth.send net layer).toOption

def Ethernet.takeAll (net : δ) (packets : List (List Byte)) : Option δ := packets.foldlM eth.take net

theorem takeAll_cons (net : δ) (x : List Byte) (rest : List (List Byte)) :
    eth.takeAll net (x :: rest) = (eth.take net x).bind (eth.takeAll · rest) := by
  rw [Ethernet.takeAll,List.foldlM_cons]
  rfl

/-- Packets that are taken whatever the network is like are taken one after another. -/
theorem takeAll_each (net : δ) (packets : List (List Byte)) (each : ∀ x ∈ packets, ∀ net, (eth.take net x).isSome) :
    (eth.takeAll net packets).isSome := by
  induction packets generalizing net with
  | nil => rfl
  | cons x rest ih =>
    obtain ⟨next,taken⟩ := Option.isSome_iff_exists.mp (each x (by simp) net)
    rw [takeAll_cons,taken]
    exact ih next fun other member => each other (by simp [member])

private theorem dissect_cases (worker : Worker δ ε) (packets : List (List Byte)) :
    ((∃ error, (dissect eth worker packets).1.raised = some (.downstream error)) ∧
        (dissect eth worker packets).1.handed <+: worker.handed ++ packets ∧ ∀ net, eth.takeAll net packets = none) ∨
      ∃ layers, dissect eth worker packets = ({worker with handed := worker.handed ++ packets},layers) ∧
        ∀ net, eth.takeAll net packets = layers.foldlM (fun net layer => (eth.send net layer).toOption) net := by
  induction packets generalizing worker with
  | nil => exact .inr ⟨[],by simp [dissect],fun _ => rfl⟩
  | cons x rest ih =>
    cases dissected : eth.IP x with
    | error error =>
      exact .inl ⟨⟨error,by simp [dissect,dissected]⟩,by simp [dissect,dissected],
        by simp [Ethernet.takeAll,Ethernet.take,dissected]⟩
    | ok layer =>
      rcases ih {worker with handed := worker.handed ++ [x]} with ⟨⟨error,raised⟩,handed,refused⟩ | ⟨layers,passed,taken⟩
      · refine .inl ⟨⟨error,by simp [dissect,dissected,raised]⟩,by simpa [dissect,dissected] using handed,?_⟩
        intro net
        simp only [Ethernet.takeAll] at refused
        cases sent : eth.send net layer <;>
          simp [Ethernet.takeAll,Ethernet.take,dissected,sent,Except.toOption,refused]
      · refine .inr ⟨layer :: layers,by simp [dissect,dissected,passed],?_⟩
        intro net
        simp only [Ethernet.takeAll] at taken
        simp [Ethernet.takeAll,Ethernet.take,dissected,taken]

private theorem sendEach_cases (worker : Worker δ ε) (layers : List π) :
    ((∃ error, (sendEach eth worker layers).raised = some (.downstream error)) ∧
        (sendEach eth worker layers).handed = worker.handed ∧
        layers.foldlM (fun net layer => (eth.send net layer).toOption) worker.net = none) ∨
      ∃ net, layers.foldlM (fun net layer => (eth.send net layer).toOption) worker.net = some net ∧
        sendEach eth worker layers = {worker with net := net} := by
  induction layers generalizing worker with
  | nil => exact .inr ⟨worker.net,rfl,rfl⟩
  | cons layer rest ih =>
    cases sent : eth.send worker.net layer with
    | error error =>
      exact .inl ⟨⟨error,by simp [sendEach,sent]⟩,by simp [sendEach,sent],by simp [sent,Except.toOption]⟩
    | ok net => simpa [sendEach,sent,Except.toOption] using ih {worker with net := net}

theorem handOn_cases (worker : Worker δ ε) (packets : List (List Byte)) (running : worker.raised = none) :
    ((∃ error, (handOn eth worker packets).raised = some (.downstream error)) ∧
        (handOn eth worker packets).handed <+: worker.handed ++ packets ∧ eth.takeAll worker.net packets = none) ∨
      ∃ net, eth.takeAll worker.net packets = some net ∧
        handOn eth worker packets = {worker with net := net, handed := worker.handed ++ packets} := by
  rcases dissect_cases eth worker packets with ⟨⟨error,raised⟩,handed,refused⟩ | ⟨layers,passed,taken⟩
  · refine .inl ⟨⟨error,by simp [handOn,raised]⟩,?_,refused worker.net⟩
    simpa [handOn,raised] using handed
  · have order : handOn eth worker packets = sendEach eth {worker with handed := worker.handed ++ packets} layers := by
      simp [handOn,passed,running]
    rw [order,taken]
    rcases sendEach_cases eth {worker with handed := worker.handed ++ packets} layers with
      ⟨raised,handed,refused⟩ | ⟨net,sent,done⟩
    · exact .inl ⟨raised,by rw [handed],refused⟩
    · exact .inr ⟨net,sent,done⟩

/-- A single packet is handed on in any case. -/
theorem handOn_single (worker : Worker δ ε) (x : List Byte) (running : worker.raised = none) :
    (handOn eth worker [x]).handed = worker.handed ++ [x] := by
  cases dissected : eth.IP x with
  | error error => simp [handOn,dissect,dissected]
  | ok layer => cases sent : eth.send worker.net layer <;> simp [handOn,dissect,dissected,running,sendEach,sent]

end

def openEthernet : Ethernet (List Byte) Unit Unit := ⟨.ok,fun _ _ => .ok ()⟩

private theorem dissect_open (worker : Worker Unit Unit) (packets : List (List Byte)) :
    dissect openEthernet worker packets = ({worker with handed := worker.handed ++ packets},packets) := by
  induction packets generalizing worker with
  | nil => simp [dissect]
  | cons x rest ih => simp [dissect,openEthernet] at ih ⊢; simp [ih]

private theorem sendEach_open (worker : Worker Unit Unit) (layers : List (List Byte)) :
    sendEach openEthernet worker layers = worker := by
  induction layers with
  | nil => rfl
  | cons layer rest ih => exact ih

theorem handOn_open (worker : Worker Unit Unit) (packets : List (List Byte)) :
    handOn openEthernet worker packets = {worker with handed := worker.handed ++ packets} := by
  simp [handOn,dissect_open,sendEach_open]

section
variable {π δ ε : Type} (eth : Ethernet π δ ε)

/-- The same worker in front of two Ethernet sides, of which the second takes every packet. -/
structure Worker.Alike (worker : Worker δ ε) (twin : Worker Unit Unit) : Prop where
  slip : worker.slip = twin.slip
  handed : worker.handed = twin.handed
  raised : worker.raised = none ∧ twin.raised = none ∨
    worker.raised = some .slipProtocolError ∧ twin.raised = some .slipProtocolError

/-- The two are alike until something downstream raises. -/
inductive Worker.Follows (net : δ) (worker : Worker δ ε) (twin : Worker Unit Unit) : Prop
  | same (taken : eth.takeAll net twin.handed = some worker.net) (alike : worker.Alike twin)
  | stopped (refused : eth.takeAll net twin.handed = none) (error : ε) (raised : worker.raised = some (.downstream error))
      (handed : worker.handed <+: twin.handed)

theorem recvByte_hands (twin : Worker Unit Unit) (c : Byte) :
    ∃ more, (recvByte openEthernet twin c).handed = twin.handed ++ more := by
  simp only [recvByte,handOn_open]
  split_ifs with stopped fin
  · exact ⟨[],by simp⟩
  · split
    · exact ⟨[],by simp⟩
    · split_ifs
      · exact ⟨_,rfl⟩
      · exact ⟨[],by simp⟩
  · exact ⟨[],by simp⟩

theorem takeAll_append (net : δ) (first second : List (List Byte)) :
    eth.takeAll net (first ++ second) = (eth.takeAll net first).bind (eth.takeAll · second) := by
  simp [Ethernet.takeAll,List.foldlM_append]

theorem recvByte_follows (net : δ) (worker : Worker δ ε) (twin : Worker Unit Unit) (c : Byte)
    (follows : worker.Follows eth net twin) :
    (recvByte eth worker c).Follows eth net (recvByte openEthernet twin c) := by
  cases follows with
  | stopped refused error raised handed =>
    obtain ⟨more,grown⟩ := recvByte_hands twin c
    have stuck : recvByte eth worker c = worker := by simp [recvByte,raised]
    rw [stuck]
    refine .stopped ?_ error raised ?_
    · rw [grown,takeAll_append,refused]
      rfl
    · rw [grown]
      exact handed.trans (List.prefix_append _ _)
  | same taken alike =>
    obtain ⟨slip,handed,⟨running,twinRunning⟩ | ⟨stopped,twinStopped⟩⟩ := alike
    · by_cases fin : c = slipEnd
      · subst fin
        simp only [recvByte,running,twinRunning,Option.isSome_none,Bool.false_eq_true,if_false,if_true,← slip]
        cases decoded : (worker.slip.appendData [slipEnd]).decode with
        | error stuck => exact .same taken ⟨rfl,handed,.inr ⟨rfl,rfl⟩⟩
        | ok result =>
          obtain ⟨self,packetlist⟩ := result
          simp only [handOn_open]
          split_ifs with some
          · rcases handOn_cases eth ⟨self,worker.net,worker.handed,none⟩ (packetlist.filter (fun x => 0 < x.length)) rfl with
              ⟨⟨error,raised⟩,order,refused⟩ | ⟨next,more,passed⟩
            · refine .stopped ?_ error raised (by simpa [handed] using order)
              rw [takeAll_append,taken]
              exact refused
            · rw [passed]
              refine .same ?_ ⟨rfl,by simp [handed],.inl ⟨rfl,rfl⟩⟩
              rw [takeAll_append,taken]
              exact more
          · exact .same taken ⟨rfl,handed,.inl ⟨rfl,rfl⟩⟩
      · simp only [recvByte,running,twinRunning,Option.isSome_none,Bool.false_eq_true,if_false,if_neg fin]
        exact .same taken ⟨by simp [slip],handed,.inl ⟨rfl,rfl⟩⟩
    · simp only [recvByte,stopped,twinStopped,Option.isSome_some,if_true]
      exact .same taken ⟨slip,handed,.inr ⟨stopped,twinStopped⟩⟩

/-- What the worker does with the line does not depend on what lies behind it, until something
there raises. -/
theorem slipRecvWorker_follows (net : δ) (bytes : List Byte) :
    (slipRecvWorker eth (.start net) bytes).Follows eth net (slipRecvWorker openEthernet (.start ()) bytes) :=
  related_run (recvByte eth) (recvByte openEthernet) (Worker.Follows eth net) (recvByte_follows eth net) _ _ bytes
    (.same rfl ⟨rfl,rfl,.inl ⟨rfl,rfl⟩⟩)

theorem Worker.Follows.outcome {eth : Ethernet π δ ε} {net : δ} {worker : Worker δ ε} {twin : Worker Unit Unit}
    (follows : worker.Follows eth net twin) (running : twin.raised = none) :
    worker.raised ≠ some .slipProtocolError ∧ worker.handed <+: twin.handed ∧
      (worker.raised = none → worker.handed = twin.handed) ∧ (worker.raised = none ↔ (eth.takeAll net twin.handed).isSome) := by
  cases follows with
  | same taken alike =>
    have none : worker.raised = none := by
      rcases alike.raised with ⟨none,_⟩ | ⟨_,stopped⟩
      · exact none
      · simp [running] at stopped
    exact ⟨by simp [none],by rw [alike.handed],fun _ => alike.handed,by simp [none,taken]⟩
  | stopped refused error raised handed => exact ⟨by simp [raised],handed,by simp [raised],by simp [raised,refused]⟩

end

end Swip.Bridge
