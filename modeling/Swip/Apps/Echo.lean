import Swip.Apps.Tcp
import Swip.Library.Run

/-! The TCP echo server of `tcpecho_raw.c`, seen from one connection. A callback returns
`none` where the C code faults or loops for ever. -/
namespace Swip.Apps
open Device

inductive EchoStates
  | none | accepted | received | closing
deriving DecidableEq, Repr

structure EchoState (n : Nat) where
  state : EchoStates
  retries : Nat
  p : Option (Fin n)

inductive PcbFate
  | live | closed | aborted
deriving DecidableEq, Repr

/-- `es` is the allocated state, `none` once it is freed. The rest is history: the bytes
delivered to `echo_recv`, the bytes `tcp_write` accepted, the total of `tcp_recved`, the pbufs
handed to `echo_recv`, and whether the NULL pbuf has been delivered. -/
structure EchoConn (n : Nat) where
  mem : Memory n Byte
  es : Option (EchoState n)
  callbacks : Callbacks
  pcb : PcbFate
  received : List Byte
  written : List Byte
  credited : Nat
  handed : List (Fin n)
  ended : Bool

variable {n : Nat}

/-- `malloc` tells whether `mem_malloc` finds room for the state. -/
def echoAccept (mem : Memory n Byte) (malloc : Bool) : EchoConn n × ErrT :=
  let conn : EchoConn n := ⟨mem,none,⟨false,false,false,false,false⟩,.live,[],[],0,[],false⟩
  if malloc then
    ({conn with es := some ⟨.accepted,0,none⟩, callbacks := ⟨true,true,false,true,true⟩},.ok)
  else (conn,.mem)

/-- The `do ... while (freed == 0)` loop. -/
def freeHard : Nat → Memory n Byte → Fin n → Option (Memory n Byte)
  | 0, _, _ => none
  | fuel + 1, mem, ptr => do
    let (mem,freed) ← pbufFree mem (some ptr)
    if freed = 0 then freeHard fuel mem ptr else some mem

def chop (mem : Memory n Byte) (ptr : Fin n) (next : Option (Fin n)) : Option (Memory n Byte) := do
  let mem ← pbufRef mem next
  freeHard 65536 mem ptr

structure Sending (n : Nat) where
  mem : Memory n Byte
  p : Option (Fin n)
  written : List Byte
  credited : Nat

/-- One turn of the loop of `echo_send`, with the answers of `tcp_sndbuf` and `tcp_write`; the
inner `none` leaves the loop. -/
def echoSendTurn (s : Sending n) (write : Nat × ErrT) : Option (Option (Sending n)) :=
  match s.p with
  | none => some none
  | some ptr => do
    let cell ← s.mem.cell ptr
    if cell.len ≤ write.1 ∧ write.2 = .ok then do
      let mem ← chop s.mem ptr cell.next
      some (some ⟨mem,cell.next,s.written ++ cell.payload.take cell.len,s.credited + cell.len⟩)
    else some none

def echoSendLoop : Nat → Sending n → List (Nat × ErrT) → Option (Sending n)
  | 0, _, _ => none
  | fuel + 1, s, writes => do
    match ← echoSendTurn s (nextWrite writes) with
    | none => some s
    | some next => echoSendLoop fuel next writes.tail

def echoSend (conn : EchoConn n) (es : EchoState n) (reply : Reply) : Option (EchoConn n) := do
  let s ← echoSendLoop (n + 1) ⟨conn.mem,es.p,conn.written,conn.credited⟩ reply.writes
  some {conn with mem := s.mem, es := some {es with p := s.p}, written := s.written, credited := s.credited}

/-- `tcp_close` may fail, and then the pcb stays; the result is not looked at. -/
def echoClose (conn : EchoConn n) (reply : Reply) : EchoConn n :=
  {conn with callbacks := ⟨false,false,false,false,false⟩, es := none,
             pcb := if reply.close = .ok then .closed else conn.pcb}

def tcpSent (conn : EchoConn n) : EchoConn n := {conn with callbacks := {conn.callbacks with sent := true}}

def EchoConn.arg (conn : EchoConn n) : Option (EchoState n) := if conn.callbacks.arg then conn.es else none

theorem arg_state (conn : EchoConn n) (es : EchoState n) (passed : conn.arg = some es) : conn.es = some es := by
  unfold EchoConn.arg at passed
  split at passed
  · exact passed
  · cases passed

def trash (conn : EchoConn n) (es : EchoState n) (p : Fin n) : Option (EchoConn n) := do
  let cell ← conn.mem.cell p
  let (mem,_) ← pbufFree conn.mem (some p)
  some {conn with mem := mem, es := some {es with p := none}, credited := conn.credited + cell.totLen}

def echoRecv (conn : EchoConn n) (p : Option (Fin n)) (err : ErrT) (reply : Reply) : Option (EchoConn n × ErrT) := do
  let es ← conn.arg
  match p with
  | none =>
    let es := {es with state := .closing}
    match es.p with
    | none => some (echoClose conn reply,.ok)
    | some _ => do
      let conn ← echoSend (tcpSent conn) es reply
      some (conn,.ok)
  | some p =>
    if err ≠ .ok then do
      let (mem,_) ← pbufFree conn.mem (some p)
      some ({conn with mem := mem, es := some {es with p := none}},err)
    else
      match es.state with
      | .accepted => do
        let conn ← echoSend (tcpSent conn) {es with state := .received, p := some p} reply
        some (conn,.ok)
      | .received =>
        match es.p with
        | none => do
          let conn ← echoSend (tcpSent conn) {es with p := some p} reply
          some (conn,.ok)
        | some ptr => do
          let mem ← pbufChain conn.mem ptr p
          some ({conn with mem := mem},.ok)
      | .closing => do
        let conn ← trash conn es p
        some (conn,.ok)
      | .none => do
        let conn ← trash conn es p
        some (conn,.ok)

/-- lwIP has already freed the pcb when it calls this. -/
def echoError (conn : EchoConn n) : EchoConn n := {conn with es := none, pcb := .aborted}

def echoPoll (conn : EchoConn n) (reply : Reply) : Option (EchoConn n × ErrT) :=
  match conn.arg with
  | some es =>
    match es.p with
    | some _ => do
      let conn ← echoSend (tcpSent conn) es reply
      some (conn,.ok)
    | none =>
      if es.state = .closing then some (echoClose conn reply,.ok) else some (conn,.ok)
  | none => some ({conn with pcb := .aborted},.abrt)

def echoSent (conn : EchoConn n) (reply : Reply) : Option (EchoConn n × ErrT) := do
  let es ← conn.arg
  let es := {es with retries := 0}
  match es.p with
  | some _ => do
    let conn ← echoSend (tcpSent conn) es reply
    some (conn,.ok)
  | none =>
    if es.state = .closing then some (echoClose conn reply,.ok) else some ({conn with es := some es},.ok)

/-! ### Runs -/

inductive EchoEvent (n : Nat)
  | recv (segments : List (Segment n)) (err : ErrT) (reply : Reply)
  | recvNull (err : ErrT) (reply : Reply)
  | sent (reply : Reply)
  | poll (reply : Reply)
  | error
deriving DecidableEq

/-- The packet is in memory and on record when `echo_recv` is called with it. -/
def EchoConn.deliver (conn : EchoConn n) (segments : List (Segment n)) : EchoConn n :=
  {conn with mem := place conn.mem (arrived segments), received := conn.received ++ segmentBytes segments,
             handed := conn.handed ++ segments.map Segment.address}

/-- lwIP only calls what is registered, and nothing of a pcb that is gone. -/
def EchoConn.step (conn : EchoConn n) : EchoEvent n → Option (EchoConn n)
  | .recv segments err reply =>
    if conn.pcb = .live ∧ conn.callbacks.recv ∧ Arrives conn.mem segments then
      (echoRecv (conn.deliver segments) (segments.head?.map Segment.address) err reply).map Prod.fst
    else some conn
  | .recvNull err reply =>
    if conn.pcb = .live ∧ conn.callbacks.recv then
      (echoRecv {conn with ended := true} none err reply).map Prod.fst
    else some conn
  | .sent reply =>
    if conn.pcb = .live ∧ conn.callbacks.sent then (echoSent conn reply).map Prod.fst else some conn
  | .poll reply =>
    if conn.pcb = .live ∧ conn.callbacks.poll then (echoPoll conn reply).map Prod.fst else some conn
  | .error => if conn.pcb = .live ∧ conn.callbacks.err then some (echoError conn) else some conn

def echoStep (conn : Option (EchoConn n)) (event : EchoEvent n) : Option (EchoConn n) :=
  conn.bind fun conn => conn.step event

def EchoConn.queued (conn : EchoConn n) : List Byte :=
  match conn.es with
  | none => []
  | some es => payloadFrom conn.mem n es.p

end Swip.Apps
