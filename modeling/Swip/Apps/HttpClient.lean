import Swip.Apps.Tcp
import Swip.Library.Run

/-! The HTTP client of `http_client.c`. All its connections share one state object, `ghs`. A
function returns `none` where the C code runs over the request buffer. -/
namespace Swip.Apps
open Device

def maxHttpReqSize : Nat := 200

def stringP1 : List Byte := cstr "HEAD /report.html?data="
def stringP2 : List Byte := cstr " HTTP/1.0\r\nHost: swip.com\r\n\r\n"

structure HttpClientState where
  buffer : List Byte
  ptr : Nat
  sizeLeft : Nat

def composed (data : List Byte) : List Byte := stringP1 ++ data ++ stringP2

/-- `SMEMCPY(hs->buffer + hs->size_left, source, length)` and the addition after it. -/
def HttpClientState.append (hs : HttpClientState) (source : List Byte) : Option HttpClientState :=
  if hs.sizeLeft + source.length ≤ hs.buffer.length then
    some {hs with buffer := hs.buffer.take hs.sizeLeft ++ source ++ hs.buffer.drop (hs.sizeLeft + source.length),
                  sizeLeft := (hs.sizeLeft + source.length) % 65536}
  else none

def HttpClientState.compose (hs : HttpClientState) (data : List Byte) : Option HttpClientState := do
  let hs ← ({hs with ptr := 0, sizeLeft := 0} : HttpClientState).append stringP1
  let hs ← hs.append data
  hs.append stringP2

/-- The length of the next attempt after `ERR_MEM`. -/
def retryLen (len : Nat) (writes : List (Nat × ErrT)) : Nat := if (nextWrite writes.tail).1 = 0 then 1 else len / 2

/-- The loop of `my_http_write`: the attempts of `tcp_write` with ever smaller lengths. The
result has the lengths of all attempts in their order. -/
def myHttpWriteLoop (available : Nat) : Nat → Nat → List (Nat × ErrT) → Option (ErrT × Nat × List Nat)
  | 0, _, _ => none
  | fuel + 1, len, writes =>
    if len > available then none
    else if (nextWrite writes).2 = .mem then
      if retryLen len writes > 1 then do
        let (err,last,attempts) ← myHttpWriteLoop available fuel (retryLen len writes) writes.tail
        some (err,last,len :: attempts)
      else some (.mem,retryLen len writes,[len])
    else some ((nextWrite writes).2,len,[len])

/-- `available` is the memory from the pointer to the end of the buffer. The result has the new
value of `*length`, and the lengths passed to `tcp_write`. -/
def myHttpWrite (available length : Nat) (writes : List (Nat × ErrT)) : Option (ErrT × Nat × List Nat) :=
  if length = 0 then some (.ok,0,[])
  else do
    let maxLen := (nextWrite writes).1
    let (err,len,attempts) ← myHttpWriteLoop available (length + 1) (if maxLen < length then maxLen else length) writes
    some (err,if err = .ok then len else 0,attempts)

/-- The result has the bytes `tcp_write` accepted and the lengths of all attempts, each of them
made with the pointer `hs->ptr`. -/
def myHttpSendData (hs : HttpClientState) (writes : List (Nat × ErrT)) :
    Option (HttpClientState × List Byte × List Nat) :=
  if hs.sizeLeft > 0 then do
    let (err,len,attempts) ← myHttpWrite (hs.buffer.length - hs.ptr) hs.sizeLeft writes
    if err = .ok then
      some ({hs with ptr := hs.ptr + len, sizeLeft := hs.sizeLeft - len},(hs.buffer.drop hs.ptr).take len,attempts)
    else some (hs,[],attempts)
  else some (hs,[],[])

/-! ### Connections -/

inductive PcbUse
  | free | other | client (k : Nat)
deriving DecidableEq, Repr

/-- `failed`: no pcb, or `tcp_connect` failed and the pcb is on no list of lwIP's. -/
inductive Phase
  | failed | opening | established | closed
deriving DecidableEq, Repr

/-- What became of one call of `http_send_request`. The counts are of the bytes passed to
`tcpRecvCallback` and of the bytes credited with `tcp_recved`. -/
structure Connection where
  request : List Byte
  written : List Byte
  pcb : Option (Fin 3)
  callbacks : Callbacks
  phase : Phase
  delivered : Nat
  credited : Nat
deriving DecidableEq

def Connection.Alive (c : Connection) : Prop := c.phase = .opening ∨ c.phase = .established

instance (c : Connection) : Decidable c.Alive := inferInstanceAs (Decidable (_ ∨ _))

/-- `pcbs` is the pool of `MEMP_NUM_TCP_PCB` entries, the `k`th connection belongs to the `k`th
call, and `handed` are the pbufs that `tcpRecvCallback` was given. -/
structure Client (n : Nat) where
  ghs : HttpClientState
  pcbs : Fin 3 → PcbUse
  connections : List Connection
  mem : Memory n Byte
  handed : List (Fin n)

variable {n : Nat}

def Client.update (client : Client n) (k : Nat) (c : Connection) : Client n :=
  {client with connections := client.connections.set k c}

def Client.release (client : Client n) (pcb : Option (Fin 3)) : Client n :=
  match pcb with
  | none => client
  | some i => {client with pcbs := Function.update client.pcbs i .free}

def Client.finish (client : Client n) (k : Nat) (c : Connection) : Client n :=
  (client.update k {c with phase := .closed}).release c.pcb

/-- `tcp_new`: a free entry, or, if there is none, the entry of a connection that `tcp_alloc`
aborts for it, or NULL. `none` if the pool cannot answer like this. -/
def Client.tcpNew (client : Client n) : Option (Fin 3) → Option (Client n)
  | none => if ∀ i, client.pcbs i ≠ .free then some client else none
  | some i =>
    match client.pcbs i with
    | .free => some client
    | .other => if ∀ i, client.pcbs i ≠ .free then some client else none
    | .client k =>
      match client.connections[k]? with
      | none => none
      | some c => if (∀ i, client.pcbs i ≠ .free) ∧ c.Alive then some (client.finish k c) else none

/-- What `http_send_request` registers; without a pcb the calls do nothing. -/
def httpCallbacks : Callbacks := {arg := true, recv := true, sent := true, err := true, poll := false}

/-- `connect` is the result of `tcp_connect` when there is a pcb. The code looks at neither. -/
def httpSendRequest (client : Client n) (data : List Byte) (testpcb : Option (Fin 3)) (connect : ErrT) :
    Option (Client n) := do
  let ghs ← client.ghs.compose data
  let phase := if testpcb ≠ none ∧ connect = .ok then .opening else .failed
  let pcbs := match testpcb with
    | none => client.pcbs
    | some i => Function.update client.pcbs i (.client client.connections.length)
  some {client with ghs := ghs, pcbs := pcbs,
                    connections := client.connections ++ [⟨composed data,[],testpcb,httpCallbacks,phase,0,0⟩]}

/-- Both callbacks that send: `connectCallback` and `my_http_sent` pass on `ghs`. -/
def Client.sendData (client : Client n) (k : Nat) (c : Connection) (reply : Reply) : Option (Client n) := do
  let (ghs,accepted,_) ← myHttpSendData client.ghs reply.writes
  some {client.update k {c with phase := .established, written := c.written ++ accepted} with ghs := ghs}

def connectCallback (client : Client n) (k : Nat) (c : Connection) (reply : Reply) : Option (Client n) :=
  client.sendData k c reply

def myHttpSent (client : Client n) (k : Nat) (c : Connection) (reply : Reply) : Option (Client n) :=
  client.sendData k c reply

/-- With a pbuf the callback only prints; without one it aborts the connection. -/
def tcpRecvCallback (client : Client n) (k : Nat) (c : Connection) (p : Option (Fin n)) : Client n :=
  match p with
  | none => client.finish k c
  | some _ => client

inductive ClientEvent (n : Nat)
  | request (data : List Byte) (testpcb : Option (Fin 3)) (connect : ErrT)
  | connected (k : Nat) (reply : Reply)
  | sent (k : Nat) (reply : Reply)
  | recv (k : Nat) (segments : List (Segment n))
  | recvNull (k : Nat)
  | error (k : Nat)
  | others (i : Fin 3)
deriving DecidableEq

def Client.on (client : Client n) (k : Nat) (allowed : Connection → Bool) (act : Connection → Option (Client n)) :
    Option (Client n) :=
  match client.connections[k]? with
  | none => some client
  | some c => if allowed c then act c else some client

def Connection.Receives (c : Connection) : Prop := c.phase = .established ∧ c.callbacks.recv

instance (c : Connection) : Decidable c.Receives := inferInstanceAs (Decidable (_ ∧ _))

/-- lwIP only calls what is registered; `tcp_connect` has its callback as an argument. -/
def Client.step (client : Client n) : ClientEvent n → Option (Client n)
  | .request data testpcb connect =>
    match client.tcpNew testpcb with
    | none => some client
    | some client => httpSendRequest client data testpcb connect
  | .connected k reply => client.on k (·.phase = .opening) fun c => connectCallback client k c reply
  | .sent k reply => client.on k (fun c => c.phase = .established ∧ c.callbacks.sent) fun c => myHttpSent client k c reply
  | .recv k segments =>
    client.on k (·.Receives) fun c =>
      if Arrives client.mem segments then
        let c := {c with delivered := c.delivered + (segmentBytes segments).length}
        let client := {client.update k c with mem := place client.mem (arrived segments),
                                              handed := client.handed ++ segments.map Segment.address}
        some (tcpRecvCallback client k c (segments.head?.map Segment.address))
      else some client
  | .recvNull k => client.on k (·.Receives) fun c => some (tcpRecvCallback client k c none)
  -- `tcpErrorHandler` only prints; lwIP has freed the pcb before
  | .error k => client.on k (·.Alive) fun c => some (client.finish k c)
  -- the rest of the stack takes a pcb or gives one back
  | .others i =>
    match client.pcbs i with
    | .free => some {client with pcbs := Function.update client.pcbs i .other}
    | .other => some {client with pcbs := Function.update client.pcbs i .free}
    | .client _ => some client

def clientStep (client : Option (Client n)) (event : ClientEvent n) : Option (Client n) :=
  client.bind fun client => client.step event

/-- `ghs` is static and starts out zeroed. -/
def Client.start (pcbs : Fin 3 → PcbUse) (cell : Fin n → Option (Pbuf n Byte)) (tab : List (Fin n)) : Client n :=
  ⟨⟨List.replicate maxHttpReqSize 0,0,0⟩,pcbs,[],⟨cell,tab,[]⟩,[]⟩

end Swip.Apps
