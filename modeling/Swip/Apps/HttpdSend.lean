import Swip.Apps.Echo
import Swip.Apps.HttpdRequest

/-! The sending side of `httpd.c`: `http_send` with what it calls, and the callbacks of one
connection. The contents of the files are `rom`; they have the HTTP header included. -/
namespace Swip.Apps

def httpdMaxRetries : Nat := 4
def tcpSndQueuelen : Nat := 8

/-- What the stack answers during one callback: `tcp_sndbuf` and `tcp_mss` at first, for each
call of `tcp_write` its result with `tcp_sndbuf` and `tcp_sndqueuelen` after it, and the result
of `tcp_close`. When the list is used up the send buffer is full. -/
structure Answers where
  sndbuf : Nat
  mss : Nat
  tries : List (ErrT × Nat × Nat)
  close : ErrT
deriving DecidableEq, Repr

/-! ### Writing -/

/-- The loop of `http_write`, with the result of its last `tcp_write` and the length on return. -/
def writeLoop : List (ErrT × Nat × Nat) → Nat → ErrT × Nat
  | [], _ => (.mem,0)
  | (.ok,_,_) :: _, len => (.ok,len)
  | (.mem,sndbuf,sndqueuelen) :: tries, len =>
    let len := if sndbuf = 0 ∨ sndqueuelen ≥ tcpSndQueuelen then 1 else len / 2
    if len > 1 then writeLoop tries len else (.mem,0)
  | (err,_,_) :: _, _ => (err,0)

def httpWrite (answers : Answers) (length : Nat) : ErrT × Nat :=
  if length = 0 then (.ok,0)
  else writeLoop answers.tries (min (min length answers.sndbuf) (2 * answers.mss))

/-! ### The state of a connection -/

structure FsFile where
  data : List Byte
  len : Nat
  index : Nat
deriving DecidableEq, Repr

/-- What `fs_open` fills in for the file it has found. -/
def fsFile (rom : List Byte → List Byte) (name : List Byte) : FsFile := ⟨rom name,(rom name).length,(rom name).length⟩

def fsBytesLeft (file : FsFile) : Int := file.len - file.index

/-- `hs->handle`, and the `hs->left` bytes from `hs->file` on. -/
structure OpenFile where
  handle : FsFile
  file : List Byte
deriving DecidableEq, Repr

/-- `sending` is `none` while `hs->handle` is NULL; `hs->left` is 0 then. -/
structure HttpState where
  req : List (List Byte)
  sending : Option OpenFile
  retries : Nat
deriving DecidableEq, Repr

def httpStateInit : HttpState := ⟨[],none,0⟩

def HttpState.left (hs : HttpState) : Nat := (hs.sending.map (·.file.length)).getD 0

/-- `hs` is the allocated state, `none` once it is freed. The rest is history: the chains
`http_recv` was given, the URIs `http_find_file` was called with, what `http_init_file` made
ready, the bytes `tcp_write` accepted, and whether `http_eof` has been reached. -/
structure HttpConn where
  hs : Option HttpState
  callbacks : Callbacks
  pcb : PcbFate
  received : List (List (List Byte))
  found : List (List Byte)
  response : Option (List Byte)
  written : List Byte
  eof : Bool
deriving DecidableEq, Repr

/-- `http_accept` when the state could be allocated. -/
def HttpConn.accept : HttpConn := ⟨some httpStateInit,⟨true,true,true,true,true⟩,.live,[],[],none,[],false⟩

def HttpConn.arg (conn : HttpConn) : Option HttpState := if conn.callbacks.arg then conn.hs else none

/-- A connection that cannot be closed now is left to `http_poll`, which is passed NULL. -/
def httpCloseConn (conn : HttpConn) (answers : Answers) : HttpConn :=
  {conn with hs := none, callbacks := ⟨false,false,false,false,answers.close ≠ .ok⟩,
             pcb := if answers.close = .ok then .closed else conn.pcb}

def httpEof (conn : HttpConn) (answers : Answers) : HttpConn := httpCloseConn {conn with eof := true} answers

/-- The part of the response behind the header, which a client of HTTP/0.9 does not know. -/
def httpInitFile (hs : HttpState) (file : Option FsFile) (is09 : Bool) : HttpState :=
  match file with
  | none => {hs with sending := none, retries := 0}
  | some file =>
    let start := if is09 then lwipStrnstr file.data (crlf ++ crlf) else none
    {hs with sending := some ⟨file,file.data.drop (start.elim 0 (· + 4))⟩, retries := 0}

/-! ### OpenFile -/

/-- The result tells whether there is something to send. The files are in memory as a whole, so
that there is nothing to read when `hs->left` is 0. -/
def httpCheckEof (conn : HttpConn) (hs : HttpState) (answers : Answers) : HttpConn × Bool :=
  match hs.sending with
  | none => (httpEof conn answers,false)
  | some sending => if fsBytesLeft sending.handle ≤ 0 then (httpEof conn answers,false) else (conn,true)

/-- The result has what is left to send, what was written, and whether `tcp_output` is needed. -/
def httpSendDataNonssi (sending : OpenFile) (answers : Answers) : OpenFile × List Byte × Bool :=
  match httpWrite answers (min sending.file.length 65535) with
  | (.ok,len) => ({sending with file := sending.file.drop len},sending.file.take len,true)
  | _ => (sending,[],false)

def httpSend (conn : HttpConn) (hs : HttpState) (answers : Answers) : HttpConn :=
  let (conn,more) := if hs.left = 0 then httpCheckEof conn hs answers else (conn,true)
  match more, hs.sending with
  | true, some sending =>
    let (sending,written,_) := httpSendDataNonssi sending answers
    let conn := {conn with hs := some {hs with sending := some sending}, written := conn.written ++ written}
    if sending.file.length = 0 ∧ fsBytesLeft sending.handle ≤ 0 then httpEof conn answers else conn
  | _, _ => conn

/-! ### Callbacks -/

def httpErr (conn : HttpConn) : HttpConn := {conn with hs := none, pcb := .aborted}

def httpSent (conn : HttpConn) (answers : Answers) : HttpConn :=
  match conn.arg with
  | none => conn
  | some hs =>
    let hs := {hs with retries := 0}
    httpSend {conn with hs := some hs} hs answers

def httpPoll (conn : HttpConn) (answers : Answers) : HttpConn :=
  match conn.arg with
  | none => httpCloseConn conn answers
  | some hs =>
    let hs := {hs with retries := (hs.retries + 1) % 256}
    let conn := {conn with hs := some hs}
    if hs.retries = httpdMaxRetries then httpCloseConn conn answers
    else if hs.sending.isSome then httpSend conn hs answers
    else conn

/-- `http_recv` once `http_parse_request` has returned `parsed`. -/
def httpParsed (rom : List Byte → List Byte) (conn : HttpConn) (hs : HttpState) (server : Server) (parsed : ErrT)
    (answers : Answers) : HttpConn :=
  let hs := {hs with req := if parsed = .inprogress then server.req else []}
  let conn := {conn with hs := some hs, found := server.found}
  if parsed = .ok then
    let hs := httpInitFile hs (server.handle.map (fsFile rom ·.1)) (server.handle.elim false (·.2))
    httpSend {conn with hs := some hs, response := some (hs.sending.elim [] (·.file))} hs answers
  else if parsed = .arg then httpCloseConn conn answers
  else conn

def HttpConn.httpRecv (rom : List Byte → List Byte) (globals : Globals) (conn : HttpConn) (p : Option (List (List Byte)))
    (err : ErrT) (answers : Answers) : Except Fault (Globals × HttpConn) :=
  match p, conn.arg with
  | some p, some hs =>
    if err ≠ .ok then .ok (globals,httpCloseConn conn answers)
    else
      let conn := {conn with received := conn.received ++ [p]}
      if hs.sending.isSome then .ok (globals,conn)
      else match httpParseRequest ⟨globals,hs.req,none,false,none,conn.found⟩ p with
        | (_,.error fault) => .error fault
        | (server,.ok parsed) => .ok (server.globals,httpParsed rom conn hs server parsed answers)
  | _, _ => .ok (globals,httpCloseConn conn answers)

/-- What lwIP does with data when no callback is registered for it. -/
def tcpRecvNull (conn : HttpConn) (p : Option (List (List Byte))) (err : ErrT) (answers : Answers) : HttpConn :=
  if p = none ∧ err = .ok ∧ answers.close = .ok then {conn with pcb := .closed} else conn

/-! ### The server -/

inductive HttpEvent
  | recv (p : Option (List (List Byte))) (err : ErrT) (answers : Answers)
  | sent (answers : Answers)
  | poll (answers : Answers)
  | err
deriving DecidableEq, Repr

def HttpConn.step (rom : List Byte → List Byte) (globals : Globals) (conn : HttpConn) (event : HttpEvent) :
    Except Fault (Globals × HttpConn) :=
  if conn.pcb ≠ .live then .ok (globals,conn)
  else match event with
    | .recv p err answers =>
      if conn.callbacks.recv then conn.httpRecv rom globals p err answers
      else .ok (globals,tcpRecvNull conn p err answers)
    | .sent answers => .ok (globals,if conn.callbacks.sent then httpSent conn answers else conn)
    | .poll answers => .ok (globals,if conn.callbacks.poll then httpPoll conn answers else conn)
    | .err => .ok (globals,if conn.callbacks.err then httpErr conn else {conn with pcb := .aborted})

structure Httpd where
  globals : Globals
  conns : List HttpConn

/-- `accept` is a completed handshake; without memory for the state the pcb is aborted. -/
inductive HttpdEvent
  | accept (allocated : Bool)
  | callback (i : Nat) (event : HttpEvent)
deriving DecidableEq, Repr

def Httpd.step (rom : List Byte → List Byte) (httpd : Httpd) : HttpdEvent → Except Fault Httpd
  | .accept allocated => .ok (if allocated then {httpd with conns := httpd.conns ++ [.accept]} else httpd)
  | .callback i event =>
    match httpd.conns[i]? with
    | none => .ok httpd
    | some conn => do
      let (globals,conn) ← conn.step rom httpd.globals event
      return ⟨globals,httpd.conns.set i conn⟩

/-- A fault stops the device. -/
def httpdStep (rom : List Byte → List Byte) (state : Except Fault Httpd) (event : HttpdEvent) : Except Fault Httpd :=
  state.bind (·.step rom event)

end Swip.Apps
