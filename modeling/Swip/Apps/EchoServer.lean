import Swip.Apps.Echo

/-! All connections of the echo server at once. They share the memory, and everything else on
the device may change it between two callbacks. -/
namespace Swip.Apps
open Device Library.Run

variable {n : Nat}

structure EchoServer (n : Nat) where
  mem : Memory n Byte
  conns : List (EchoConn n)

/-- `accept` is a completed handshake, `callback` an event of one connection. `memory` is
whatever the rest of the device does to the memory. `drop` is lwIP giving up a pcb on its own,
which it does without a callback only if no error callback is registered. -/
inductive ServerEvent (n : Nat)
  | accept (malloc : Bool)
  | callback (i : Nat) (event : EchoEvent n)
  | memory (mem : Memory n Byte)
  | drop (i : Nat) (fate : PcbFate)

/-- `tcp_process` aborts the connection when the accept callback returns an error. -/
def tcpProcessAccept (mem : Memory n Byte) (malloc : Bool) : EchoConn n :=
  match echoAccept mem malloc with
  | (conn,.ok) => conn
  | (conn,_) => {conn with pcb := .aborted}

def EchoConn.drop (conn : EchoConn n) (fate : PcbFate) : EchoConn n :=
  if conn.pcb = .live ∧ ¬ conn.callbacks.err then {conn with pcb := fate} else conn

def EchoServer.step (server : EchoServer n) : ServerEvent n → Option (EchoServer n)
  | .accept malloc => some {server with conns := server.conns ++ [tcpProcessAccept server.mem malloc]}
  | .callback i event =>
    match server.conns[i]? with
    | none => some server
    | some conn => do
      let next ← EchoConn.step {conn with mem := server.mem} event
      some ⟨next.mem,server.conns.set i next⟩
  | .memory mem => some {server with mem := mem}
  | .drop i fate =>
    match server.conns[i]? with
    | none => some server
    | some conn => some {server with conns := server.conns.set i (conn.drop fate)}

def serverStep (server : Option (EchoServer n)) (event : ServerEvent n) : Option (EchoServer n) :=
  server.bind fun server => server.step event

/-- A pcb that is still open has a callback through which the server can close it. -/
def EchoConn.Attended (conn : EchoConn n) : Prop :=
  conn.pcb = .live →
    (conn.callbacks.recv = true ∧ conn.callbacks.arg = true ∧ conn.es.isSome = true) ∨ conn.callbacks.poll = true

instance (conn : EchoConn n) : Decidable conn.Attended :=
  inferInstanceAs (Decidable (_ → _))

def EchoServer.Attended (server : EchoServer n) : Prop := ∀ conn ∈ server.conns, conn.Attended

/-- Whenever the callback calls `echo_close`, `tcp_close` succeeds. -/
def EchoConn.Closes (conn : EchoConn n) : EchoEvent n → Prop
  | .recvNull _ reply =>
    conn.pcb = .live ∧ conn.callbacks.recv → ∀ es ∈ conn.arg, es.p = none → reply.close = .ok
  | .sent reply =>
    conn.pcb = .live ∧ conn.callbacks.sent → ∀ es ∈ conn.arg, es.p = none → es.state = .closing → reply.close = .ok
  | .poll reply =>
    conn.pcb = .live ∧ conn.callbacks.poll → ∀ es ∈ conn.arg, es.p = none → es.state = .closing → reply.close = .ok
  | _ => True

def EchoServer.Closes (server : EchoServer n) : ServerEvent n → Prop
  | .callback i event => ∀ conn ∈ server.conns[i]?, conn.Closes event
  | _ => True

/-- The connection goes on: its state lives and no callback is taken away. -/
structure Continues (conn next : EchoConn n) : Prop where
  pcb : next.pcb = conn.pcb
  state : next.es.isSome = true
  arg : next.callbacks.arg = conn.callbacks.arg
  recv : next.callbacks.recv = conn.callbacks.recv
  poll : next.callbacks.poll = conn.callbacks.poll

theorem Continues.attended {conn next : EchoConn n} (continues : Continues conn next) (attended : conn.Attended) :
    next.Attended := by
  intro live
  rw [continues.pcb] at live
  rw [continues.recv,continues.arg,continues.poll]
  rcases attended live with ⟨recv,arg,_⟩ | poll
  · exact .inl ⟨recv,arg,continues.state⟩
  · exact .inr poll

theorem closed_attended (conn : EchoConn n) (reply : Reply) (live : conn.pcb = .live) :
    (echoClose conn reply).Attended ↔ reply.close = .ok := by
  by_cases closed : reply.close = .ok
  · simp [EchoConn.Attended,echoClose,closed]
  · simp [EchoConn.Attended,echoClose,closed,live]

theorem echoSend_continues (conn next : EchoConn n) (es : EchoState n) (reply : Reply) (code : ErrT)
    (step : ((echoSend (tcpSent conn) es reply).bind fun conn => some (conn,ErrT.ok)) = some (next,code)) :
    Continues conn next := by
  simp only [Option.bind_eq_some_iff,Option.some.injEq,Prod.mk.injEq] at step
  obtain ⟨after,sent,rfl,_⟩ := step
  simp only [echoSend,Option.bind_eq_bind,Option.bind_eq_some_iff] at sent
  obtain ⟨s,_,done⟩ := sent
  obtain rfl := Option.some.inj done
  exact ⟨rfl,rfl,rfl,rfl,rfl⟩

theorem trash_continues (conn next : EchoConn n) (es : EchoState n) (p : Fin n) (code : ErrT)
    (step : ((trash conn es p).bind fun conn => some (conn,ErrT.ok)) = some (next,code)) : Continues conn next := by
  obtain ⟨after,trashed,done⟩ := Option.bind_eq_some_iff.mp step
  obtain ⟨rfl,_⟩ : after = next ∧ _ := by simpa using done
  simp only [trash,Option.bind_eq_bind,Option.bind_eq_some_iff] at trashed
  obtain ⟨cell,_,freed,_,result⟩ := trashed
  obtain rfl := Option.some.inj result
  exact ⟨rfl,rfl,rfl,rfl,rfl⟩

theorem echoRecv_continues (conn next : EchoConn n) (p : Fin n) (err code : ErrT) (reply : Reply)
    (step : echoRecv conn (some p) err reply = some (next,code)) : Continues conn next := by
  simp only [echoRecv,Option.bind_eq_bind,Option.bind_eq_some_iff] at step
  obtain ⟨es,passed,step⟩ := step
  split_ifs at step with bad
  · obtain ⟨⟨mem,count⟩,_,done⟩ := Option.bind_eq_some_iff.mp step
    obtain ⟨rfl,_⟩ : _ = next ∧ _ := by simpa using done
    exact ⟨rfl,rfl,rfl,rfl,rfl⟩
  · split at step
    · exact echoSend_continues conn next _ reply code step
    · split at step
      · exact echoSend_continues conn next _ reply code step
      · obtain ⟨mem,_,done⟩ := Option.bind_eq_some_iff.mp step
        obtain ⟨rfl,_⟩ : _ = next ∧ _ := by simpa using done
        exact ⟨rfl,by simp [arg_state conn es passed],rfl,rfl,rfl⟩
    · exact trash_continues conn next es p code step
    · exact trash_continues conn next es p code step

/-- A callback that is enabled: what it returns is attended in every case, or it ends in
`echo_close` and is attended exactly if `tcp_close` succeeds. -/
theorem called_attended (conn : EchoConn n) (enabled : Prop) [Decidable enabled] (call : Option (EchoConn n × ErrT))
    (good : Prop) (attended : conn.Attended)
    (exactly : enabled → ((∀ next code, call = some (next,code) → next.Attended) ↔ good)) :
    (∀ next, (if enabled then call.map Prod.fst else some conn) = some next → next.Attended) ↔ (enabled → good) := by
  by_cases on : enabled
  · rw [if_pos on,← exactly on]
    constructor
    · intro all _ next code called
      exact all next (by rw [called]; rfl)
    · intro all next called
      obtain ⟨⟨after,code⟩,passed,rfl⟩ := Option.map_eq_some_iff.mp called
      exact all on after code passed
  · rw [if_neg on]
    constructor
    · intro _ impossible
      exact absurd impossible on
    · intro _ next same
      obtain rfl := Option.some.inj same
      exact attended

theorem recvNull_attended (conn : EchoConn n) (err : ErrT) (reply : Reply) (attended : conn.Attended)
    (live : conn.pcb = .live) :
    (∀ next code, echoRecv {conn with ended := true} none err reply = some (next,code) → next.Attended) ↔
      ∀ es ∈ conn.arg, es.p = none → reply.close = .ok := by
  have same : EchoConn.arg {conn with ended := true} = conn.arg := rfl
  cases passed : conn.arg with
  | none => simp [echoRecv,same,passed]
  | some es =>
    cases queued : es.p with
    | none =>
      have closed := closed_attended {conn with ended := true} reply live
      simp [echoRecv,same,passed,queued,closed]
    | some ptr =>
      simp only [Option.mem_def,Option.some.injEq,forall_eq',queued,reduceCtorEq,false_imp_iff,iff_true]
      intro next code step
      simp only [echoRecv,same,passed,Option.bind_eq_bind,Option.bind_some,queued] at step
      exact (echoSend_continues _ next _ reply code step).attended attended

theorem sent_attended (conn : EchoConn n) (reply : Reply) (attended : conn.Attended) (live : conn.pcb = .live) :
    (∀ next code, echoSent conn reply = some (next,code) → next.Attended) ↔
      ∀ es ∈ conn.arg, es.p = none → es.state = .closing → reply.close = .ok := by
  cases passed : conn.arg with
  | none => simp [echoSent,passed]
  | some es =>
    cases queued : es.p with
    | none =>
      by_cases closing : es.state = .closing
      · simp [echoSent,passed,queued,closing,closed_attended conn reply live]
      · have continues : Continues conn {conn with es := some ⟨es.state,0,none⟩} := ⟨rfl,rfl,rfl,rfl,rfl⟩
        simp [echoSent,passed,queued,closing,continues.attended attended]
    | some ptr =>
      simp only [Option.mem_def,Option.some.injEq,forall_eq',queued,reduceCtorEq,false_imp_iff,iff_true]
      intro next code step
      simp only [echoSent,passed,Option.bind_eq_bind,Option.bind_some,queued] at step
      exact (echoSend_continues conn next _ reply code step).attended attended

theorem poll_attended (conn : EchoConn n) (reply : Reply) (attended : conn.Attended) (live : conn.pcb = .live) :
    (∀ next code, echoPoll conn reply = some (next,code) → next.Attended) ↔
      ∀ es ∈ conn.arg, es.p = none → es.state = .closing → reply.close = .ok := by
  cases passed : conn.arg with
  | none => simp [echoPoll,passed,EchoConn.Attended]
  | some es =>
    cases queued : es.p with
    | none =>
      by_cases closing : es.state = .closing
      · simp [echoPoll,passed,queued,closing,closed_attended conn reply live]
      · simp [echoPoll,passed,queued,closing,attended]
    | some ptr =>
      simp only [Option.mem_def,Option.some.injEq,forall_eq',queued,reduceCtorEq,false_imp_iff,iff_true]
      intro next code step
      simp only [echoPoll,passed,Option.bind_eq_bind,queued] at step
      exact (echoSend_continues conn next _ reply code step).attended attended

theorem step_attended (conn : EchoConn n) (event : EchoEvent n) (attended : conn.Attended) :
    (∀ next, conn.step event = some next → next.Attended) ↔ conn.Closes event := by
  cases event with
  | recv segments err reply =>
    simp only [EchoConn.Closes,iff_true]
    apply (called_attended conn _ _ True attended ?_).mpr (fun _ => trivial)
    intro on
    obtain ⟨s,rest,shape⟩ := List.exists_cons_of_ne_nil on.2.2.1
    simp only [iff_true]
    intro next code step
    rw [shape] at step
    exact (echoRecv_continues _ next s.address err code reply step).attended attended
  | recvNull err reply =>
    exact called_attended conn _ _ _ attended (fun on => recvNull_attended conn err reply attended on.1)
  | sent reply => exact called_attended conn _ _ _ attended (fun on => sent_attended conn reply attended on.1)
  | poll reply => exact called_attended conn _ _ _ attended (fun on => poll_attended conn reply attended on.1)
  | error =>
    simp only [EchoConn.Closes,iff_true,EchoConn.step]
    intro next step
    split at step
    · obtain rfl := Option.some.inj step
      simp [EchoConn.Attended,echoError]
    · obtain rfl := Option.some.inj step
      exact attended

theorem accepted_attended (mem : Memory n Byte) (malloc : Bool) : (tcpProcessAccept mem malloc).Attended := by
  cases malloc <;> simp [tcpProcessAccept,echoAccept,EchoConn.Attended]

theorem dropped_attended (conn : EchoConn n) (fate : PcbFate) (attended : conn.Attended) : (conn.drop fate).Attended := by
  unfold EchoConn.drop
  split_ifs with alone
  · intro _
    exact attended alone.1
  · exact attended

theorem set_attended (conns : List (EchoConn n)) (i : Nat) (conn next : EchoConn n) (found : conns[i]? = some conn)
    (attended : ∀ conn ∈ conns, conn.Attended) : (∀ other ∈ conns.set i next, other.Attended) ↔ next.Attended := by
  have inside : i < conns.length := (List.getElem?_eq_some_iff.mp found).1
  constructor
  · intro all
    exact all next (List.mem_set inside next)
  · intro good other member
    rcases List.mem_or_eq_of_mem_set member with earlier | rfl
    · exact attended other earlier
    · exact good

theorem server_attended (server : EchoServer n) (event : ServerEvent n) (attended : server.Attended) :
    (∀ next, server.step event = some next → next.Attended) ↔ server.Closes event := by
  cases event with
  | accept malloc =>
    simp only [EchoServer.step,EchoServer.Closes,iff_true,Option.some.injEq,forall_eq']
    intro conn member
    rcases List.mem_append.mp member with earlier | last
    · exact attended conn earlier
    · rw [List.mem_singleton.mp last]
      exact accepted_attended server.mem malloc
  | callback i event =>
    cases found : server.conns[i]? with
    | none =>
      simp only [EchoServer.step,EchoServer.Closes,found]
      simpa using attended
    | some conn =>
      have here := attended conn (List.mem_of_getElem? found)
      have exactly := step_attended {conn with mem := server.mem} event here
      have same : EchoConn.Closes {conn with mem := server.mem} event ↔ conn.Closes event := by cases event <;> rfl
      simp only [EchoServer.Closes,found,Option.mem_def,Option.some.injEq,forall_eq',← same,← exactly]
      simp only [EchoServer.step,found,Option.bind_eq_bind,Option.bind_eq_some_iff]
      constructor
      · intro all next step
        exact (set_attended server.conns i conn next found attended).mp (all _ ⟨next,step,rfl⟩)
      · intro all after stepped
        obtain ⟨next,step,done⟩ := stepped
        obtain rfl := Option.some.inj done
        exact (set_attended server.conns i conn next found attended).mpr (all next step)
  | memory mem =>
    simp only [EchoServer.step,EchoServer.Closes,iff_true,Option.some.injEq,forall_eq']
    exact attended
  | drop i fate =>
    simp only [EchoServer.Closes,iff_true]
    intro next step
    simp only [EchoServer.step] at step
    split at step
    · obtain rfl := Option.some.inj step
      exact attended
    · rename_i conn found
      obtain rfl := Option.some.inj step
      exact (set_attended server.conns i conn _ found attended).mpr
        (dropped_attended conn fate (attended conn (List.mem_of_getElem? found)))

def EchoServer.start (mem : Memory n Byte) : EchoServer n := ⟨mem,[]⟩

/-- No state of a run holds an orphaned connection exactly if, whenever a callback of the run
calls `echo_close`, `tcp_close` succeeds. -/
theorem no_orphans_iff (mem : Memory n Byte) (events : List (ServerEvent n)) :
    (∀ early, early <+: events →
        ∀ server ∈ run serverStep (some (EchoServer.start mem)) early, ∀ conn ∈ server.conns, conn.Attended) ↔
      Along serverStep (WhileRunning EchoServer.Closes) (some (EchoServer.start mem)) events := by
  apply always_iff_along serverStep (WhileRunning EchoServer.Closes) (fun _ => True)
    (fun state => ∀ server ∈ state, server.Attended)
  · intro state event _ attended
    refine ⟨trivial,?_⟩
    cases state with
    | none => simp [serverStep,WhileRunning]
    | some server =>
      have exactly := server_attended server event (attended server rfl)
      simpa [serverStep,WhileRunning] using exactly
  · trivial
  · intro server start
    obtain rfl := Option.some.inj start
    intro conn member
    simp [EchoServer.start] at member

/-- The peer closes and `tcp_close` is out of memory: the pcb stays open and nobody is left to
close it. -/
theorem orphan_left :
    ∃ server ∈ run serverStep (some (EchoServer.start (⟨fun _ => none,[],[]⟩ : Memory 1 Byte)))
        [.accept true,.callback 0 (.recvNull .ok ⟨[],.mem⟩)],
      ∃ conn ∈ server.conns, conn.pcb = .live ∧ conn.es.isNone ∧ conn.callbacks = ⟨false,false,false,false,false⟩ ∧
        ¬ conn.Attended :=
  ⟨_,rfl,_,List.mem_singleton.mpr rfl,rfl,rfl,rfl,by decide⟩

end Swip.Apps
