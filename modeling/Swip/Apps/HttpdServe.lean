import Swip.Apps.HttpdSend
import Swip.Library.Run

/-! What the connections of the server receive, over all runs: every response is sent in order
and without a gap, and a connection that is closed at the end of the file has sent all of it. -/
namespace Swip.Apps
open Library.Run

/-! ### One call of `http_send` -/

theorem writeLoop_le (tries : List (ErrT × Nat × Nat)) (len : Nat) : (writeLoop tries len).2 ≤ len := by
  induction tries generalizing len with
  | nil => exact Nat.zero_le _
  | cons answer tries ih =>
    obtain ⟨err,sndbuf,sndqueuelen⟩ := answer
    cases err with
    | ok => exact Nat.le_refl _
    | mem =>
      simp only [writeLoop]
      split_ifs with full again halved
      · omega
      · exact Nat.zero_le _
      · exact (ih (len / 2)).trans (Nat.div_le_self len 2)
      · exact Nat.zero_le _
    | _ => exact Nat.zero_le _

theorem httpWrite_le (answers : Answers) (length : Nat) : (httpWrite answers length).2 ≤ length := by
  unfold httpWrite
  split
  · exact Nat.zero_le _
  · have bound := writeLoop_le answers.tries (min (min length answers.sndbuf) (2 * answers.mss))
    omega

/-- How many of `length` bytes one call of `http_send_data_nonssi` hands over. -/
def accepted (answers : Answers) (length : Nat) : Nat :=
  if (httpWrite answers (min length 65535)).1 = .ok then (httpWrite answers (min length 65535)).2 else 0

theorem accepted_le (answers : Answers) (length : Nat) : accepted answers length ≤ length := by
  have bound := httpWrite_le answers (min length 65535)
  unfold accepted
  split <;> omega

def HttpConn.write (conn : HttpConn) (hs : HttpState) (s : OpenFile) (n : Nat) : HttpConn :=
  {conn with hs := some {hs with sending := some {s with file := s.file.drop n}}, written := conn.written ++ s.file.take n}

theorem httpSendDataNonssi_eq (s : OpenFile) (answers : Answers) :
    ∃ output, httpSendDataNonssi s answers =
      ({s with file := s.file.drop (accepted answers s.file.length)},s.file.take (accepted answers s.file.length),output) := by
  unfold httpSendDataNonssi accepted
  split
  · rename_i len written
    exact ⟨true,by simp [written]⟩
  · rename_i failed
    refine ⟨false,?_⟩
    rw [if_neg]
    · simp
    · intro ok
      exact failed _ (Prod.ext ok rfl)

/-- The files are in memory as a whole. -/
def HttpState.Ready (hs : HttpState) : Prop := ∀ s ∈ hs.sending, fsBytesLeft s.handle ≤ 0

theorem httpSend_done (conn : HttpConn) (hs : HttpState) (answers : Answers) (ready : hs.Ready) (none : hs.left = 0) :
    httpSend conn hs answers = httpEof conn answers := by
  have finished : httpCheckEof conn hs answers = (httpEof conn answers,false) := by
    unfold httpCheckEof
    split
    · rfl
    · rename_i s sending
      rw [if_pos (ready s sending)]
  simp only [httpSend,none,if_true,finished]

theorem httpSend_more (conn : HttpConn) (hs : HttpState) (s : OpenFile) (answers : Answers) (ready : hs.Ready)
    (sending : hs.sending = some s) (more : s.file ≠ []) :
    httpSend conn hs answers =
      if accepted answers s.file.length = s.file.length
      then httpEof (conn.write hs s (accepted answers s.file.length)) answers
      else conn.write hs s (accepted answers s.file.length) := by
  have left : hs.left ≠ 0 := by simpa [HttpState.left,sending] using more
  obtain ⟨output,sent⟩ := httpSendDataNonssi_eq s answers
  have bound := accepted_le answers s.file.length
  have eof := ready s sending
  simp only [httpSend,if_neg left,sending,sent,List.length_drop,eof,and_true,HttpConn.write]
  by_cases all : accepted answers s.file.length = s.file.length
  · rw [if_pos all,if_pos (by omega)]
  · rw [if_neg all,if_neg (by omega)]

/-! ### What every callback keeps -/

def HttpState.rest (hs : HttpState) : List Byte := hs.sending.elim [] (·.file)

structure HttpConn.Active (conn : HttpConn) (hs : HttpState) : Prop where
  live : conn.pcb = .live
  callbacks : conn.callbacks = ⟨true,true,true,true,true⟩
  state : conn.hs = some hs
  unfinished : conn.eof = false
  ready : hs.Ready
  silent : hs.sending = none → conn.written = []
  chosen : hs.sending ≠ none → conn.response ≠ none
  patient : hs.retries < httpdMaxRetries
  rest : conn.response.getD [] = conn.written ++ hs.rest

structure HttpConn.Over (conn : HttpConn) : Prop where
  freed : conn.hs = none
  polled : conn.pcb = .live → conn.callbacks = ⟨false,false,false,false,true⟩
  begun : conn.written <+: conn.response.getD []
  whole : conn.eof = true → conn.written = conn.response.getD []

/-- Between two callbacks there is always more to send. -/
def HttpConn.Sound (conn : HttpConn) : Prop :=
  (∃ hs, conn.Active hs ∧ ∀ s ∈ hs.sending, s.file ≠ []) ∨ conn.Over

theorem accept_sound : HttpConn.accept.Sound :=
  .inl ⟨httpStateInit,⟨rfl,rfl,rfl,rfl,by simp [HttpState.Ready,httpStateInit],fun _ => rfl,by simp [httpStateInit],by decide,rfl⟩,
    by simp [httpStateInit]⟩

theorem httpCloseConn_over (conn : HttpConn) (answers : Answers) (begun : conn.written <+: conn.response.getD [])
    (whole : conn.eof = true → conn.written = conn.response.getD []) : (httpCloseConn conn answers).Over := by
  refine ⟨rfl,?_,begun,whole⟩
  intro live
  have failed : answers.close ≠ .ok := by
    intro ok
    simp [httpCloseConn,ok] at live
  simp [httpCloseConn,failed]

variable {conn : HttpConn} {hs : HttpState}

theorem HttpConn.Active.begun (active : conn.Active hs) : conn.written <+: conn.response.getD [] :=
  ⟨hs.rest,active.rest.symm⟩

theorem HttpConn.Active.arg (active : conn.Active hs) : conn.arg = some hs := by
  simp [HttpConn.arg,active.callbacks,active.state]

theorem HttpConn.Active.close (active : conn.Active hs) (answers : Answers) : (httpCloseConn conn answers).Over := by
  apply httpCloseConn_over conn answers active.begun
  intro eof
  rw [active.unfinished] at eof
  cases eof

theorem HttpConn.Active.eof (active : conn.Active hs) (answers : Answers) (done : hs.rest = []) :
    (httpEof conn answers).Over := by
  have rest := active.rest
  rw [done,List.append_nil] at rest
  exact httpCloseConn_over {conn with eof := true} answers active.begun fun _ => rest.symm

theorem HttpConn.Active.write (active : conn.Active hs) (s : OpenFile) (sending : hs.sending = some s) (n : Nat) :
    (conn.write hs s n).Active {hs with sending := some {s with file := s.file.drop n}} := by
  refine ⟨active.live,active.callbacks,rfl,active.unfinished,?_,by simp,fun _ => active.chosen (by simp [sending]),active.patient,?_⟩
  · intro other member
    obtain rfl := Option.some.inj member
    exact active.ready s sending
  · have rest := active.rest
    simpa [HttpConn.write,HttpState.rest,sending] using rest

theorem HttpConn.Active.send (active : conn.Active hs) (answers : Answers) : (httpSend conn hs answers).Sound := by
  by_cases done : hs.rest = []
  · have none : hs.left = 0 := by
      unfold HttpState.rest at done
      unfold HttpState.left
      cases sending : hs.sending with
      | none => rfl
      | some s => simpa [sending] using done
    rw [httpSend_done conn hs answers active.ready none]
    exact .inr (active.eof answers done)
  · obtain ⟨s,sending⟩ : ∃ s, hs.sending = some s := by
      rw [← Option.isSome_iff_exists,Option.isSome_iff_ne_none]
      intro idle
      simp [HttpState.rest,idle] at done
    have more : s.file ≠ [] := by simpa [HttpState.rest,sending] using done
    rw [httpSend_more conn hs s answers active.ready sending more]
    have written := active.write s sending (accepted answers s.file.length)
    split
    · rename_i all
      apply Or.inr
      apply written.eof
      simp [HttpState.rest,all]
    · rename_i partly
      refine .inl ⟨_,written,?_⟩
      have bound := accepted_le answers s.file.length
      simp only [Option.mem_some_iff,forall_eq',ne_eq,List.drop_eq_nil_iff]
      omega

/-- A callback may set the counter back before it sends. -/
theorem HttpConn.Active.count (active : conn.Active hs) (retries : Nat) (patient : retries < httpdMaxRetries) :
    ({conn with hs := some {hs with retries := retries}} : HttpConn).Active {hs with retries := retries} :=
  ⟨active.live,active.callbacks,rfl,active.unfinished,active.ready,active.silent,active.chosen,patient,active.rest⟩

theorem HttpConn.Active.sent (active : conn.Active hs) (answers : Answers) : (httpSent conn answers).Sound := by
  simp only [httpSent,active.arg]
  exact (active.count 0 (by decide)).send answers

theorem HttpConn.Active.poll (active : conn.Active hs) (answers : Answers) : (httpPoll conn answers).Sound := by
  have patient := active.patient
  unfold httpdMaxRetries at patient
  have small : (hs.retries + 1) % 256 = hs.retries + 1 := Nat.mod_eq_of_lt (by omega)
  simp only [httpPoll,active.arg,small]
  split_ifs with last sending
  · refine .inr (httpCloseConn_over _ answers active.begun ?_)
    intro eof
    exact absurd eof (by simp [active.unfinished])
  all_goals
    have counted := active.count (hs.retries + 1) (by unfold httpdMaxRetries at last ⊢; omega)
  · exact counted.send answers
  · refine .inl ⟨_,counted,?_⟩
    simp [Option.not_isSome_iff_eq_none.mp sending]

theorem httpInitFile_ready (hs : HttpState) (rom : List Byte → List Byte) (handle : Option (List Byte × Bool)) (is09 : Bool) :
    (httpInitFile hs (handle.map (fsFile rom ·.1)) is09).Ready := by
  intro s member
  cases handle with
  | none => simp [httpInitFile] at member
  | some handle =>
    obtain rfl := Option.some.inj member
    simp [fsFile,fsBytesLeft]

theorem HttpConn.Active.log (active : conn.Active hs) (p : List (List Byte)) :
    ({conn with received := conn.received ++ [p]} : HttpConn).Active hs :=
  ⟨active.live,active.callbacks,active.state,active.unfinished,active.ready,active.silent,active.chosen,active.patient,active.rest⟩

theorem HttpConn.Active.queue (active : conn.Active hs) (req found : List (List Byte)) :
    ({conn with hs := some {hs with req := req}, found := found} : HttpConn).Active {hs with req := req} :=
  ⟨active.live,active.callbacks,rfl,active.unfinished,active.ready,active.silent,active.chosen,active.patient,active.rest⟩

theorem httpInitFile_retries (hs : HttpState) (file : Option FsFile) (is09 : Bool) :
    (httpInitFile hs file is09).retries = 0 := by
  cases file <;> rfl

theorem HttpConn.Active.init (active : conn.Active hs) (idle : hs.sending = none) (rom : List Byte → List Byte)
    (handle : Option (List Byte × Bool)) (is09 : Bool) :
    ({conn with hs := some (httpInitFile hs (handle.map (fsFile rom ·.1)) is09),
                response := some (httpInitFile hs (handle.map (fsFile rom ·.1)) is09).rest} : HttpConn).Active
      (httpInitFile hs (handle.map (fsFile rom ·.1)) is09) := by
  refine ⟨active.live,active.callbacks,rfl,active.unfinished,httpInitFile_ready _ _ _ _,fun _ => active.silent idle,by simp,
    ?_,?_⟩
  · rw [httpInitFile_retries]
    decide
  · rw [active.silent idle]
    rfl

theorem HttpConn.Active.parsed (active : conn.Active hs) (idle : hs.sending = none) (rom : List Byte → List Byte)
    (server : Server) (parsed : ErrT) (answers : Answers) : (httpParsed rom conn hs server parsed answers).Sound := by
  unfold httpParsed
  generalize (if parsed = .inprogress then server.req else []) = req
  have queued := active.queue req server.found
  dsimp only
  split
  · exact (queued.init idle rom server.handle _).send answers
  · split
    · exact .inr (queued.close answers)
    · exact .inl ⟨_,queued,by simp [idle]⟩

theorem HttpConn.Active.recv (active : conn.Active hs) (more : ∀ s ∈ hs.sending, s.file ≠ []) {rom : List Byte → List Byte} {globals globals' : Globals}
    {p : Option (List (List Byte))} {err : ErrT} {answers : Answers} {next : HttpConn}
    (done : conn.httpRecv rom globals p err answers = .ok (globals',next)) : next.Sound := by
  cases p with
  | none =>
    obtain ⟨_,rfl⟩ := Prod.mk.inj (Except.ok.inj done)
    exact .inr (active.close answers)
  | some p =>
    simp only [HttpConn.httpRecv,active.arg] at done
    have logged := active.log p
    split_ifs at done with failed sending
    · obtain ⟨_,rfl⟩ := Prod.mk.inj (Except.ok.inj done)
      exact .inr (active.close answers)
    · obtain ⟨_,rfl⟩ := Prod.mk.inj (Except.ok.inj done)
      exact .inl ⟨hs,logged,more⟩
    · split at done
      · cases done
      · obtain ⟨_,rfl⟩ := Prod.mk.inj (Except.ok.inj done)
        exact logged.parsed (by simpa using sending) rom _ _ answers

/-- lwIP closes or gives up the pcb. -/
theorem HttpConn.Over.gone (finished : conn.Over) {fate : PcbFate} (dead : fate ≠ .live) :
    ({conn with pcb := fate} : HttpConn).Over :=
  ⟨finished.freed,fun live => absurd live dead,finished.begun,finished.whole⟩

theorem HttpConn.Active.step (active : conn.Active hs) (more : ∀ s ∈ hs.sending, s.file ≠ [])
    {rom : List Byte → List Byte} {globals globals' : Globals} {call : HttpEvent} {next : HttpConn} (done : conn.step rom globals call = .ok (globals',next)) : next.Sound := by
  simp only [HttpConn.step,active.live,ne_eq,not_true_eq_false,if_false,active.callbacks,if_true] at done
  cases call with
  | recv p err answers => exact active.recv more done
  | sent answers =>
    obtain ⟨_,rfl⟩ := Prod.mk.inj (Except.ok.inj done)
    exact active.sent answers
  | poll answers =>
    obtain ⟨_,rfl⟩ := Prod.mk.inj (Except.ok.inj done)
    exact active.poll answers
  | err =>
    obtain ⟨_,rfl⟩ := Prod.mk.inj (Except.ok.inj done)
    refine .inr ⟨rfl,by simp [httpErr],active.begun,?_⟩
    intro eof
    exact absurd eof (by simp [httpErr,active.unfinished])

theorem HttpConn.Over.step (finished : conn.Over) {rom : List Byte → List Byte} {globals globals' : Globals} {call : HttpEvent}
    {next : HttpConn} (done : conn.step rom globals call = .ok (globals',next)) :
    next.Over ∧ next.written = conn.written ∧ next.response = conn.response ∧ next.eof = conn.eof ∧
      next.received = conn.received := by
  unfold HttpConn.step at done
  split at done
  · obtain ⟨_,rfl⟩ := Prod.mk.inj (Except.ok.inj done)
    exact ⟨finished,rfl,rfl,rfl,rfl⟩
  · rename_i live
    have polled := finished.polled (not_not.mp live)
    obtain ⟨passed,unrecv,unsent,unerr,poll⟩ : conn.arg = none ∧ conn.callbacks.recv = false ∧ conn.callbacks.sent = false ∧
        conn.callbacks.err = false ∧ conn.callbacks.poll = true := by simp [HttpConn.arg,polled]
    cases call with
    | recv p err answers =>
      simp only [unrecv,Bool.false_eq_true,if_false] at done
      obtain ⟨_,rfl⟩ := Prod.mk.inj (Except.ok.inj done)
      unfold tcpRecvNull
      split
      · exact ⟨finished.gone (by simp),rfl,rfl,rfl,rfl⟩
      · exact ⟨finished,rfl,rfl,rfl,rfl⟩
    | sent answers =>
      simp only [unsent,Bool.false_eq_true,if_false] at done
      obtain ⟨_,rfl⟩ := Prod.mk.inj (Except.ok.inj done)
      exact ⟨finished,rfl,rfl,rfl,rfl⟩
    | poll answers =>
      simp only [poll,if_true] at done
      obtain ⟨_,rfl⟩ := Prod.mk.inj (Except.ok.inj done)
      simp only [httpPoll,passed]
      exact ⟨httpCloseConn_over conn answers finished.begun finished.whole,rfl,rfl,rfl,rfl⟩
    | err =>
      simp only [unerr,Bool.false_eq_true,if_false] at done
      obtain ⟨_,rfl⟩ := Prod.mk.inj (Except.ok.inj done)
      exact ⟨finished.gone (by simp),rfl,rfl,rfl,rfl⟩

theorem HttpConn.Sound.step (sound : conn.Sound) {rom : List Byte → List Byte} {globals globals' : Globals} {call : HttpEvent}
    {next : HttpConn} (done : conn.step rom globals call = .ok (globals',next)) : next.Sound := by
  obtain ⟨hs,active,more⟩ | finished := sound
  · exact active.step more done
  · exact .inr (finished.step done).1

/-! ### All connections -/

variable {rom : List Byte → List Byte} {httpd next : Httpd} {event : HttpdEvent}

/-- A step of the server is a callback of one connection, and nothing to the others. -/
theorem Httpd.step_conn (done : httpd.step rom event = .ok next) (i : Nat) (there : httpd.conns[i]? = some conn) :
    ∃ after, next.conns[i]? = some after ∧ ((after = conn ∧ ∀ call, event ≠ .callback i call) ∨
      ∃ call globals, event = .callback i call ∧ conn.step rom httpd.globals call = .ok (globals,after)) := by
  cases event with
  | accept allocated =>
    obtain rfl := Except.ok.inj done
    refine ⟨conn,?_,.inl ⟨rfl,by simp⟩⟩
    split
    · rw [List.getElem?_append_left (List.getElem?_eq_some_iff.mp there).1,there]
    · exact there
  | callback j call =>
    simp only [Httpd.step] at done
    split at done
    · rename_i absent
      obtain rfl := Except.ok.inj done
      refine ⟨conn,there,.inl ⟨rfl,?_⟩⟩
      rintro _ same
      obtain ⟨rfl,_⟩ := HttpdEvent.callback.inj same
      simp [there] at absent
    · rename_i other found
      cases called : other.step rom httpd.globals call with
      | error fault => simp [called,bind,Except.bind] at done
      | ok result =>
        obtain ⟨globals,after⟩ := result
        simp only [called,bind,Except.bind,pure,Except.pure] at done
        obtain rfl := Except.ok.inj done
        by_cases same : i = j
        · subst same
          obtain rfl := Option.some.inj (there.symm.trans found)
          exact ⟨after,by simp [(List.getElem?_eq_some_iff.mp there).1],.inr ⟨call,globals,rfl,called⟩⟩
        · refine ⟨conn,?_,.inl ⟨rfl,?_⟩⟩
          · rw [List.getElem?_set_ne (Ne.symm same)]
            exact there
          · rintro _ matched
            exact same (HttpdEvent.callback.inj matched).1.symm

theorem Httpd.step_new (done : httpd.step rom event = .ok next) (i : Nat) (absent : httpd.conns[i]? = none)
    (there : next.conns[i]? = some conn) : conn = .accept := by
  have length : httpd.conns.length ≤ i := List.getElem?_eq_none_iff.mp absent
  cases event with
  | accept allocated =>
    obtain rfl := Except.ok.inj done
    split at there
    · rw [List.getElem?_append_right length] at there
      obtain ⟨_,rfl⟩ := List.getElem?_eq_some_iff.mp there
      simp
    · simp [absent] at there
  | callback j call =>
    simp only [Httpd.step] at done
    split at done
    · obtain rfl := Except.ok.inj done
      simp [absent] at there
    · rename_i other found
      cases called : other.step rom httpd.globals call with
      | error fault => simp [called,bind,Except.bind] at done
      | ok result =>
        simp only [called,bind,Except.bind,pure,Except.pure] at done
        obtain rfl := Except.ok.inj done
        have bound := (List.getElem?_eq_some_iff.mp there).1
        rw [List.length_set] at bound
        omega

def httpdStart (globals : Globals) : Except Fault Httpd := .ok ⟨globals,[]⟩

/-- What holds of a new connection and is kept by its callbacks holds of all connections. -/
theorem httpdRun_forall (rom : List Byte → List Byte) (kept : HttpConn → Prop) (new : kept .accept)
    (step : ∀ conn globals call globals' next, kept conn → conn.step rom globals call = .ok (globals',next) → kept next)
    (globals : Globals) (events : List HttpdEvent) (reached : run (httpdStep rom) (httpdStart globals) events = .ok httpd) :
    ∀ conn ∈ httpd.conns, kept conn := by
  have every := run_invariant (httpdStep rom) (fun state => ∀ httpd, state = .ok httpd → ∀ conn ∈ httpd.conns, kept conn) ?_
    (httpdStart globals) events ?_
  · exact every httpd reached
  · intro state event before after done conn member
    cases state with
    | error fault => cases done
    | ok server =>
      obtain ⟨i,there⟩ := List.getElem?_of_mem member
      cases old : server.conns[i]? with
      | none =>
        rw [Httpd.step_new done i old there]
        exact new
      | some conn =>
        have held := before server rfl conn (List.mem_of_getElem? old)
        obtain ⟨after,now,unchanged | called⟩ := Httpd.step_conn done i old
        all_goals obtain rfl := Option.some.inj (there.symm.trans now)
        · exact unchanged.1 ▸ held
        · obtain ⟨call,globals,_,stepped⟩ := called
          exact step _ _ _ _ _ held stepped
  · intro httpd started conn member
    obtain rfl := Except.ok.inj started
    cases member

theorem httpdRun_sound (rom : List Byte → List Byte) (globals : Globals) (events : List HttpdEvent)
    (reached : run (httpdStep rom) (httpdStart globals) events = .ok httpd) : ∀ conn ∈ httpd.conns, conn.Sound :=
  httpdRun_forall rom HttpConn.Sound accept_sound (fun _ _ _ _ _ held done => held.step done) globals events reached

/-- Whatever the connections do and the stack answers, every connection has been sent a front
part of its response, and all of it if the server has closed it at the end of the file. A state
is held by open connections only, and an open connection without one is polled until it can
be closed. -/
theorem responses_in_order (rom : List Byte → List Byte) (globals : Globals) (events : List HttpdEvent) (httpd : Httpd)
    (reached : run (httpdStep rom) (httpdStart globals) events = .ok httpd) :
    ∀ conn ∈ httpd.conns, conn.written <+: conn.response.getD [] ∧ (conn.eof = true → conn.written = conn.response.getD []) ∧
      (conn.hs.isSome → conn.pcb = .live) ∧
      (conn.pcb = .live → conn.hs = none → conn.callbacks = ⟨false,false,false,false,true⟩) := by
  intro conn member
  obtain ⟨hs,active,_⟩ | finished := httpdRun_sound rom globals events reached conn member
  · refine ⟨active.begun,?_,fun _ => active.live,?_⟩
    · simp [active.unfinished]
    · simp [active.state]
  · refine ⟨finished.begun,finished.whole,?_,fun live _ => finished.polled live⟩
    simp [finished.freed]

def greeting : List Byte := cstr "HTTP/1.0 200 OK\r\n\r\nhello"
def cleared : Globals := ⟨List.replicate 64 0,fun _ => 0⟩
def indexRequest : List Byte := cstr "GET / HTTP/1.0\r\n\r\n"

/-- TCP takes ten bytes. -/
def tenBytes : Answers := ⟨10,128,[(.ok,0,0)],.ok⟩

theorem run_conns {rom : List Byte → List Byte} {globals : Globals} {events : List HttpdEvent} {conns : List HttpConn}
    (evaluated : (run (httpdStep rom) (httpdStart globals) events).toOption.map Httpd.conns = some conns) :
    ∃ httpd, run (httpdStep rom) (httpdStart globals) events = .ok httpd ∧ httpd.conns = conns := by
  cases reached : run (httpdStep rom) (httpdStart globals) events with
  | error fault => simp [reached,Except.toOption] at evaluated
  | ok httpd =>
    rw [reached] at evaluated
    exact ⟨httpd,rfl,Option.some.inj evaluated⟩

/-- Two clients in turn; the second one closes early. -/
def twoClients : List HttpdEvent :=
  [.accept true,.accept true,.callback 1 (.recv (some [indexRequest]) .ok tenBytes),
    .callback 0 (.recv (some [indexRequest]) .ok tenBytes),.callback 0 (.sent tenBytes),.callback 1 (.recv none .ok tenBytes),
    .callback 0 (.sent tenBytes)]

theorem responses_in_order_two :
    ∃ one two httpd, run (httpdStep fun _ => greeting) (httpdStart cleared) twoClients = .ok httpd ∧ httpd.conns = [one,two] ∧
      two.written <+: two.response.getD [] ∧ two.written = greeting.take 10 ∧ one.written = one.response.getD [] := by
  obtain ⟨one,two,evaluated,whole,part⟩ : ∃ one two,
      (run (httpdStep fun _ => greeting) (httpdStart cleared) twoClients).toOption.map Httpd.conns = some [one,two] ∧
        one.eof = true ∧ two.written = greeting.take 10 :=
    ⟨⟨none,⟨false,false,false,false,false⟩,.closed,[[indexRequest]],[cstr "/"],some greeting,greeting,true⟩,
      ⟨none,⟨false,false,false,false,false⟩,.closed,[[indexRequest]],[cstr "/"],some greeting,greeting.take 10,false⟩,
      by decide +kernel,rfl,rfl⟩
  obtain ⟨httpd,reached,conns⟩ := run_conns evaluated
  have every := responses_in_order (fun _ => greeting) cleared twoClients httpd reached
  rw [conns] at every
  exact ⟨one,two,httpd,reached,conns,(every two (by simp)).1,part,(every one (by simp)).2.1 whole⟩

end Swip.Apps
