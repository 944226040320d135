import Swip.Apps.HttpdServe

/-! How long a connection of the server can last. Every fourth call of `http_poll` without
`http_sent` in between closes the connection; only the request, which comes once, starts the
count again. -/
namespace Swip.Apps
open Library.Run

variable {conn next : HttpConn} {hs : HttpState}

/-- How often `http_poll` can still be called before the state is freed. -/
def HttpConn.patience (conn : HttpConn) : Nat :=
  match conn.hs with
  | none => 0
  | some hs => (if hs.sending = none then 2 * httpdMaxRetries - 1 else httpdMaxRetries) - hs.retries

theorem httpCloseConn_patience (conn : HttpConn) (answers : Answers) : (httpCloseConn conn answers).patience = 0 := rfl

/-- `http_send` does not touch the counter. -/
theorem HttpConn.Active.send_patience (active : conn.Active hs) (answers : Answers) :
    (httpSend conn hs answers).patience ≤ httpdMaxRetries - hs.retries := by
  by_cases done : hs.left = 0
  · rw [httpSend_done conn hs answers active.ready done]
    exact Nat.zero_le _
  · cases sending : hs.sending with
    | none => simp [HttpState.left,sending] at done
    | some s =>
      rw [httpSend_more conn hs s answers active.ready sending (by simpa [HttpState.left,sending] using done)]
      split
      · exact Nat.zero_le _
      · simp [HttpConn.patience,HttpConn.write]

theorem HttpConn.Active.poll_patience (active : conn.Active hs) (answers : Answers) :
    (httpPoll conn answers).patience + 1 ≤ conn.patience := by
  have patient := active.patient
  unfold httpdMaxRetries at patient
  have small : (hs.retries + 1) % 256 = hs.retries + 1 := Nat.mod_eq_of_lt (by omega)
  have before : httpdMaxRetries - hs.retries ≤ conn.patience := by
    simp only [HttpConn.patience,active.state,httpdMaxRetries]
    split <;> omega
  unfold httpdMaxRetries at before
  simp only [httpPoll,active.arg,small]
  split_ifs with last sending
  · rw [httpCloseConn_patience]
    omega
  · have counted := active.count (hs.retries + 1) (by unfold httpdMaxRetries at last ⊢; omega)
    have bound := counted.send_patience answers
    simp only [httpdMaxRetries] at bound
    omega
  · simp only [HttpConn.patience,active.state,httpdMaxRetries]
    simp only [Option.not_isSome_iff_eq_none] at sending
    simp only [sending,if_true]
    omega

theorem HttpConn.Active.recv_patience (active : conn.Active hs) {rom : List Byte → List Byte} {globals globals' : Globals}
    {p : Option (List (List Byte))} {err : ErrT} {answers : Answers}
    (done : conn.httpRecv rom globals p err answers = .ok (globals',next)) : next.patience ≤ conn.patience := by
  cases p with
  | none =>
    obtain ⟨_,rfl⟩ := Prod.mk.inj (Except.ok.inj done)
    exact Nat.zero_le _
  | some p =>
    simp only [HttpConn.httpRecv,active.arg] at done
    split_ifs at done with failed sending
    · obtain ⟨_,rfl⟩ := Prod.mk.inj (Except.ok.inj done)
      exact Nat.zero_le _
    · obtain ⟨_,rfl⟩ := Prod.mk.inj (Except.ok.inj done)
      exact Nat.le_refl _
    · split at done
      · cases done
      · rename_i server parsed _
        obtain ⟨_,rfl⟩ := Prod.mk.inj (Except.ok.inj done)
        have idle : hs.sending = none := by simpa using sending
        have patient := active.patient
        have before : conn.patience = 2 * httpdMaxRetries - 1 - hs.retries := by
          simp [HttpConn.patience,active.state,idle]
        unfold httpParsed
        generalize (if parsed = .inprogress then server.req else []) = req
        have queued := (active.log p).queue req server.found
        dsimp only
        split
        · have bound := (queued.init idle rom server.handle (server.handle.elim false (·.2))).send_patience answers
          rw [httpInitFile_retries] at bound
          unfold httpdMaxRetries at before patient bound
          exact bound.trans (by omega)
        · split
          · exact Nat.zero_le _
          · simp [HttpConn.patience,active.state,idle]

theorem HttpConn.Sound.step_patience (sound : conn.Sound) {rom : List Byte → List Byte} {globals globals' : Globals}
    {call : HttpEvent} (unsent : ∀ answers, call ≠ .sent answers) (done : conn.step rom globals call = .ok (globals',next)) :
    next.patience ≤ conn.patience ∧ ((∃ answers, call = .poll answers) → next.patience ≤ conn.patience - 1) := by
  obtain ⟨hs,active,_⟩ | finished := sound
  · simp only [HttpConn.step,active.live,ne_eq,not_true_eq_false,if_false,active.callbacks,if_true] at done
    cases call with
    | recv p err answers => exact ⟨active.recv_patience done,by simp⟩
    | sent answers => exact absurd rfl (unsent answers)
    | poll answers =>
      obtain ⟨_,rfl⟩ := Prod.mk.inj (Except.ok.inj done)
      have less := active.poll_patience answers
      exact ⟨by omega,fun _ => by omega⟩
    | err =>
      obtain ⟨_,rfl⟩ := Prod.mk.inj (Except.ok.inj done)
      exact ⟨Nat.zero_le _,by simp⟩
  · have none : next.patience = 0 := by simp [HttpConn.patience,(finished.step done).1.freed]
    omega

/-! ### Runs -/

/-- The callbacks of one connection in a run of the server. -/
def calls (i : Nat) (events : List HttpdEvent) : List HttpEvent :=
  events.filterMap fun event => match event with
    | .callback j call => if i = j then some call else none
    | .accept _ => none

/-- The connection goes through its callbacks, whatever else changes the globals meanwhile. -/
inductive Follows (rom : List Byte → List Byte) : HttpConn → List HttpEvent → HttpConn → Prop
  | nil (conn : HttpConn) : Follows rom conn [] conn
  | cons {conn middle after : HttpConn} {globals globals' : Globals} {call : HttpEvent} {later : List HttpEvent}
      (step : conn.step rom globals call = .ok (globals',middle)) (rest : Follows rom middle later after) :
      Follows rom conn (call :: later) after

theorem run_follows {rom : List Byte → List Byte} (i : Nat) (events : List HttpdEvent) (httpd next : Httpd)
    (reached : run (httpdStep rom) (.ok httpd) events = .ok next) (there : httpd.conns[i]? = some conn) :
    ∃ after, next.conns[i]? = some after ∧ Follows rom conn (calls i events) after := by
  induction events generalizing httpd conn with
  | nil =>
    obtain rfl := Except.ok.inj reached
    exact ⟨conn,there,.nil conn⟩
  | cons event events ih =>
    rw [run_cons] at reached
    cases stepped : httpd.step rom event with
    | error fault =>
      have failed : httpdStep rom (.ok httpd) event = .error fault := stepped
      rw [failed,run_stuck (httpdStep rom) (.error fault) (fun _ => rfl) events] at reached
      cases reached
    | ok middle =>
      have done : httpdStep rom (.ok httpd) event = .ok middle := stepped
      rw [done] at reached
      obtain ⟨between,now,kept | ⟨call,globals,rfl,called⟩⟩ := Httpd.step_conn stepped i there
      all_goals obtain ⟨after,found,follows⟩ := ih middle reached now
      · obtain ⟨rfl,elsewhere⟩ := kept
        have none : calls i (event :: events) = calls i events := by
          cases event with
          | accept allocated => rfl
          | callback j call =>
            have other : i ≠ j := by
              rintro rfl
              exact elsewhere call rfl
            simp [calls,other]
        rw [none]
        exact ⟨after,found,follows⟩
      · have one : calls i (.callback i call :: events) = call :: calls i events := by simp [calls]
        rw [one]
        exact ⟨after,found,.cons called follows⟩

def HttpEvent.isPoll : HttpEvent → Bool
  | .poll _ => true
  | _ => false

theorem Follows.patience {rom : List Byte → List Byte} {events : List HttpEvent} (follows : Follows rom conn events next)
    (sound : conn.Sound) (unsent : ∀ answers, .sent answers ∉ events) :
    next.Sound ∧ next.patience ≤ conn.patience - events.countP HttpEvent.isPoll := by
  induction follows with
  | nil => exact ⟨sound,Nat.le_refl _⟩
  | @cons conn middle after globals globals' call later step rest ih =>
    obtain ⟨weak,strong⟩ := sound.step_patience (fun answers same => unsent answers (by simp [same])) step
    obtain ⟨safe,bound⟩ := ih (sound.step step) fun answers member => unsent answers (by simp [member])
    refine ⟨safe,?_⟩
    rw [List.countP_cons]
    by_cases poll : call.isPoll = true
    · have less := strong (by cases call <;> simp_all [HttpEvent.isPoll])
      rw [if_pos poll]
      omega
    · rw [if_neg poll]
      omega

/-- Seven polls without an acknowledgement in between are enough for the server to free the
state of a connection, whatever else happens; from then on every poll tries to close it. -/
theorem idle_connection_freed (rom : List Byte → List Byte) (globals : Globals) (before events : List HttpdEvent)
    (httpd next : Httpd) (i : Nat) (started : run (httpdStep rom) (httpdStart globals) before = .ok httpd)
    (known : i < httpd.conns.length) (reached : run (httpdStep rom) (.ok httpd) events = .ok next)
    (unsent : ∀ answers, .sent answers ∉ calls i events) (polled : 7 ≤ (calls i events).countP HttpEvent.isPoll) :
    ∃ after, next.conns[i]? = some after ∧ after.hs = none ∧
      (after.pcb = .live → ∀ answers, answers.close = .ok → (httpPoll after answers).pcb = .closed) := by
  have there : httpd.conns[i]? = some httpd.conns[i] := List.getElem?_eq_getElem known
  have sound := httpdRun_sound rom globals before started _ (List.getElem_mem known)
  obtain ⟨after,now,follows⟩ := run_follows i events httpd next reached there
  obtain ⟨safe,bound⟩ := follows.patience sound unsent
  have most : httpd.conns[i].patience ≤ 7 := by
    unfold HttpConn.patience httpdMaxRetries
    split
    · omega
    · split <;> omega
  have spent : after.patience = 0 := by omega
  refine ⟨after,now,?_⟩
  obtain ⟨hs,active,_⟩ | finished := safe
  · have patient := active.patient
    simp only [HttpConn.patience,active.state,httpdMaxRetries] at spent patient
    split at spent <;> omega
  · refine ⟨finished.freed,?_⟩
    intro live answers ok
    have passed : after.arg = none := by simp [HttpConn.arg,finished.polled live]
    simp [httpPoll,passed,httpCloseConn,ok]

def silence : Answers := ⟨0,128,[],.ok⟩

/-- The request comes after three polls, and nothing of the response can be sent. -/
def lateRequest : List HttpdEvent :=
  [.callback 0 (.poll silence),.callback 0 (.poll silence),.callback 0 (.poll silence),
    .callback 0 (.recv (some [indexRequest]) .ok silence),.callback 0 (.poll silence),.callback 0 (.poll silence),
    .callback 0 (.poll silence),.callback 0 (.poll silence)]

theorem idle_connection_freed_late :
    ∃ next after, run (httpdStep fun _ => greeting) (httpdStart cleared) (.accept true :: lateRequest) = .ok next ∧
      next.conns[0]? = some after ∧ after.hs = none := by
  obtain ⟨httpd,started,conns⟩ := run_conns (show (run (httpdStep fun _ => greeting) (httpdStart cleared)
    [.accept true]).toOption.map Httpd.conns = some [.accept] by decide +kernel)
  obtain ⟨next,reached,_⟩ := run_conns (show (run (httpdStep fun _ => greeting) (httpdStart cleared)
    ([.accept true] ++ lateRequest)).toOption.map Httpd.conns = some [⟨none,⟨false,false,false,false,false⟩,.closed,
      [[indexRequest]],[cstr "/"],some greeting,[],false⟩] by decide +kernel)
  have later := reached
  rw [run_append,started] at later
  obtain ⟨after,there,freed,_⟩ := idle_connection_freed (fun _ => greeting) cleared [.accept true] lateRequest httpd next 0 started
    (by simp [conns]) later (by simp [calls,lateRequest]) (by decide)
  exact ⟨next,after,reached,there,freed⟩

/-! ### Delivery -/

/-- `tcp_write` is ready for `k` bytes during the callback. -/
def Answers.takes (answers : Answers) (k : Nat) : Bool :=
  k ≤ answers.sndbuf ∧ k ≤ 2 * answers.mss ∧ answers.tries.head?.map Prod.fst = some .ok

def HttpEvent.takes (k : Nat) : HttpEvent → Bool
  | .sent answers => answers.takes k
  | .poll answers => answers.takes k
  | _ => false

/-- The client does not close and no error comes, and the acknowledgements come in time: fewer
than four polls pass without one, where `retries` have passed before. -/
def Acked : Nat → List HttpEvent → Prop
  | _, [] => True
  | retries, .recv p err _ :: later => p ≠ none ∧ err = .ok ∧ Acked retries later
  | _, .sent _ :: later => Acked 0 later
  | retries, .poll _ :: later => retries + 1 < httpdMaxRetries ∧ Acked (retries + 1) later
  | _, .err :: _ => False

theorem accepted_takes (answers : Answers) (k length : Nat) (small : k ≤ 65535) (takes : answers.takes k = true) :
    min length k ≤ accepted answers length := by
  simp only [Answers.takes,decide_eq_true_eq] at takes
  obtain ⟨sndbuf,mss,first⟩ := takes
  cases tries : answers.tries with
  | nil => simp [tries] at first
  | cons answer rest =>
    obtain ⟨err,after⟩ := answer
    simp only [tries,List.head?_cons,Option.map_some,Option.some.injEq] at first
    subst first
    unfold accepted httpWrite
    by_cases none : min length 65535 = 0
    · rw [if_pos none]
      omega
    · simp only [if_neg none,tries,writeLoop,if_true]
      omega

/-- A connection on its way: `s` is left of the response `whole`. -/
structure HttpConn.Serves (conn : HttpConn) (hs : HttpState) (s : OpenFile) (whole : List Byte) : Prop where
  active : conn.Active hs
  sending : hs.sending = some s
  more : s.file ≠ []
  response : conn.response = some whole

structure HttpConn.Served (conn : HttpConn) (whole : List Byte) : Prop where
  finished : conn.Over
  eof : conn.eof = true
  response : conn.response = some whole

section
variable {s : OpenFile} {whole : List Byte}

/-- One call of `http_send` finishes the response, or it leaves less of it. A callback may have
set the counter before. -/
theorem HttpConn.Serves.send (serves : conn.Serves hs s whole) (retries : Nat) (patient : retries < httpdMaxRetries)
    (answers : Answers) (k : Nat) (small : k ≤ 65535) :
    (httpSend {conn with hs := some {hs with retries := retries}} {hs with retries := retries} answers).Served whole ∨
      ∃ s', s'.file.length + (if answers.takes k then k else 0) ≤ s.file.length ∧
        (httpSend {conn with hs := some {hs with retries := retries}} {hs with retries := retries} answers).Serves
          {hs with sending := some s', retries := retries} s' whole := by
  obtain ⟨active,sending,more,response⟩ := serves
  have counted := active.count retries patient
  rw [httpSend_more _ _ s answers counted.ready sending more]
  have written := counted.write s sending (accepted answers s.file.length)
  split
  · rename_i all
    exact .inl ⟨written.eof answers (by simp [HttpState.rest,all]),rfl,response⟩
  · rename_i partly
    have bound := accepted_le answers s.file.length
    refine .inr ⟨_,?_,written,rfl,?_,response⟩
    · rw [List.length_drop]
      split
      · rename_i takes
        have least := accepted_takes answers k s.file.length small takes
        omega
      · omega
    · simp only [ne_eq,List.drop_eq_nil_iff]
      omega

theorem HttpConn.Serves.step (serves : conn.Serves hs s whole) {rom : List Byte → List Byte} {globals globals' : Globals}
    {call : HttpEvent} {later : List HttpEvent} (k : Nat) (small : k ≤ 65535) (acked : Acked hs.retries (call :: later))
    (done : conn.step rom globals call = .ok (globals',next)) :
    next.Served whole ∨ ∃ hs' s', s'.file.length + (if call.takes k then k else 0) ≤ s.file.length ∧
      next.Serves hs' s' whole ∧ Acked hs'.retries later := by
  have active := serves.active
  simp only [HttpConn.step,active.live,ne_eq,not_true_eq_false,if_false,active.callbacks,if_true] at done
  cases call with
  | recv p err answers =>
    obtain ⟨data,rfl,acked⟩ := acked
    obtain ⟨p,rfl⟩ := Option.ne_none_iff_exists'.mp data
    simp only [HttpConn.httpRecv,active.arg,serves.sending,ne_eq,not_true_eq_false,if_false,Option.isSome_some,if_true] at done
    obtain ⟨_,rfl⟩ := Prod.mk.inj (Except.ok.inj done)
    exact .inr ⟨hs,s,Nat.le_refl _,⟨active.log p,serves.sending,serves.more,serves.response⟩,acked⟩
  | sent answers =>
    simp only [httpSent,active.arg] at done
    obtain ⟨_,rfl⟩ := Prod.mk.inj (Except.ok.inj done)
    obtain served | ⟨s',less,still⟩ := serves.send 0 (by decide) answers k small
    · exact .inl served
    · exact .inr ⟨_,s',less,still,acked⟩
  | poll answers =>
    obtain ⟨soon,acked⟩ := acked
    have small256 : (hs.retries + 1) % 256 = hs.retries + 1 := Nat.mod_eq_of_lt (by unfold httpdMaxRetries at soon; omega)
    simp only [httpPoll,active.arg,small256,if_neg (Nat.ne_of_lt soon),serves.sending,Option.isSome_some,if_true] at done
    obtain ⟨_,rfl⟩ := Prod.mk.inj (Except.ok.inj done)
    have again := serves.send (hs.retries + 1) soon answers k small
    rw [serves.sending] at again
    obtain served | ⟨s',less,still⟩ := again
    · exact .inl served
    · exact .inr ⟨_,s',less,still,acked⟩
  | err => exact acked.elim

theorem Follows.served {rom : List Byte → List Byte} {events : List HttpEvent} (follows : Follows rom conn events next)
    (served : conn.Served whole) : next.Served whole := by
  induction follows with
  | nil => exact served
  | cons step rest ih =>
    obtain ⟨finished,_,response,eof,_⟩ := served.finished.step step
    exact ih ⟨finished,eof.trans served.eof,response.trans served.response⟩

theorem Follows.delivers {rom : List Byte → List Byte} {events : List HttpEvent} (follows : Follows rom conn events next)
    (k : Nat) (small : k ≤ 65535) (serves : conn.Serves hs s whole) (acked : Acked hs.retries events) :
    next.Served whole ∨ ∃ hs' s', s'.file.length + k * events.countP (HttpEvent.takes k) ≤ s.file.length ∧
      next.Serves hs' s' whole := by
  induction follows generalizing hs s with
  | nil => exact .inr ⟨hs,s,by simp,serves⟩
  | @cons conn middle after globals globals' call later step rest ih =>
    obtain served | ⟨hs',s',less,still,acked⟩ := serves.step k small acked step
    · exact .inl (rest.served served)
    · obtain served | ⟨hs'',s'',bound,reached⟩ := ih still acked
      · exact .inl served
      · refine .inr ⟨hs'',s'',?_,reached⟩
        rw [List.countP_cons,Nat.mul_add]
        split at less
        · rename_i takes
          rw [if_pos takes,Nat.mul_one]
          omega
        · rename_i takes
          rw [if_neg takes,Nat.mul_zero]
          omega

end

end Swip.Apps
