import Swip.Apps.HttpdServe
import Swip.Apps.HttpdSegments
import Mathlib.Data.List.TakeWhile

/-! The connections share `http_uri_buf` and the pins, and `http_find_file` leaves the name it
has tried last in the buffer without its end. Nevertheless what a connection is sent depends
on its own request only. -/
namespace Swip.Apps
open Library.CString Library.Run

/-! ### What `http_find_file` finds -/

theorem fsOpen_long (front rest : List Byte) (long : 14 ≤ front.length) : fsOpen (front ++ rest) = none := by
  have short : ∀ file ∈ fsRoot, file.length < 14 := by decide
  rw [fsOpen,List.find?_eq_none]
  intro file member same
  have length := short file member
  rw [of_decide_eq_true same,List.length_append] at length
  omega

/-- There is no default file but in the root. -/
theorem fsOpen_directory (front rest : List Byte) (below : front ≠ []) : fsOpen (front ++ (cstr "/index." ++ rest)) = none := by
  have others : ∀ file ∈ fsRoot, ∀ place < 14, 0 < place → (file.drop place).take 7 ≠ cstr "/index." := by decide
  by_cases long : 14 ≤ front.length
  · exact fsOpen_long front _ long
  · rw [fsOpen,List.find?_eq_none]
    intro file member same
    apply others file member front.length (by omega) (List.length_pos_iff.mpr below)
    rw [of_decide_eq_true same,List.drop_left]
    exact List.take_left' (by decide)

theorem gPsDefaultFilenames_index :
    ∀ name ∈ gPsDefaultFilenames, 0 ∉ name ∧ name.length ≤ 12 ∧ name = cstr "/index." ++ name.drop 7 := by
  decide

theorem defaultLoop_directory (front : List Byte) (clean : 0 ∉ front) (below : front ≠ []) (names : List (List Byte))
    (known : ∀ name ∈ names, name ∈ gPsDefaultFilenames) (rest : List Byte) :
    (defaultLoop front.length names (front ++ rest)).2 = none := by
  induction names generalizing rest with
  | nil => rfl
  | cons name names ih =>
    have positive : front.length > 0 := List.length_pos_iff.mpr below
    obtain ⟨plain,short,index⟩ := gPsDefaultFilenames_index name (known name (by simp))
    have unknown : fsOpen (front ++ strAt 0 (name.take (sizeofHttpUriBuf - front.length - 1) ++
        rest.drop (name.take (sizeofHttpUriBuf - front.length - 1)).length) 0) = none := by
      by_cases long : 14 ≤ front.length
      · exact fsOpen_long front _ long
      · rw [List.take_of_length_le (by unfold sizeofHttpUriBuf; omega),strAt_front _ _ plain,index,List.append_assoc]
        exact fsOpen_directory front _ below
    simp only [defaultLoop,if_pos positive,memcpy_behind,strAt_front _ _ clean,unknown]
    exact ih (fun other member => known other (by simp [member])) _

theorem defaultFile_same (buf other uri : List Byte) (clean : 0 ∉ uri) : (defaultFile buf uri).2 = (defaultFile other uri).2 := by
  have found : ∀ copyLen, copyLen = 0 → ∀ names (one two : List Byte),
      (defaultLoop copyLen names one).2 = (defaultLoop copyLen names two).2 := by
    rintro _ rfl names one two
    induction names with
    | nil => rfl
    | cons name names ih =>
      simp only [defaultLoop,Nat.lt_irrefl,gt_iff_lt,if_false]
      cases fsOpen name with
      | none => exact ih
      | some file => rfl
  unfold defaultFile
  split
  · generalize size : min (sizeofHttpUriBuf - 1) (uri.length - 1) = copyLen
    by_cases root : copyLen = 0
    · exact found copyLen root _ _ _
    · have length : (uri.take copyLen).length = copyLen := by rw [List.length_take]; omega
      have below : uri.take copyLen ≠ [] := by
        rw [← List.length_pos_iff,length]
        omega
      have plain : 0 ∉ uri.take copyLen := fun member => clean (List.mem_of_mem_take member)
      have missed : ∀ buf, (defaultLoop copyLen gPsDefaultFilenames (memcpy buf 0 (uri.take copyLen ++ [0]))).2 = none := by
        intro buf
        have searched := defaultLoop_directory (uri.take copyLen) plain below gPsDefaultFilenames (fun _ member => member)
          ([0] ++ buf.drop (0 + (uri.take copyLen ++ [0]).length))
        rw [length] at searched
        rw [memcpy,List.take_zero,List.nil_append,List.append_assoc]
        exact searched
      simp only [if_pos (Nat.pos_of_ne_zero root)]
      rw [missed,missed]
  · rfl

/-! ### The handler -/

/-- Two computations fail alike. -/
def Alike {ε β : Type} (one two : Except ε β) : Prop := one.map (fun _ => ()) = two.map (fun _ => ())

theorem bind_map_congr {ε β γ δ κ : Type} {one two : Except ε β} {p : β → κ} (same : one.map p = two.map p)
    {f g : β → Except ε γ} {h : γ → δ} (next : ∀ a b, p a = p b → (f a).map h = (g b).map h) :
    (one >>= f).map h = (two >>= g).map h := by
  cases one with
  | error fault =>
    cases two with
    | error other =>
      obtain rfl := Except.error.inj same
      rfl
    | ok two => cases same
  | ok left =>
    cases two with
    | error other => cases same
    | ok right => exact next left right (Except.ok.inj same)

theorem foldlM_alike {ε α β : Type} (f : β → α → Except ε β) (alike : ∀ a b x, Alike (f a x) (f b x)) (items : List α) (a b : β) :
    Alike (items.foldlM f a) (items.foldlM f b) := by
  induction items generalizing a b with
  | nil => rfl
  | cons x items ih =>
    simp only [List.foldlM_cons]
    exact bind_map_congr (alike a b x) fun left right _ => ih left right

theorem ledEntry_alike (mem : List Byte) (pcParam pcValue : List (Option Nat)) (name : List Byte) (pin : Pin)
    (outputs other : Outputs) (i : Nat) :
    Alike (ledEntry mem pcParam pcValue name pin outputs i) (ledEntry mem pcParam pcValue name pin other i) := by
  unfold ledEntry Alike
  cases readEntry pcParam i with
  | error fault => rfl
  | ok param =>
    simp only [bind,Except.bind,pure,Except.pure]
    cases strcmpEq mem param name with
    | error fault => rfl
    | ok named =>
      cases named with
      | false => rfl
      | true =>
        simp only [if_true]
        cases readEntry pcValue i with
        | error fault => rfl
        | ok value =>
          simp only
          cases strcmpEq mem value (cstr "0") with
          | error fault => rfl
          | ok zero =>
            simp only
            cases strcmpEq mem value (cstr "1") with
            | error fault => rfl
            | ok one => rfl

theorem extractDudz_same (mem : List Byte) (count : Nat) (params vals : List (Option Nat)) (outputs other : Outputs) :
    (extractDudz mem count params vals outputs).map Prod.snd = (extractDudz mem count params vals other).map Prod.snd := by
  unfold extractDudz
  apply bind_map_congr (foldlM_alike _ (ledEntry_alike mem params vals (cstr "led0") .boardLed0) _ outputs other)
  intro one two _
  apply bind_map_congr (foldlM_alike _ (ledEntry_alike mem params vals (cstr "led1") .boardLed1) _ one two)
  intro _ _ _
  rfl

theorem httpFindFile_same (globals other : Globals) (mem : List Byte) (uri : Nat) :
    (httpFindFile globals mem uri).map Prod.snd = (httpFindFile other mem uri).map Prod.snd := by
  have clean : 0 ∉ strAt 0 mem uri := by
    intro member
    have kept := List.mem_takeWhile_imp member
    simp at kept
  have same := defaultFile_same globals.httpUriBuf other.httpUriBuf (strAt 0 mem uri) clean
  unfold httpFindFile
  generalize defaultFile globals.httpUriBuf (strAt 0 mem uri) = one at same
  generalize defaultFile other.httpUriBuf (strAt 0 mem uri) = two at same
  obtain ⟨buf,file⟩ := one
  obtain ⟨buf',file'⟩ := two
  simp only at same
  subst same
  cases file with
  | some file => rfl
  | none =>
    simp only
    generalize cut 0 mem uri (chr '?') = isolated
    obtain ⟨mem,params⟩ := isolated
    simp only
    cases found : myCGI.find? (·.pcCGIName = strAt 0 mem uri) with
    | none => rfl
    | some cgi =>
      have handler : cgi = ⟨cstr "/example.cgi",extractDudz⟩ := List.mem_singleton.mp (List.mem_of_find?_eq_some found)
      subst handler
      generalize extractUriParameters mem params = extracted
      obtain ⟨mem,cgiParams⟩ := extracted
      have fails := extractDudz_same mem cgiParams.count cgiParams.params cgiParams.paramVals globals.outputs other.outputs
      apply bind_map_congr fails
      rintro ⟨_,name⟩ ⟨_,_⟩ rfl
      rfl

theorem httpFindFile_found (globals : Globals) (mem : List Byte) (uri : Nat) {result : Globals × Option (List Byte)}
    (found : httpFindFile globals mem uri = .ok result) : result.2.isSome := by
  have fallback : ∀ file : Option (List Byte), (file <|> httpGet404File).isSome := by
    rintro (_ | file)
    · decide
    · rfl
  unfold httpFindFile at found
  generalize defaultFile globals.httpUriBuf (strAt 0 mem uri) = searched at found
  obtain ⟨buf,file⟩ := searched
  cases file with
  | some file =>
    obtain rfl := Except.ok.inj found
    rfl
  | none =>
    generalize cut 0 mem uri (chr '?') = isolated at found
    obtain ⟨mem,params⟩ := isolated
    simp only at found
    split at found
    · obtain rfl := Except.ok.inj found
      exact fallback _
    · rename_i cgi _
      generalize extractUriParameters mem params = extracted at found
      obtain ⟨mem,cgiParams⟩ := extracted
      simp only at found
      generalize cgi.pfnCGIHandler _ _ _ _ _ = handled at found
      cases handled with
      | error fault => cases found
      | ok served =>
        obtain rfl := Except.ok.inj found
        exact fallback _

/-! ### One connection by itself -/

/-- What `http_parse_request` does to the state of a connection does not depend on the globals. -/
theorem httpParseRequest_same (one two : Server) (req : one.req = two.req) (idle : one.handle = none) (idle' : two.handle = none)
    (p : List (List Byte)) :
    (httpParseRequest one p).2 = (httpParseRequest two p).2 ∧ (httpParseRequest one p).1.req = (httpParseRequest two p).1.req ∧
      (httpParseRequest one p).1.handle = (httpParseRequest two p).1.handle ∧
      ((httpParseRequest one p).2 = .ok .ok ↔ (httpParseRequest one p).1.handle ≠ none) := by
  unfold httpParseRequest
  rw [if_neg (not_not.mpr idle),if_neg (not_not.mpr idle'),req]
  dsimp only
  generalize parseData (requestData (two.req ++ p)) = parsed
  cases parsed with
  | unsupported => simp [idle,idle']
  | incomplete =>
    dsimp only
    split <;> simp [idle,idle']
  | complete mem uri is09 =>
    have same := httpFindFile_same one.globals two.globals mem uri
    have found : ∀ globals result, httpFindFile globals mem uri = .ok result → result.2.isSome :=
      fun globals result => httpFindFile_found globals mem uri
    dsimp only
    cases left : httpFindFile one.globals mem uri with
    | error fault =>
      rw [left] at same
      cases right : httpFindFile two.globals mem uri with
      | error other =>
        rw [right] at same
        obtain rfl := Except.error.inj same
        simp [idle,idle']
      | ok result =>
        rw [right] at same
        cases same
    | ok result =>
      rw [left] at same
      cases right : httpFindFile two.globals mem uri with
      | error other =>
        rw [right] at same
        cases same
      | ok result' =>
        rw [right] at same
        have file := Except.ok.inj same
        obtain ⟨name,some⟩ := Option.isSome_iff_exists.mp (found _ _ left)
        simp [← file,some]

theorem httpParseRequest_keeps (server : Server) (p : List (List Byte)) :
    (httpParseRequest server p).1.closed = server.closed ∧ (httpParseRequest server p).1.fault = server.fault := by
  unfold httpParseRequest
  split
  · exact ⟨rfl,rfl⟩
  · dsimp only
    split
    · exact ⟨rfl,rfl⟩
    · split <;> exact ⟨rfl,rfl⟩
    · split <;> exact ⟨rfl,rfl⟩

theorem httpRecv_waiting (server : Server) (waiting : server.Waiting) (p : List (List Byte)) (parsed : ErrT)
    (outcome : (httpParseRequest server p).2 = .ok parsed) :
    (httpRecv server p).handle = (httpParseRequest server p).1.handle ∧ (httpRecv server p).fault = none ∧
      (httpRecv server p).closed = decide (parsed = .arg) ∧
      (httpRecv server p).req = if parsed = .inprogress then (httpParseRequest server p).1.req else [] := by
  obtain ⟨connected,running,idle⟩ := waiting
  obtain ⟨closed,fault⟩ := httpParseRequest_keeps server p
  rw [httpRecv,if_neg (by simp [connected,running,idle])]
  generalize httpParseRequest server p = after at *
  obtain ⟨after,result⟩ := after
  simp only at outcome closed fault
  subst outcome
  by_cases more : parsed = .inprogress
  · subst more
    simp [closed,fault,connected,running]
  · by_cases refused : parsed = .arg
    · subst refused
      simp [fault,running]
    · simp [more,refused,closed,fault,connected,running]

/-- What is sent for a file: all of it, or what follows its header. -/
def responseOf (rom : List Byte → List Byte) (handle : List Byte × Bool) : List Byte :=
  (rom handle.1).drop ((if handle.2 then lwipStrnstr (rom handle.1) (crlf ++ crlf) else none).elim 0 (· + 4))

/-- A server that has this one connection. -/
def HttpConn.alone (globals : Globals) (conn : HttpConn) : Server := run Apps.httpRecv (.accept globals) conn.received

structure HttpConn.Own (rom : List Byte → List Byte) (globals : Globals) (conn : HttpConn) : Prop where
  idle : ∀ hs ∈ conn.hs, hs.sending = none →
    conn.response = none ∧ (conn.alone globals).Waiting ∧ (conn.alone globals).req = hs.req
  chosen : ∀ response ∈ conn.response, ∃ handle, (conn.alone globals).handle = some handle ∧ response = responseOf rom handle

section
variable {rom : List Byte → List Byte} {globals : Globals} {conn : HttpConn} {hs : HttpState}

/-- Where the state is freed or something is being sent, only the response counts. -/
theorem HttpConn.Own.busy {next : HttpConn} (own : conn.Own rom globals) (received : next.received = conn.received)
    (response : next.response = conn.response) (busy : ∀ hs ∈ next.hs, hs.sending ≠ none) : next.Own rom globals := by
  refine ⟨fun hs state sending => absurd sending (busy hs state),?_⟩
  intro bytes member
  rw [response] at member
  rw [HttpConn.alone,received]
  exact own.chosen bytes member

theorem HttpConn.Active.send_history (active : conn.Active hs) (answers : Answers) :
    (httpSend conn hs answers).received = conn.received ∧ (httpSend conn hs answers).response = conn.response ∧
      ∀ hs' ∈ (httpSend conn hs answers).hs, hs'.sending ≠ none := by
  by_cases done : hs.left = 0
  · rw [httpSend_done conn hs answers active.ready done]
    exact ⟨rfl,rfl,by simp [httpEof,httpCloseConn]⟩
  · cases sending : hs.sending with
    | none => simp [HttpState.left,sending] at done
    | some s =>
      rw [httpSend_more conn hs s answers active.ready sending (by simpa [HttpState.left,sending] using done)]
      split
      · exact ⟨rfl,rfl,by simp [httpEof,httpCloseConn]⟩
      · exact ⟨rfl,rfl,by simp [HttpConn.write]⟩

theorem HttpConn.Own.send (own : conn.Own rom globals) (active : conn.Active hs) (retries : Nat)
    (patient : retries < httpdMaxRetries) (answers : Answers) :
    (httpSend {conn with hs := some {hs with retries := retries}} {hs with retries := retries} answers).Own rom globals := by
  obtain ⟨received,response,busy⟩ := (active.count retries patient).send_history answers
  exact own.busy received response busy

theorem HttpConn.Own.poll (own : conn.Own rom globals) (active : conn.Active hs) (answers : Answers) :
    (httpPoll conn answers).Own rom globals := by
  have patient := active.patient
  unfold httpdMaxRetries at patient
  have small : (hs.retries + 1) % 256 = hs.retries + 1 := Nat.mod_eq_of_lt (by omega)
  simp only [httpPoll,active.arg,small]
  split_ifs with last sending
  · exact own.busy rfl rfl (by simp [httpCloseConn])
  · exact own.send active (hs.retries + 1) (by unfold httpdMaxRetries at last ⊢; omega) answers
  · refine ⟨?_,own.chosen⟩
    intro other state waits
    obtain rfl := Option.some.inj state
    exact own.idle hs active.state waits

/-- The lone server parses the same data as the connection. -/
theorem HttpConn.Own.parse (own : conn.Own rom globals) (active : conn.Active hs) (idle : hs.sending = none)
    {shared : Globals} {p : List (List Byte)} {server : Server} {parsed : ErrT} (answers : Answers)
    (parses : httpParseRequest ⟨shared,hs.req,none,false,none,conn.found⟩ p = (server,.ok parsed)) :
    (httpParsed rom {conn with received := conn.received ++ [p]} hs server parsed answers).Own rom globals := by
  obtain ⟨unanswered,⟨connected,running,waits⟩,queue⟩ := own.idle hs active.state idle
  obtain ⟨result,req,handle,served⟩ := httpParseRequest_same ⟨shared,hs.req,none,false,none,conn.found⟩ (conn.alone globals)
    queue.symm rfl waits p
  rw [parses] at result req handle served
  have lone : ∀ next : HttpConn, next.received = conn.received ++ [p] →
      next.alone globals = Apps.httpRecv (conn.alone globals) p := by
    intro next received
    rw [HttpConn.alone,received,run_append]
    rfl
  obtain ⟨found,fault,closed,left⟩ := httpRecv_waiting (conn.alone globals) ⟨connected,running,waits⟩ p parsed result.symm
  unfold httpParsed
  have queued := (active.log p).queue (if parsed = .inprogress then server.req else []) server.found
  dsimp only
  split
  · rename_i ok
    subst ok
    obtain ⟨received,response,busy⟩ := (queued.init idle rom server.handle (server.handle.elim false (·.2))).send_history answers
    refine ⟨fun hs state sending => absurd sending (busy hs state),?_⟩
    intro bytes member
    obtain ⟨file,chosen⟩ := Option.ne_none_iff_exists'.mp (served.mp rfl)
    refine ⟨file,?_,?_⟩
    · refine (congrArg Server.handle (lone _ received)).trans ?_
      rw [found,← handle,chosen]
    · have same := response.symm.trans member
      rw [chosen] at same
      exact (Option.some.inj same).symm
  · rename_i failed
    have missing : server.handle = none := by
      by_contra found
      exact failed (Except.ok.inj (served.mpr found))
    split
    · refine ⟨by simp [httpCloseConn],?_⟩
      intro bytes member
      exact absurd member (by simp [httpCloseConn,unanswered])
    · rename_i open'
      refine ⟨?_,?_⟩
      · intro other state _
        obtain rfl := Option.some.inj state
        rw [lone _ rfl]
        refine ⟨unanswered,⟨by simpa [closed] using open',fault,?_⟩,?_⟩
        · rw [found,← handle,missing]
        · rw [left,← req]
      · intro bytes member
        exact absurd member (by simp [unanswered])

theorem HttpConn.Own.recv {next : HttpConn} (own : conn.Own rom globals) (active : conn.Active hs) {shared shared' : Globals}
    {p : Option (List (List Byte))} {err : ErrT} {answers : Answers}
    (done : conn.httpRecv rom shared p err answers = .ok (shared',next)) : next.Own rom globals := by
  cases p with
  | none =>
    obtain ⟨_,rfl⟩ := Prod.mk.inj (Except.ok.inj done)
    exact own.busy rfl rfl (by simp [httpCloseConn])
  | some p =>
    simp only [HttpConn.httpRecv,active.arg] at done
    split_ifs at done with failed sending
    · obtain ⟨_,rfl⟩ := Prod.mk.inj (Except.ok.inj done)
      exact own.busy rfl rfl (by simp [httpCloseConn])
    · obtain ⟨_,rfl⟩ := Prod.mk.inj (Except.ok.inj done)
      refine ⟨?_,?_⟩
      · intro other state waits
        obtain rfl := Option.some.inj (active.state.symm.trans state)
        simp [waits] at sending
      · intro bytes member
        obtain ⟨handle,served,same⟩ := own.chosen bytes member
        have unchanged : Apps.httpRecv (conn.alone globals) p = conn.alone globals := by
          rw [Apps.httpRecv,if_pos (by simp [served])]
        refine ⟨handle,?_,same⟩
        rw [HttpConn.alone,run_append]
        exact (congrArg Server.handle unchanged).trans served
    · split at done
      · cases done
      · rename_i server parsed parses
        obtain ⟨_,rfl⟩ := Prod.mk.inj (Except.ok.inj done)
        exact own.parse active (by simpa using sending) answers parses

theorem HttpConn.Own.step {next : HttpConn} (own : conn.Own rom globals) (sound : conn.Sound) {shared shared' : Globals}
    {call : HttpEvent} (done : conn.step rom shared call = .ok (shared',next)) : next.Own rom globals := by
  obtain ⟨hs,active,_⟩ | finished := sound
  · simp only [HttpConn.step,active.live,ne_eq,not_true_eq_false,if_false,active.callbacks,if_true] at done
    cases call with
    | recv p err answers => exact own.recv active done
    | sent answers =>
      simp only [httpSent,active.arg] at done
      obtain ⟨_,rfl⟩ := Prod.mk.inj (Except.ok.inj done)
      exact own.send active 0 (by decide) answers
    | poll answers =>
      obtain ⟨_,rfl⟩ := Prod.mk.inj (Except.ok.inj done)
      exact own.poll active answers
    | err =>
      obtain ⟨_,rfl⟩ := Prod.mk.inj (Except.ok.inj done)
      exact own.busy rfl rfl (by simp [httpErr])
  · obtain ⟨after,_,response,_,received⟩ := finished.step done
    exact own.busy received response (by simp [after.freed])

end

theorem accept_own (rom : List Byte → List Byte) (globals : Globals) : HttpConn.accept.Own rom globals := by
  refine ⟨?_,by simp [HttpConn.accept]⟩
  intro hs state _
  obtain rfl := Option.some.inj state
  exact ⟨rfl,accept_waiting globals,rfl⟩

/-- Every response is the one that the server would have chosen for this client alone, from any
contents of the globals: no order of the connections and no request of another changes it. -/
theorem responses_own (rom : List Byte → List Byte) (globals other : Globals) (events : List HttpdEvent) (httpd : Httpd)
    (reached : run (httpdStep rom) (httpdStart globals) events = .ok httpd) :
    ∀ conn ∈ httpd.conns, ∀ response ∈ conn.response, ∃ handle,
      (run httpRecv (.accept other) conn.received).handle = some handle ∧ response = responseOf rom handle := by
  have every := httpdRun_forall rom (fun conn => conn.Sound ∧ conn.Own rom other) ⟨accept_sound,accept_own rom other⟩
    (fun _ _ _ _ _ held done => ⟨held.1.step done,held.2.step held.1 done⟩) globals events reached
  intro conn member
  exact (every conn member).2.chosen

/-- Between them the second client has asked for a directory, whose name is left in the buffer. -/
theorem responses_own_two :
    ∃ httpd one two, run (httpdStep fun _ => greeting) (httpdStart cleared) [.accept true,.accept true,
        .callback 1 (.recv (some [cstr "GET /img/ HTTP/1.0\r\n\r\n"]) .ok tenBytes),
        .callback 0 (.recv (some [indexRequest]) .ok tenBytes)] = .ok httpd ∧ httpd.conns = [one,two] ∧
      ∃ handle, (run httpRecv (.accept cleared) one.received).handle = some handle ∧
        greeting = responseOf (fun _ => greeting) handle := by
  obtain ⟨httpd,reached,conns⟩ := run_conns (show (run (httpdStep fun _ => greeting) (httpdStart cleared) [.accept true,.accept true,
      .callback 1 (.recv (some [cstr "GET /img/ HTTP/1.0\r\n\r\n"]) .ok tenBytes),
      .callback 0 (.recv (some [indexRequest]) .ok tenBytes)]).toOption.map Httpd.conns =
    some [⟨some ⟨[],some ⟨⟨greeting,24,24⟩,greeting.drop 10⟩,0⟩,⟨true,true,true,true,true⟩,.live,[[indexRequest]],[cstr "/"],
        some greeting,greeting.take 10,false⟩,
      ⟨some ⟨[],some ⟨⟨greeting,24,24⟩,greeting.drop 10⟩,0⟩,⟨true,true,true,true,true⟩,.live,
        [[cstr "GET /img/ HTTP/1.0\r\n\r\n"]],[cstr "/img/"],some greeting,greeting.take 10,false⟩] by decide +kernel)
  have every := responses_own (fun _ => greeting) cleared cleared _ httpd reached
  rw [conns] at every
  exact ⟨httpd,_,_,reached,conns,every _ (by simp) greeting rfl⟩

end Swip.Apps
