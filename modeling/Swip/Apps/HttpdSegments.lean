import Swip.Apps.HttpdCgi
import Swip.Apps.HttpdRequest
import Swip.Device.Stored
import Swip.Library.Run

/-! A request that arrives in segments. The queue `hs->req` has a limit in bytes and one in
pbufs; with 128 bytes to a segment and 96 to a pbuf every full segment takes two pbufs, so
that the second limit is reached long before the first. -/
namespace Swip.Apps
open Library.Pieces Library.Run Device

/-- `pbuf_header` on the way up: IP and TCP take their headers off the first pbuf. -/
def pbufHeader (size : Nat) : List (List Byte) → List (List Byte)
  | [] => []
  | first :: others => first.drop size :: others

/-- The chain `http_recv` is given for a segment. -/
def Handed (segment : List Byte) (p : List (List Byte)) : Prop :=
  ∃ header pbufs, header.length = 40 ∧ Stored (header ++ segment) pbufs ∧ p = pbufHeader 40 pbufs

structure SameService (server other : Server) : Prop where
  found : server.found = other.found
  globals : server.globals = other.globals
  handle : server.handle = other.handle
  fault : server.fault = other.fault

structure Server.Waiting (server : Server) : Prop where
  connected : server.closed = false
  running : server.fault = none
  idle : server.handle = none

theorem accept_waiting (globals : Globals) : (Server.accept globals).Waiting := ⟨rfl,rfl,rfl⟩

theorem handed_chain (segment : List Byte) (p : List (List Byte)) (handed : Handed segment p)
    (begun : segment ≠ []) (size : segment.length ≤ tcpMss) :
    p.flatten = segment ∧ 96 * p.length < segment.length + 136 ∧ segment.length + 40 ≤ 96 * p.length := by
  obtain ⟨header,pbufs,length,stored,rfl⟩ := handed
  unfold tcpMss at size
  have cut := stored.cut (by simp [begun]) (by
    rw [List.length_append,length]
    unfold slipMaxSize
    omega)
  obtain ⟨first,others,rfl,behind⟩ := cut.behind (by omega)
  have count := cut.count
  rw [length] at behind
  simp only [List.length_append,length,pbufHeader,List.length_cons] at count behind ⊢
  exact ⟨behind,by omega,by omega⟩

theorem handed_exists (segments : List (List Byte)) (sizes : ∀ segment ∈ segments, segment.length ≤ tcpMss) :
    ∃ chains, List.Forall₂ Handed segments chains := by
  induction segments with
  | nil => exact ⟨[],.nil⟩
  | cons segment segments ih =>
    have size := sizes segment (by simp)
    unfold tcpMss at size
    obtain ⟨pbufs,stored⟩ := stored_exists (List.replicate 40 0 ++ segment) (by simp) (by
      rw [List.length_append,List.length_replicate]
      unfold slipMaxSize
      omega)
    obtain ⟨chains,rest⟩ := ih fun other member => sizes other (by simp [member])
    exact ⟨pbufHeader 40 pbufs :: chains,.cons ⟨_,pbufs,List.length_replicate ..,stored,rfl⟩ rest⟩

theorem recv_unfinished (server : Server) (waiting : server.Waiting) (request : List Byte)
    (formed : WellFormed request) (short : request.length ≤ lwipHttpdMaxReqLength) (p : List (List Byte))
    (rest : List Byte) (split : (server.req ++ p).flatten ++ rest = request) (more : rest ≠ []) :
    httpRecv server p = if (server.req ++ p).length ≤ lwipHttpdReqQueuelen
      then {server with req := server.req ++ p} else {server with req := [], closed := true} := by
  have fits : (server.req ++ p).flatten.length ≤ lwipHttpdMaxReqLength := by
    have length := congrArg List.length split
    rw [List.length_append] at length
    omega
  have parsed : parseData (requestData (server.req ++ p)) = .incomplete := by
    rw [requestData_short _ fits]
    exact parseData_unfinished request _ rest formed split more
  obtain ⟨connected,running,idle⟩ := waiting
  rw [httpRecv,if_neg (by simp [connected,running,idle]),httpParseRequest,if_neg (by simp [idle])]
  simp only [parsed]
  by_cases queue : (server.req ++ p).length ≤ lwipHttpdReqQueuelen
  · rw [if_pos ⟨fits,queue⟩,if_pos queue]
    rfl
  · rw [if_neg (fun both => queue both.2),if_neg queue]
    rfl

/-- What is served depends on the request, not on the pbufs it came in. -/
theorem recv_whole (server other : Server) (waiting : server.Waiting) (waits : other.Waiting)
    (globals : server.globals = other.globals) (found : server.found = other.found) (request : List Byte)
    (formed : WellFormed request) (short : request.length ≤ lwipHttpdMaxReqLength) (p q : List (List Byte))
    (whole : (server.req ++ p).flatten = request) (same : (other.req ++ q).flatten = request) :
    SameService (httpRecv server p) (httpRecv other q) ∧
      (httpRecv server p).found.length = server.found.length + 1 := by
  obtain ⟨uri,rest,text,single⟩ := formed.line
  have parsed := parseData_whole request uri rest formed.clean text single
  have left : parseData (requestData (server.req ++ p)) = parseData request := by
    rw [requestData_short _ (by rw [whole]; exact short),whole]
  have right : parseData (requestData (other.req ++ q)) = parseData request := by
    rw [requestData_short _ (by rw [same]; exact short),same]
  obtain ⟨connected,running,idle⟩ := waiting
  obtain ⟨connects,runs,idles⟩ := waits
  rw [httpRecv,if_neg (by simp [connected,running,idle]),httpParseRequest,if_neg (by simp [idle]),
    httpRecv,if_neg (by simp [connects,runs,idles]),httpParseRequest,if_neg (by simp [idles])]
  simp only [left,right,parsed,← globals,← found]
  cases httpFindFile server.globals (cstr "GET\x00" ++ (uri ++ 0 :: (rest ++ (crlf ++ crlf)))) 4 with
  | error fault => exact ⟨⟨rfl,rfl,idle.trans idles.symm,rfl⟩,by simp⟩
  | ok served => exact ⟨⟨rfl,rfl,rfl,running.trans runs.symm⟩,by simp⟩

theorem recv_closed (server : Server) (closed : server.closed = true) (p : List (List Byte)) :
    httpRecv server p = server := by
  rw [httpRecv,if_pos (.inl closed)]

theorem run_unfinished (server : Server) (waiting : server.Waiting) (request : List Byte) (formed : WellFormed request)
    (short : request.length ≤ lwipHttpdMaxReqLength) (chains : List (List (List Byte))) (rest : List Byte)
    (split : (server.req ++ chains.flatten).flatten ++ rest = request) (more : rest ≠ [])
    (queue : server.req.length ≤ lwipHttpdReqQueuelen) :
    run httpRecv server chains = if (server.req ++ chains.flatten).length ≤ lwipHttpdReqQueuelen
      then {server with req := server.req ++ chains.flatten} else {server with req := [], closed := true} := by
  induction chains generalizing server with
  | nil => simp [queue]
  | cons p chains ih =>
    have later : chains.flatten.flatten ++ rest ≠ [] := by simp [more]
    rw [List.flatten_cons] at split ⊢
    rw [run_cons,recv_unfinished server waiting request formed short p _ (by rw [← split]; simp) later]
    by_cases fits : (server.req ++ p).length ≤ lwipHttpdReqQueuelen
    · rw [if_pos fits]
      have continued := ih {server with req := server.req ++ p}
        ⟨waiting.connected,waiting.running,waiting.idle⟩ (by rw [← split]; simp) fits
      simpa using continued
    · have exceeds : ¬ (server.req ++ (p ++ chains.flatten)).length ≤ lwipHttpdReqQueuelen := by
        simp only [List.length_append] at fits ⊢
        omega
      rw [if_neg fits,if_neg exceeds,run_stuck httpRecv _ (recv_closed _ rfl)]

/-- The full segments take two pbufs each. -/
theorem handed_all (request : List Byte) (segments : List (List Byte)) (chains : List (List (List Byte)))
    (cut : Cut tcpMss request segments) (handed : List.Forall₂ Handed segments chains) :
    ∃ before final, chains = before ++ [final] ∧ before.flatten.flatten ++ final.flatten = request ∧
      final.flatten ≠ [] ∧ before.flatten.length + 2 = 2 * segments.length := by
  induction cut generalizing chains with
  | last piece begun fits =>
    cases handed with
    | @cons _ p _ _ head tail =>
      cases tail
      obtain ⟨content,_⟩ := handed_chain piece p head begun fits
      exact ⟨[],p,rfl,by simpa using content,by rwa [content],rfl⟩
  | more piece whole pieces full _ ih =>
    cases handed with
    | @cons _ p _ chains head tail =>
      obtain ⟨before,final,rfl,content,more,count⟩ := ih chains tail
      have begun : piece ≠ [] := by
        rintro rfl
        exact absurd full (by decide)
      obtain ⟨same,above,below⟩ := handed_chain piece p head begun full.le
      unfold tcpMss at full
      refine ⟨p :: before,final,rfl,?_,more,?_⟩
      · rw [List.flatten_cons,List.flatten_append,same,List.append_assoc,content]
      · rw [List.flatten_cons,List.length_append,List.length_cons]
        omega

section Segments
variable (globals : Globals) (request : List Byte) (formed : WellFormed request)
  (short : request.length ≤ lwipHttpdMaxReqLength) (segments : List (List Byte))
  (cut : Cut tcpMss request segments) (chains : List (List (List Byte)))
  (handed : List.Forall₂ Handed segments chains)
include formed short cut handed

/-- When the last segment comes, the queue has everything before it, or the connection is closed
already. -/
theorem run_before :
    ∃ before final, before.flatten ++ final.flatten = request ∧
      run httpRecv (.accept globals) chains = httpRecv (if request.length ≤ 768
        then {Server.accept globals with req := before} else {Server.accept globals with closed := true}) final := by
  obtain ⟨before,final,rfl,content,more,count⟩ := handed_all request segments chains cut handed
  have pieces := cut.count
  have queue : before.flatten.length ≤ lwipHttpdReqQueuelen ↔ request.length ≤ 768 := by
    unfold tcpMss at pieces
    unfold lwipHttpdReqQueuelen
    omega
  have unfinished := run_unfinished (.accept globals) (accept_waiting globals) request formed short before
    final.flatten content more (Nat.zero_le _)
  refine ⟨before.flatten,final,content,?_⟩
  rw [run_append,unfinished,run_cons,run_nil]
  simp only [Server.accept,List.nil_append,queue]

theorem segments_served (few : request.length ≤ 768) :
    SameService (run httpRecv (.accept globals) chains) (httpRecv (.accept globals) [request]) ∧
      (run httpRecv (.accept globals) chains).found.length = 1 := by
  obtain ⟨before,final,content,ran⟩ := run_before globals request formed short segments cut chains handed
  rw [ran,if_pos few]
  apply recv_whole {Server.accept globals with req := before} (.accept globals) ⟨rfl,rfl,rfl⟩
    (accept_waiting globals) rfl rfl request formed short
  · rw [List.flatten_append]
    exact content
  · simp [Server.accept]

theorem segments_refused (many : 768 < request.length) :
    (run httpRecv (.accept globals) chains).found = [] := by
  obtain ⟨before,final,_,ran⟩ := run_before globals request formed short segments cut chains handed
  rw [ran,if_neg (by omega),recv_closed _ rfl]
  rfl

end Segments

/-- A request in 128-byte segments is served like the whole one exactly up to six segments. -/
theorem segmentation_iff (globals : Globals) (request : List Byte) (formed : WellFormed request)
    (short : request.length ≤ lwipHttpdMaxReqLength) (segments : List (List Byte))
    (cut : Cut tcpMss request segments) (chains : List (List (List Byte)))
    (handed : List.Forall₂ Handed segments chains) :
    (SameService (run httpRecv (.accept globals) chains) (httpRecv (.accept globals) [request]) ∧
      (run httpRecv (.accept globals) chains).found.length = 1) ↔ request.length ≤ 768 := by
  constructor
  · rintro ⟨_,once⟩
    by_contra many
    rw [segments_refused globals request formed short segments cut chains handed (by omega)] at once
    exact absurd once (by decide)
  · exact segments_served globals request formed short segments cut chains handed

/-- A request with one header of `n` bytes; its request line is in the first segment. -/
def paddedRequest (n : Nat) : List Byte :=
  cstr "GET " ++ (cstr "/example.cgi?led0=1" ++ chr ' ' ::
    (cstr "HTTP/1.0\r\nX: " ++ List.replicate n (chr 'a') ++ (crlf ++ crlf)))

theorem paddedRequest_length (n : Nat) : (paddedRequest n).length = n + 41 := by
  have line : (cstr "GET ").length = 4 ∧ (cstr "/example.cgi?led0=1").length = 19 ∧
      (cstr "HTTP/1.0\r\nX: ").length = 13 ∧ crlf.length = 2 := by decide
  simp only [paddedRequest,List.length_append,List.length_cons,List.length_replicate,line]
  omega

theorem paddedRequest_formed (n : Nat)
    (unended : lwipStrnstr (paddedRequest n).dropLast (crlf ++ crlf) = none) :
    WellFormed (paddedRequest n) := by
  have clean : 0 ∉ paddedRequest n := by
    simp only [paddedRequest,List.mem_append,List.mem_cons,List.mem_replicate,not_or,not_and]
    exact ⟨by decide,by decide,by decide,⟨by decide,fun _ => by decide⟩,by decide,by decide⟩
  refine ⟨clean,⟨_,_,rfl,by decide⟩,?_⟩
  rw [← lwipStrnstr_none_iff _ _ (by decide) (fun member => clean (List.mem_of_mem_dropLast member))]
  exact unended

/-- Three hundred bytes in three segments, the first two in two pbufs each. -/
theorem segmentation_short : ∃ segments chains,
    Cut tcpMss (paddedRequest 259) segments ∧ segments.map List.length = [128,128,44] ∧
    List.Forall₂ Handed segments chains ∧ chains.map List.length = [2,2,1] ∧
    SameService (run httpRecv (.accept ⟨List.replicate 64 0,fun _ => 0⟩) chains)
      (httpRecv (.accept ⟨List.replicate 64 0,fun _ => 0⟩) [paddedRequest 259]) ∧
    (run httpRecv (.accept ⟨List.replicate 64 0,fun _ => 0⟩) chains).found.length = 1 := by
  have formed : WellFormed (paddedRequest 259) := paddedRequest_formed 259 (by decide +kernel)
  have length : (paddedRequest 259).length = 300 := paddedRequest_length 259
  have first : ((paddedRequest 259).take 128).length = 128 := by simp [length]
  have second : (((paddedRequest 259).drop 128).take 128).length = 128 := by simp [length]
  have third : (((paddedRequest 259).drop 128).drop 128).length = 44 := by simp [length]
  have cut : Cut tcpMss (paddedRequest 259)
      [(paddedRequest 259).take 128,((paddedRequest 259).drop 128).take 128,((paddedRequest 259).drop 128).drop 128] := by
    have begun : ((paddedRequest 259).drop 128).drop 128 ≠ [] := List.ne_nil_of_length_pos (by omega)
    have tail := Cut.more _ _ _ second (.last _ begun (by rw [third]; decide))
    rw [List.take_append_drop] at tail
    have whole := Cut.more _ _ _ first tail
    rwa [List.take_append_drop] at whole
  obtain ⟨chains,handed⟩ := handed_exists _ cut.pieces_fit
  refine ⟨_,chains,cut,by simp only [List.map_cons,List.map_nil,first,second,third],handed,?_,
    (segmentation_iff _ _ formed (by rw [length]; decide) _ cut chains handed).mpr (by rw [length]; decide)⟩
  obtain _ | ⟨one,_ | ⟨two,_ | ⟨three,_ | _⟩⟩⟩ := handed
  have mss : tcpMss = 128 := rfl
  have size₁ := handed_chain _ _ one (List.ne_nil_of_length_pos (by omega)) (by omega)
  have size₂ := handed_chain _ _ two (List.ne_nil_of_length_pos (by omega)) (by omega)
  have size₃ := handed_chain _ _ three (List.ne_nil_of_length_pos (by omega)) (by omega)
  rw [first] at size₁
  rw [second] at size₂
  rw [third] at size₃
  simp only [List.map_cons,List.map_nil,List.cons.injEq,and_true]
  omega

/-- 769 bytes, one more than six segments hold. -/
def longRequest : List Byte := paddedRequest 728

theorem longRequest_formed : WellFormed longRequest := paddedRequest_formed 728 (by decide +kernel)

theorem longRequest_refused : longRequest.length ≤ lwipHttpdMaxReqLength ∧ WellFormed longRequest ∧
    ∃ segments chains, Cut tcpMss longRequest segments ∧ List.Forall₂ Handed segments chains ∧
      ¬ (SameService (run httpRecv (.accept ⟨List.replicate 64 0,fun _ => 0⟩) chains)
          (httpRecv (.accept ⟨List.replicate 64 0,fun _ => 0⟩) [longRequest]) ∧
        (run httpRecv (.accept ⟨List.replicate 64 0,fun _ => 0⟩) chains).found.length = 1) := by
  have length : longRequest.length = 769 := paddedRequest_length 728
  have short : longRequest.length ≤ lwipHttpdMaxReqLength := by
    rw [length]
    decide
  obtain ⟨segments,cut⟩ := cut_exists (show 0 < tcpMss by decide) longRequest (by
    rw [← List.length_pos_iff]
    omega)
  obtain ⟨chains,handed⟩ := handed_exists segments cut.pieces_fit
  refine ⟨short,longRequest_formed,segments,chains,cut,handed,?_⟩
  rintro ⟨_,once⟩
  rw [segments_refused _ longRequest longRequest_formed short segments cut chains handed (by omega)] at once
  exact absurd once (by decide)

theorem recv_leds (globals : Globals) (request query rest : List Byte) (clean : 0 ∉ request)
    (text : request = cstr "GET " ++ (exampleUri query ++ chr ' ' :: (rest ++ (crlf ++ crlf)))) (single : chr ' ' ∉ query)
    (valued : ∀ pin, ledName pin ∉ pairs query) :
    (httpRecv (.accept globals) [request]).globals.outputs =
      fun pin => ledValue (ledName pin) (pairs query) (globals.outputs pin) := by
  have plain : 0 ∉ query := by
    intro member
    exact clean (by rw [text]; simp [exampleUri,member])
  have spaceless : chr ' ' ∉ exampleUri query := by
    simp only [exampleUri,List.mem_append,List.mem_cons,not_or]
    exact ⟨by decide,by decide,single⟩
  have parsed := parseData_whole request (exampleUri query) rest clean text spaceless
  obtain ⟨buf,found⟩ := httpFindFile_leds globals (cstr "GET\x00") query (rest ++ (crlf ++ crlf)) plain single valued
  have start : (cstr "GET\x00").length = 4 := by decide
  rw [start] at found
  simp [httpRecv,httpParseRequest,Server.accept,requestData,parsed,found]

/-- The LEDs of a segmented request follow its query. -/
theorem segments_leds (globals : Globals) (request query rest : List Byte) (formed : WellFormed request)
    (text : request = cstr "GET " ++ (exampleUri query ++ chr ' ' :: (rest ++ (crlf ++ crlf)))) (single : chr ' ' ∉ query)
    (valued : ∀ pin, ledName pin ∉ pairs query) (few : request.length ≤ 768) (segments : List (List Byte))
    (cut : Cut tcpMss request segments) (chains : List (List (List Byte)))
    (handed : List.Forall₂ Handed segments chains) :
    (run httpRecv (.accept globals) chains).globals.outputs =
      fun pin => ledValue (ledName pin) (pairs query) (globals.outputs pin) := by
  have short : request.length ≤ lwipHttpdMaxReqLength := few.trans (by decide)
  have same := (segments_served globals request formed short segments cut chains handed few).1
  rw [same.globals]
  exact recv_leds globals request query rest formed.clean text single valued

/-- Both LEDs follow the query: in `http_find_file`, wherever the request lies in memory, and in
`http_recv`, with the request in one pbuf or in up to six segments. A LED that the query does not
name is left alone. -/
theorem leds_follow_query (globals : Globals) (before query tail : List Byte) (clean : 0 ∉ query)
    (single : chr ' ' ∉ query)
    (carried : ∀ pair ∈ query.splitOn (chr '&'), ∀ pin, pairName pair = ledName pin → chr '=' ∈ pair) :
    (∃ after, httpFindFile globals (before ++ (exampleUri query ++ 0 :: tail)) before.length =
        .ok (after,some (cstr "/dudz.html")) ∧
      ∀ pin, after.outputs pin = ledValue (ledName pin) (pairs query) (globals.outputs pin) ∧
        ((∀ pair ∈ pairs query, pairName pair ≠ ledName pin) → after.outputs pin = globals.outputs pin)) ∧
    ∀ rest request, 0 ∉ rest → request = cstr "GET " ++ (exampleUri query ++ chr ' ' :: (rest ++ (crlf ++ crlf))) →
      ((httpRecv (.accept globals) [request]).globals.outputs =
        fun pin => ledValue (ledName pin) (pairs query) (globals.outputs pin)) ∧
      ∀ segments chains, WellFormed request → request.length ≤ 768 → Cut tcpMss request segments →
        List.Forall₂ Handed segments chains →
        (run httpRecv (.accept globals) chains).globals.outputs =
          fun pin => ledValue (ledName pin) (pairs query) (globals.outputs pin) := by
  have valued : ∀ pin, ledName pin ∉ pairs query := by
    intro pin bare
    have plain : chr '=' ∉ ledName pin := by cases pin <;> decide
    exact plain (carried _ (List.mem_of_mem_take bare) pin (pairName_whole _ plain))
  obtain ⟨buf,found⟩ := httpFindFile_leds globals before query tail clean single valued
  refine ⟨⟨_,found,fun pin => ⟨rfl,ledValue_unnamed _ _ _⟩⟩,?_⟩
  intro rest request plain text
  have whole : 0 ∉ request := by
    simp only [text,exampleUri,List.mem_append,List.mem_cons,not_or]
    exact ⟨by decide,⟨by decide,by decide,clean⟩,by decide,plain,by decide,by decide⟩
  refine ⟨recv_leds globals request query rest whole text single valued,?_⟩
  intro segments chains formed few cut handed
  exact segments_leds globals request query rest formed text single valued few segments cut chains handed

theorem leds_follow_switch :
    let query := cstr "led1=0&led0=1&led0=2&led1=1&led1=0=1"
    let request := cstr "GET " ++ (exampleUri query ++ chr ' ' :: (cstr "HTTP/1.0" ++ (crlf ++ crlf)))
    (∃ after, httpFindFile ⟨List.replicate 64 0,fun _ => 0⟩
        (cstr "GET\x00" ++ (exampleUri query ++ 0 :: cstr "HTTP/1.0\r\n\r\n")) 4 = .ok (after,some (cstr "/dudz.html")) ∧
      after.outputs .boardLed0 = 1 ∧ after.outputs .boardLed1 = 1) ∧
      (httpRecv (.accept ⟨List.replicate 64 0,fun _ => 0⟩) [request]).globals.outputs .boardLed0 = 1 ∧
      (httpRecv (.accept ⟨List.replicate 64 0,fun _ => 0⟩) [request]).globals.outputs .boardLed1 = 1 := by
  intro query request
  have carried : ∀ pair ∈ query.splitOn (chr '&'), chr '=' ∈ pair := by decide
  obtain ⟨⟨after,found,leds⟩,received⟩ := leds_follow_query ⟨List.replicate 64 0,fun _ => 0⟩ (cstr "GET\x00") query
    (cstr "HTTP/1.0\r\n\r\n") (by decide) (by decide) (fun pair member _ _ => carried pair member)
  obtain ⟨outputs,_⟩ := received (cstr "HTTP/1.0") request (by decide) rfl
  have first : ledValue (ledName .boardLed0) (pairs query) 0 = 1 := by decide
  have second : ledValue (ledName .boardLed1) (pairs query) 0 = 1 := by decide
  refine ⟨⟨after,found,(leds _).1.trans first,(leds _).1.trans second⟩,?_,?_⟩
  · rw [outputs]
    exact first
  · rw [outputs]
    exact second

end Swip.Apps
