import Swip.Apps.Httpd

/-! From received pbufs to the URI: `http_recv` and `http_parse_request` of `httpd.c`. A pbuf
chain is the list of its payloads. The parser starts again from the first byte with every
chain that arrives, until it finds the end of the header. -/
namespace Swip.Apps
open Library.CString Device

def tcpMss : Nat := 128
def lwipHttpdReqQueuelen : Nat := 10
def lwipHttpdMaxReqLength : Nat := min 1023 (lwipHttpdReqQueuelen * pbufPoolBufsize)
def lwipHttpdReqBufsize : Nat := lwipHttpdMaxReqLength
def minReqLen : Nat := 7

def crlf : List Byte := cstr "\r\n"

def lwipStrnstr (buffer token : List Byte) : Option Nat := strnstr 0 token buffer

/-- `hs` and the variables around it. `req` is the queue `hs->req`, `handle` the file being
sent with its `is_09`. `found` logs the URIs `http_find_file` was called with, and after a
fault nothing runs any more. -/
structure Server where
  globals : Globals
  req : List (List Byte)
  handle : Option (List Byte × Bool)
  closed : Bool
  fault : Option Fault
  found : List (List Byte)

def Server.accept (globals : Globals) : Server := ⟨globals,[],none,false,none,[]⟩

/-- The outcomes of looking through the data: the memory with the URI ended and a pointer to
it, or what is missing. -/
inductive Parsed
  | incomplete
  | unsupported
  | complete (mem : List Byte) (uri : Nat) (is09 : Bool)
deriving DecidableEq, Repr

def parseData (data : List Byte) : Parsed :=
  if data.length < minReqLen ∨ lwipStrnstr data crlf = none then .incomplete
  else if data.take 4 ≠ cstr "GET " then .unsupported
  else
    let left := data.drop 4
    let (sp2,is09) := match lwipStrnstr left (cstr " ") with
      | some sp2 => (some sp2,false)
      | none => (lwipStrnstr left crlf,true)
    match sp2 with
    | none => .incomplete
    | some uriLen =>
      if lwipStrnstr data (crlf ++ crlf) = none then .incomplete
      else .complete ((data.set 3 0).set (4 + uriLen) 0) 4 is09

/-- A queue of several pbufs is copied to `httpd_req_buf`, a single pbuf is read in place. -/
def requestData : List (List Byte) → List Byte
  | [payload] => payload
  | req => req.flatten.take lwipHttpdMaxReqLength

/-- Error pages are off, so that `http_find_error_file` returns `ERR_ARG`. -/
def httpParseRequest (server : Server) (p : List (List Byte)) : Server × Except Fault ErrT :=
  if server.handle ≠ none then (server,.ok .use)
  else
    let server := {server with req := server.req ++ p}
    match parseData (requestData server.req) with
    | .unsupported => (server,.ok .arg)
    | .complete mem uri is09 =>
      let server := {server with found := server.found ++ [strAt 0 mem uri]}
      match httpFindFile server.globals mem uri with
      | .error fault => (server,.error fault)
      | .ok (globals,file) => ({server with globals := globals, handle := file.map (·,is09)},.ok .ok)
    | .incomplete =>
      if server.req.flatten.length ≤ lwipHttpdReqBufsize ∧ server.req.length ≤ lwipHttpdReqQueuelen then
        (server,.ok .inprogress)
      else (server,.ok .arg)

/-- `http_recv` with data. Sending the file, in `http_send`, changes nothing here. -/
def httpRecv (server : Server) (p : List (List Byte)) : Server :=
  if server.closed = true ∨ server.fault ≠ none ∨ server.handle ≠ none then server
  else match httpParseRequest server p with
    | (server,.error fault) => {server with fault := some fault}
    | (server,.ok parsed) =>
      let server := if parsed = .inprogress then server else {server with req := []}
      if parsed = .arg then {server with closed := true} else server

/-! ### Whole and unfinished requests -/

/-- A GET request as a client sends it: a request line with a second space, and an empty line
that comes at the end and not before. -/
structure WellFormed (request : List Byte) : Prop where
  clean : 0 ∉ request
  line : ∃ uri rest, request = cstr "GET " ++ (uri ++ chr ' ' :: (rest ++ (crlf ++ crlf))) ∧ chr ' ' ∉ uri
  first : ¬ (crlf ++ crlf) <:+: request.dropLast

theorem requestData_short (req : List (List Byte)) (short : req.flatten.length ≤ lwipHttpdMaxReqLength) :
    requestData req = req.flatten := by
  unfold requestData
  split
  · exact List.flatten_singleton.symm
  · exact List.take_of_length_le short

theorem lwipStrnstr_none_iff (data token : List Byte) (begun : token ≠ []) (clean : 0 ∉ data) :
    lwipStrnstr data token = none ↔ ¬ token <:+: data := by
  rw [lwipStrnstr,← strnstr_some_iff token data begun clean,Option.not_isSome_iff_eq_none]

theorem parseData_unfinished (request front rest : List Byte) (formed : WellFormed request)
    (split : front ++ rest = request) (more : rest ≠ []) : parseData front = .incomplete := by
  have clean : 0 ∉ front := by
    intro member
    exact formed.clean (by rw [← split]; exact List.mem_append_left _ member)
  have unended : lwipStrnstr front (crlf ++ crlf) = none := by
    rw [lwipStrnstr_none_iff front _ (by decide) clean]
    intro inside
    apply formed.first
    rw [← split,List.dropLast_append_of_ne_nil more]
    exact inside.trans (List.prefix_append _ _).isInfix
  obtain ⟨uri,tail,text,_⟩ := formed.line
  unfold parseData
  split_ifs with early method
  · rfl
  · have long : 4 ≤ front.length := by
      simp only [minReqLen,not_or,Nat.not_lt] at early
      omega
    exfalso
    apply method
    rw [← List.take_append_of_le_length long,split,text]
    exact List.take_left' (by decide)
  · -- both outcomes of the search for the second space leave the empty line missing
    dsimp only
    split <;> rfl

theorem parseData_whole (request uri rest : List Byte) (clean : 0 ∉ request)
    (text : request = cstr "GET " ++ (uri ++ chr ' ' :: (rest ++ (crlf ++ crlf)))) (single : chr ' ' ∉ uri) :
    parseData request = .complete (cstr "GET\x00" ++ (uri ++ 0 :: (rest ++ (crlf ++ crlf)))) 4 false := by
  have ended : (crlf ++ crlf) <:+: request := by
    refine ⟨cstr "GET " ++ (uri ++ chr ' ' :: rest),[],?_⟩
    simp [text]
  have found : lwipStrnstr request (crlf ++ crlf) ≠ none := by
    rw [Ne,lwipStrnstr_none_iff request _ (by decide) clean,not_not]
    exact ended
  have line : lwipStrnstr request crlf ≠ none := by
    rw [Ne,lwipStrnstr_none_iff request _ (by decide) clean,not_not]
    exact (List.prefix_append crlf crlf).isInfix.trans ended
  have long : ¬ request.length < minReqLen := by
    have size : (cstr "GET ").length = 4 ∧ (crlf ++ crlf).length = 4 := by decide
    simp only [text,minReqLen,List.length_append,List.length_cons] at size ⊢
    omega
  have method : request.take 4 = cstr "GET " := by
    rw [text]
    exact List.take_left' (by decide)
  have left : request.drop 4 = uri ++ chr ' ' :: (rest ++ (crlf ++ crlf)) := by
    rw [text]
    exact List.drop_left' (by decide)
  have second : lwipStrnstr (request.drop 4) (cstr " ") = some uri.length := by
    rw [left]
    apply strnstr_single uri _ _ _ (by decide) single
    intro member
    exact clean (by rw [text]; simp [member])
  have written : (request.set 3 0).set (4 + uri.length) 0 = cstr "GET\x00" ++ (uri ++ 0 :: (rest ++ (crlf ++ crlf))) := by
    have method : (cstr "GET ").set 3 0 = cstr "GET\x00" := by decide
    have length : (cstr "GET\x00").length = 4 := by decide
    rw [text,List.set_append_left 3 0 (by decide),method,List.set_append_right _ _ (by omega)]
    simp [length]
  rw [parseData,if_neg (by simp only [not_or]; exact ⟨long,line⟩),if_neg (not_not.mpr method)]
  simp only [second,if_neg found,written]

end Swip.Apps
