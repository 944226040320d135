import Swip.Apps.Tcp
import Swip.Library.CString
import Mathlib.Logic.Function.Basic

/-! The HTTP server of `httpd.c`: from a URI to the file that is served, with the CGI handler
that switches the LEDs. A pointer into the request is an index into the memory that holds
it, NULL is `none`. The entries of `hs->params` and `hs->param_vals` that a request fills
in are lists; a fault is a string function called with NULL, or an entry read beyond them. -/
namespace Swip.Apps
open Library.CString

def chr (c : Char) : Byte := UInt8.ofNat c.toNat

inductive Fault
  | nullPointer | unfilled
deriving DecidableEq, Repr

inductive Pin
  | boardLed0 | boardLed1
deriving DecidableEq, Repr

abbrev Outputs := Pin → Nat

/-- TI-RTOS sets the named pin and no other. -/
def pinSetOutputValue (outputs : Outputs) (pin : Pin) (value : Nat) : Outputs :=
  Function.update outputs pin value

/-! ### Parameters -/

def lwipHttpdMaxCgiParameters : Nat := 16

structure CgiParams where
  count : Nat
  params : List (Option Nat)
  paramVals : List (Option Nat)
deriving DecidableEq, Repr

def CgiParams.empty : CgiParams := ⟨0,[],[]⟩

/-- The loop of `extract_uri_parameters`, with the passes that are left. -/
def extractLoop : Nat → List Byte → Option Nat → List Byte × CgiParams
  | 0, mem, _ => (mem,.empty)
  | _ + 1, mem, none => (mem,.empty)
  | loop + 1, mem, some param =>
    let (mem,pair) := cut 0 mem param (chr '&')
    -- the last pair ends at a space, if there is one
    let mem := if pair = none then (cut 0 mem param (chr ' ')).1 else mem
    let (mem,value) := cut 0 mem param (chr '=')
    let (mem,later) := extractLoop loop mem pair
    (mem,⟨later.count + 1,some param :: later.params,value :: later.paramVals⟩)

def extractUriParameters (mem : List Byte) : Option Nat → List Byte × CgiParams
  | none => (mem,.empty)
  | some params =>
    if mem[params]? = some 0 then (mem,.empty)
    else extractLoop lwipHttpdMaxCgiParameters mem (some params)

/-! ### The LED handler -/

def readEntry (entries : List (Option Nat)) (i : Nat) : Except Fault (Option Nat) :=
  match entries[i]? with
  | none => .error .unfilled
  | some entry => .ok entry

/-- `strcmp(s, text) == 0` -/
def strcmpEq (mem : List Byte) (s : Option Nat) (text : List Byte) : Except Fault Bool :=
  match s with
  | none => .error .nullPointer
  | some i => .ok (strAt 0 mem i = text)

/-- One pass of either loop of `extractDudz`; they differ in the name and the pin. -/
def ledEntry (mem : List Byte) (pcParam pcValue : List (Option Nat)) (name : List Byte) (pin : Pin)
    (outputs : Outputs) (i : Nat) : Except Fault Outputs := do
  let param ← readEntry pcParam i
  let named ← strcmpEq mem param name
  if named then
    let value ← readEntry pcValue i
    let zero ← strcmpEq mem value (cstr "0")
    let outputs := if zero then pinSetOutputValue outputs pin 0 else outputs
    let value ← readEntry pcValue i
    let one ← strcmpEq mem value (cstr "1")
    return if one then pinSetOutputValue outputs pin 1 else outputs
  else return outputs

def extractDudz (mem : List Byte) (iNumParams : Nat) (pcParam pcValue : List (Option Nat)) (outputs : Outputs) :
    Except Fault (Outputs × List Byte) := do
  let outputs ← (List.range iNumParams).foldlM (ledEntry mem pcParam pcValue (cstr "led0") .boardLed0) outputs
  let outputs ← (List.range iNumParams).foldlM (ledEntry mem pcParam pcValue (cstr "led1") .boardLed1) outputs
  return (outputs,cstr "/dudz.html")

structure TCGI where
  pcCGIName : List Byte
  pfnCGIHandler : List Byte → Nat → List (Option Nat) → List (Option Nat) → Outputs → Except Fault (Outputs × List Byte)

def myCGI : List TCGI := [⟨cstr "/example.cgi",extractDudz⟩]

/-! ### Files -/

def fsRoot : List (List Byte) :=
  [cstr "/leds.html",cstr "/dudz.html",cstr "/index.html",cstr "/404.html",cstr "/img/sics.gif"]

def fsOpen (name : List Byte) : Option (List Byte) := fsRoot.find? (· = name)

def httpGet404File : Option (List Byte) :=
  fsOpen (cstr "/404.html") <|> fsOpen (cstr "/404.htm") <|> fsOpen (cstr "/404.shtml")

def gPsDefaultFilenames : List (List Byte) :=
  [cstr "/index.shtml",cstr "/index.ssi",cstr "/index.shtm",cstr "/index.html",cstr "/index.htm"]

def sizeofHttpUriBuf : Nat := 64

/-- What outlives a request: `http_uri_buf` and the pins. -/
structure Globals where
  httpUriBuf : List Byte
  outputs : Outputs

/-- The loop over the default names. A name is copied without its terminator, so that what
`http_uri_buf` held before may follow it. -/
def defaultLoop (copyLen : Nat) : List (List Byte) → List Byte → List Byte × Option (List Byte)
  | [], buf => (buf,none)
  | name :: names, buf =>
    let buf := if copyLen > 0 then memcpy buf copyLen (name.take (sizeofHttpUriBuf - copyLen - 1)) else buf
    let fileName := if copyLen > 0 then strAt 0 buf 0 else name
    match fsOpen fileName with
    | some file => (buf,some file)
    | none => defaultLoop copyLen names buf

def defaultFile (buf uri : List Byte) : List Byte × Option (List Byte) :=
  if uri.getLast? = some (chr '/') then
    let copyLen := min (sizeofHttpUriBuf - 1) (uri.length - 1)
    let buf := if copyLen > 0 then memcpy buf 0 (uri.take copyLen ++ [0]) else buf
    defaultLoop copyLen gPsDefaultFilenames buf
  else (buf,none)

/-- `http_find_file`; the result has the file `http_init_file` is given. -/
def httpFindFile (globals : Globals) (mem : List Byte) (uri : Nat) :
    Except Fault (Globals × Option (List Byte)) :=
  let (buf,file) := defaultFile globals.httpUriBuf (strAt 0 mem uri)
  let globals := {globals with httpUriBuf := buf}
  match file with
  | some file => .ok (globals,some file)
  | none =>
    let (mem,params) := cut 0 mem uri (chr '?')
    match myCGI.find? (·.pcCGIName = strAt 0 mem uri) with
    | none => .ok (globals,fsOpen (strAt 0 mem uri) <|> httpGet404File)
    | some cgi => do
      let (mem,cgiParams) := extractUriParameters mem params
      let (outputs,name) ← cgi.pfnCGIHandler mem cgiParams.count cgiParams.params cgiParams.paramVals globals.outputs
      return ({globals with outputs := outputs},fsOpen name <|> httpGet404File)

end Swip.Apps
