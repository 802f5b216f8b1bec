import Ant.Http.Writer
import Ant.Library.OrderedMap
import Mathlib.Data.List.Sort

/-! The `ServerResponse` of `node:http`: `http.mjs` and what it calls of the writer. A parameter stands for the case
mapping of the engine's strings. -/
namespace Ant.Http.ServerResponse
open Library ByteLayout ByteString HttpMessage Writer

structure UtcTime where
  weekday : Fin 7
  day : Nat
  month : Fin 12
  year : Nat
  hour : Nat
  minute : Nat
  second : Nat
  deriving DecidableEq,Repr

def padded (width value : Nat) : Bytes :=
  List.replicate (width - (numeral 10 value).length) 48 ++ numeral 10 value

def dayNames : List String := ["Sun","Mon","Tue","Wed","Thu","Fri","Sat"]

def monthNames : List String := ["Jan","Feb","Mar","Apr","May","Jun","Jul","Aug","Sep","Oct","Nov","Dec"]

def toUTCString (time : UtcTime) : Bytes :=
  ascii (dayNames.get time.weekday) ++ ascii ", " ++ padded 2 time.day ++ ascii " " ++ ascii (monthNames.get time.month) ++
    ascii " " ++ padded 4 time.year ++ ascii " " ++ padded 2 time.hour ++ ascii ":" ++ padded 2 time.minute ++ ascii ":" ++
    padded 2 time.second ++ ascii " GMT"

/-- What went to the socket: the head, and the bytes after it. The socket takes bytes while it is open. -/
structure Output where
  headersSent : Bool
  streaming : Bool
  writableEnded : Bool
  isOpen : Bool
  head : Bytes
  body : Bytes
  deriving DecidableEq,Repr

/-- `method` and `keepAlive` are of the request, `closing` is of the server. Header values are strings. -/
structure Response where
  method : Bytes
  keepAlive : Bool
  closing : Bool
  now : UtcTime
  statusCode : Int
  statusMessage : Option Bytes
  sendDate : Bool
  headers : List (Bytes × Bytes)
  headerNames : List (Bytes × Bytes)
  out : Output
  deriving DecidableEq,Repr

def create (method : Bytes) (keepAlive closing : Bool) (now : UtcTime) : Response :=
  ⟨method,keepAlive,closing,now,200,none,true,[],[],⟨false,false,false,true,[],[]⟩⟩

def statusCodes : List (Int × String) := [
  (200,"OK"),(201,"Created"),(202,"Accepted"),(204,"No Content"),(301,"Moved Permanently"),(302,"Found"),(303,"See Other"),
  (304,"Not Modified"),(307,"Temporary Redirect"),(308,"Permanent Redirect"),(400,"Bad Request"),(401,"Unauthorized"),
  (403,"Forbidden"),(404,"Not Found"),(405,"Method Not Allowed"),(408,"Request Timeout"),(409,"Conflict"),(410,"Gone"),
  (413,"Payload Too Large"),(415,"Unsupported Media Type"),(421,"Misdirected Request"),(429,"Too Many Requests"),
  (500,"Internal Server Error"),(501,"Not Implemented"),(502,"Bad Gateway"),(503,"Service Unavailable"),(504,"Gateway Timeout")]

def toInt32 (value : Int) : Int := (value + 2^31) % 2^32 - 2^31

def arrayIndex (key : Bytes) : Option Nat :=
  if key.head? = some 48 ∧ key.length > 1 ∨ key.length > 10 ∨ key.any (fun char => char < 48 || 57 < char) then none
  else (readNumeral 10 key).filter (· < 2^32 - 1)

def objectKeys (keys : List Bytes) : List Bytes :=
  (keys.filter fun key => (arrayIndex key).isSome).insertionSort
    (fun first second => (arrayIndex first).getD 0 ≤ (arrayIndex second).getD 0) ++ keys.filter fun key => (arrayIndex key).isNone

def hasResponseBody (method : Bytes) (statusCode : Int) : Bool :=
  if method = ascii "HEAD" then false else if statusCode = 204 ∨ statusCode = 304 then false else true

section Methods
variable (lower : Bytes → Bytes)

def setHeader (response : Response) (name value : Bytes) : Response :=
  {response with
    headers := OrderedMap.put (lower name) value response.headers
    headerNames := OrderedMap.put (lower name) name response.headerNames}

def getHeader (response : Response) (name : Bytes) : Option Bytes := OrderedMap.find (lower name) response.headers

def applyHeaderObject (response : Response) (headers : List (Bytes × Bytes)) : Response :=
  headers.foldl (fun response header => setHeader lower response header.1 header.2) response

def writeHead (response : Response) (statusCode : Int) (statusMessage : Option Bytes) (headers : List (Bytes × Bytes)) : Response :=
  let response := {response with statusCode := toInt32 statusCode}
  match statusMessage with
  | some message => applyHeaderObject lower {response with statusMessage := some message} headers
  | none => applyHeaderObject lower response headers

def withDate (response : Response) : Response :=
  if response.sendDate && (getHeader lower response (ascii "date")).isNone then
    setHeader lower response (ascii "Date") (toUTCString response.now)
  else response

/-- `||` takes the name under which a header was set, unless it is empty. -/
def headerName (response : Response) (key : Bytes) : Bytes :=
  match OrderedMap.find key response.headerNames with
  | some name => if name = [] then key else name
  | none => key

def rawHeaders (response : Response) : List (Bytes × Bytes) :=
  (objectKeys (response.headers.map Prod.fst)).map fun key =>
    (headerName response key,(OrderedMap.find key response.headers).getD (ascii "undefined"))

def shouldKeepAlive (response : Response) : Bool :=
  match getHeader lower response (ascii "connection") with
  | none => response.keepAlive
  | some connection =>
    if lower connection = ascii "close" then false
    else if lower connection = ascii "keep-alive" then true
    else response.keepAlive

def statusText (response : Response) : Bytes :=
  match response.statusMessage with
  | some (char :: message) => char :: message
  | _ =>
    match OrderedMap.find response.statusCode statusCodes with
    | some text => ascii text
    | none => defaultStatusText response.statusCode

def headBytes (response : Response) (bodyIsStream : Bool) (bodySize : Nat) : Bytes :=
  Writer.writeHead response.statusCode (statusText response) (rawHeaders (withDate lower response)) bodyIsStream bodySize
    (shouldKeepAlive lower (withDate lower response))

def Output.write (out : Output) (data : Bytes) : Output := if out.isOpen then {out with body := out.body ++ data} else out

def sendHead (response : Response) (bodyIsStream : Bool) (bodySize : Nat) : Response :=
  if response.out.headersSent then response
  else {withDate lower response with out := {response.out with
    headersSent := true
    head := headBytes lower response bodyIsStream bodySize}}

def responseBody (response : Response) (chunk : Bytes) : Bytes :=
  if hasResponseBody response.method response.statusCode then chunk else []

def write (response : Response) (chunk : Bytes) : Response :=
  let body := responseBody response chunk
  let response := sendHead lower response true 0
  let out := {response.out with streaming := true}
  {response with out := if body.length > 0 then out.write (writeChunk body) else out}

def finish (response : Response) (body : Bytes) : Response :=
  if response.out.streaming then
    let response := sendHead lower response true 0
    let out := if body.length > 0 then response.out.write (writeChunk body) else response.out
    {response with out := out.write writeFinalChunk}
  else
    let response := sendHead lower response false body.length
    {response with out := if body.length > 0 then response.out.write body else response.out}

/-- `end`: a connection that is not kept alive is shut down. -/
def end_ (response : Response) (chunk : Bytes) : Response :=
  if response.out.writableEnded then response
  else
    let response := finish lower response (responseBody response chunk)
    let keepAlive := !response.closing && shouldKeepAlive lower response
    {response with out := {response.out with writableEnded := true, isOpen := keepAlive}}

inductive Call where
  | setHeader (name value : Bytes)
  | writeHead (statusCode : Int) (statusMessage : Option Bytes) (headers : List (Bytes × Bytes))
  | write (chunk : Bytes)
  | end_ (chunk : Bytes)
  deriving DecidableEq,Repr

def step (response : Response) : Call → Response
  | .setHeader name value => setHeader lower response name value
  | .writeHead statusCode statusMessage headers => writeHead lower response statusCode statusMessage headers
  | .write chunk => write lower response chunk
  | .end_ chunk => end_ lower response chunk

def run (response : Response) (calls : List Call) : Response := calls.foldl (step lower) response

end Methods

end Ant.Http.ServerResponse
