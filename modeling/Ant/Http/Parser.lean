import Ant.Http.Writer

/-! Requests from bytes: `http1_parser.c`, with llhttp as a parameter. Memory does not run out. -/
namespace Ant.Http.Parser
open Library ByteLayout ByteString Writer

def strtoull (text : Bytes) : Nat :=
  let blanks := text.dropWhile fun char => char = 32 || 9 ≤ char && char ≤ 13
  let (negative,digits) := match blanks with
    | 43 :: rest => (false,rest)
    | 45 :: rest => (true,rest)
    | _ => (false,blanks)
  let value := (digits.takeWhile fun char => (digit 10 char).isSome).foldl
    (fun sum char => sum * 10 + (digit 10 char).getD 0) 0
  if value ≥ 2^64 then 2^64 - 1 else if negative then (2^64 - value) % 2^64 else value

/-- The callbacks that llhttp makes. A span is a part of the method, the target, a header name or value, or the body. -/
inductive Event where
  | method (span : Bytes)
  | url (span : Bytes)
  | headerField (span : Bytes)
  | headerValue (span : Bytes)
  | headersComplete
  | body (span : Bytes)
  | messageComplete
  deriving DecidableEq,Repr

/-- `ant_http1_parser_ctx_t`: the buffers, and the parts of the request that the callbacks set. -/
structure Context where
  method : Bytes
  target : Bytes
  headerField : Bytes
  headerValue : Bytes
  body : Bytes
  headers : List (Bytes × Bytes)
  host : Option Bytes
  contentType : Option Bytes
  contentLength : Nat
  messageComplete : Bool
  deriving DecidableEq,Repr

def Context.empty : Context := ⟨[],[],[],[],[],[],none,none,0,false⟩

/-- `parser_copy_header`: the strings end at their first zero byte. -/
def copyHeader (ctx : Context) : Context :=
  let name := untilZero ctx.headerField
  let value := untilZero ctx.headerValue
  let taken := {ctx with headerField := [], headerValue := [], headers := ctx.headers ++ [(name,value)]}
  if sameIgnoringCase name (ascii "host") then {taken with host := some value}
  else if sameIgnoringCase name (ascii "content-type") then {taken with contentType := some value}
  else if sameIgnoringCase name (ascii "content-length") then {taken with contentLength := strtoull value}
  else taken

def onHeaderField (ctx : Context) (span : Bytes) : Context :=
  let ctx := if ctx.headerValue.length > 0 then copyHeader ctx else ctx
  {ctx with headerField := ctx.headerField ++ span}

def onHeaderValue (ctx : Context) (span : Bytes) : Context := {ctx with headerValue := ctx.headerValue ++ span}

def onHeadersComplete (ctx : Context) : Context :=
  if ctx.headerField.length > 0 ∨ ctx.headerValue.length > 0 then copyHeader ctx else ctx

/-- `g_request_settings`. -/
def callback (ctx : Context) : Event → Context
  | .method span => {ctx with method := ctx.method ++ span}
  | .url span => {ctx with target := ctx.target ++ span}
  | .headerField span => onHeaderField ctx span
  | .headerValue span => onHeaderValue ctx span
  | .headersComplete => onHeadersComplete ctx
  | .body span => {ctx with body := ctx.body ++ span}
  | .messageComplete => {ctx with messageComplete := true}

inductive Errno where
  | ok
  | paused
  | failed
  deriving DecidableEq,Repr

/-- What one call of `llhttp_execute` does: its callbacks in order, its result and where it stopped. -/
structure Execution (σ : Type) where
  events : List Event
  err : Errno
  errorPos : Option Nat
  state : σ

structure Llhttp where
  σ : Type
  init : σ
  execute : σ → Bytes → Execution σ
  keepAlive : σ → Bool
  major : σ → Nat
  minor : σ → Nat

structure ParsedRequest where
  method : Bytes
  target : Bytes
  host : Option Bytes
  contentType : Option Bytes
  headers : List (Bytes × Bytes)
  body : Bytes
  contentLength : Nat
  consumedLen : Nat
  major : Nat
  minor : Nat
  absoluteTarget : Bool
  keepAlive : Bool
  deriving DecidableEq,Repr

inductive ParseResult where
  | incomplete
  | ok (request : ParsedRequest)
  | error
  deriving DecidableEq,Repr

def request (llhttp : Llhttp) (state : llhttp.σ) (ctx : Context) (consumed : Nat) : ParsedRequest :=
  let target := untilZero ctx.target
  ⟨untilZero ctx.method,target,ctx.host,ctx.contentType,ctx.headers,ctx.body,ctx.contentLength,consumed,
    llhttp.major state,llhttp.minor state,(ascii "http://").isPrefixOf target || (ascii "https://").isPrefixOf target,
    llhttp.keepAlive state⟩

/-- The context after its request has been given away; the buffers of an unfinished header stay. -/
def Context.taken (ctx : Context) : Context :=
  {ctx with method := [], target := [], body := [], headers := [], host := none, contentType := none, contentLength := 0}

def parseRequest (llhttp : Llhttp) (data : Bytes) : ParseResult :=
  let run := llhttp.execute llhttp.init data
  let ctx := run.events.foldl callback .empty
  let consumed := run.errorPos.getD 0
  if run.err = .failed then .error
  else if ctx.messageComplete = false then .incomplete
  else .ok (request llhttp run.state ctx (if consumed = 0 then data.length else consumed))

structure ConnParser (llhttp : Llhttp) where
  parser : llhttp.σ
  ctx : Context
  fedLen : Nat

def ConnParser.init (llhttp : Llhttp) : ConnParser llhttp := ⟨llhttp.init,.empty,0⟩

/-- `ant_http1_conn_parser_execute` on the bytes that the connection has read so far. -/
def connParserExecute (llhttp : Llhttp) (cp : ConnParser llhttp) (data : Bytes) : ParseResult × ConnParser llhttp :=
  if cp.fedLen > data.length then (.error,cp)
  else if data.length - cp.fedLen = 0 then (.incomplete,cp)
  else
    let run := llhttp.execute cp.parser (data.drop cp.fedLen)
    let ctx := run.events.foldl callback cp.ctx
    let consumed := match run.errorPos with
      | none => 0
      | some position => position + cp.fedLen
    let next := ⟨run.state,ctx,data.length⟩
    if run.err = .failed then (.error,next)
    else if ctx.messageComplete = false then (.incomplete,next)
    else (.ok (request llhttp run.state ctx (if consumed = 0 then data.length else consumed)),{next with ctx := ctx.taken})

def parseArrivals (llhttp : Llhttp) : ConnParser llhttp → Bytes → List Bytes → ParseResult
  | _,_,[] => .incomplete
  | cp,buffer,chunk :: rest =>
    match connParserExecute llhttp cp (buffer ++ chunk) with
    | (.incomplete,next) => parseArrivals llhttp next (buffer ++ chunk) rest
    | (result,_) => result

end Ant.Http.Parser
