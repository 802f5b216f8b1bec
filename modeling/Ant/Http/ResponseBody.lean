import Ant.Http.ResponseHead

/-! What a client reads of a `node:http` response: when the next response starts where the client expects it. -/
namespace Ant.Http.ResponseBody
open Library ByteLayout ByteString HttpMessage Writer ServerResponse ResponseHead List

/-- The step keeps to the head: the first `write` is not for a message without a body, neither is what `end` writes at once,
and nothing is written after `end`. -/
def orderly (response : Response) : Call → Bool
  | .write chunk =>
    if response.out.headersSent then
      !response.out.writableEnded || !response.out.isOpen || responseBody response chunk = []
    else !bodiless response.method response.statusCode.toNat
  | .end_ chunk =>
    response.out.headersSent || !bodiless response.method response.statusCode.toNat || responseBody response chunk = []
  | .setHeader .. | .writeHead .. => true

def sends (response : Response) : Call → Bool
  | .write _ | .end_ _ => !response.out.headersSent
  | .setHeader .. | .writeHead .. => false

def isLine (text : Bytes) : Bool := !text.contains 13 && !text.contains 10

variable {response : Response} {out : Output} {chunk : Bytes}

section Steps
variable (lower : Bytes → Bytes)

/-- The status has three digits, the names are tokens, and no text that is printed holds the end of a line. -/
def printable (response : Response) : Bool :=
  100 ≤ response.statusCode && response.statusCode ≤ 999 && isLine (printed (statusText response)) &&
    (sentFields (rawHeaders (withDate lower response))).all fun field =>
      field.1 != [] && field.1.all isToken && isLine field.2

def allOrderly : Response → List Call → Bool
  | _,[] => true
  | response,call :: calls => orderly response call && allOrderly (step lower response call) calls

/-- The response is printable when a call of the run sends its head. -/
def headPrintable : Response → List Call → Bool
  | _,[] => true
  | response,call :: calls =>
    (!sends response call || printable lower response) && headPrintable (step lower response call) calls

section Framing

structure Framing where
  status : Nat
  stream : Bool
  size : Nat

def Framing.length (framing : Framing) : BodyLength := if framing.stream then .chunked else .sized framing.size

def Framed (head : Bytes) (framing : Framing) : Prop :=
  ∃ read : ResponseHead, read.status = framing.status ∧ bodyLength read.fields = framing.length ∧
    ∀ rest, readResponseHead (head ++ rest) = some (read,rest)

theorem isLine_free {text : Bytes} (line : isLine text = true) : (13 : UInt8) ∉ text := by
  rw [isLine,Bool.and_eq_true] at line
  simpa using line.1

theorem valuesOf_sent {name : Bytes} (headers : List (Bytes × Bytes))
    (managed : ∀ header : Bytes × Bytes, (printed header.1).map toLower = name → isManaged header.1 = true) :
    valuesOf name ((sentFields headers).map fun field => (field.1,trimBlanks field.2)) = [] := by
  refine valuesOf_eq_nil fun field member same => ?_
  obtain ⟨sent,inside,rfl⟩ := mem_map.mp member
  obtain ⟨header,kept,rfl⟩ := mem_map.mp inside
  have unmanaged := (mem_filter.mp kept).2
  rw [managed header same] at unmanaged
  cases unmanaged

theorem bodyLength_sent (headers : List (Bytes × Bytes)) (stream : Bool) (size : Nat) (keepAlive : Bool) :
    bodyLength ((sentFields headers ++ writerFields stream size keepAlive).map fun field => (field.1,trimBlanks field.2)) =
      if stream then .chunked else .sized size := by
  have coded := @valuesOf_sent (ascii "transfer-encoding") headers fun header same => by
    have plain : (printed (ascii "transfer-encoding")).map toLower = ascii "transfer-encoding" := by decide
    simp [isManaged,sameIgnoringCase,same,plain]
  have sized := @valuesOf_sent (ascii "content-length") headers fun header same => by
    have plain : (printed (ascii "content-length")).map toLower = ascii "content-length" := by decide
    simp [isManaged,sameIgnoringCase,same,plain]
  rw [map_append,writerFields_trim,bodyLength,valuesOf_append,valuesOf_append,coded,sized,nil_append,nil_append]
  cases stream with
  | true => cases keepAlive <;> rfl
  | false =>
    have uncoded : valuesOf (ascii "transfer-encoding") (writerFields false size keepAlive) = [] := by
      cases keepAlive <;> rfl
    have length : valuesOf (ascii "content-length") (writerFields false size keepAlive) = [numeral 10 size] := by
      cases keepAlive <;> rfl
    rw [uncoded,length]
    simp [codings,readNumeral_numeral 10 size]

theorem head_framed (stream : Bool) (size : Nat) (fit : printable lower response = true) :
    Framed (headBytes lower response stream size) ⟨response.statusCode.toNat,stream,size⟩ := by
  simp only [printable,Bool.and_eq_true,decide_eq_true_eq] at fit
  obtain ⟨⟨⟨low,high⟩,message⟩,fields⟩ := fit
  have status : response.statusCode = (response.statusCode.toNat : Int) := by omega
  have safe : ∀ field ∈ sentFields (rawHeaders (withDate lower response)), FieldSafe field := by
    intro field member
    have known := all_eq_true.mp fields field member
    simp only [Bool.and_eq_true,bne_iff_ne] at known
    exact ⟨known.1.1,known.1.2,isLine_free known.2⟩
  refine ⟨⟨_,printed (statusText response),_⟩,rfl,bodyLength_sent (rawHeaders (withDate lower response)) stream size
    (shouldKeepAlive lower (withDate lower response)),fun rest => ?_⟩
  rw [headBytes,status]
  exact readResponseHead_writeHead _ _ stream size _ (by omega) (by omega) (isLine_free message) safe rest

end Framing

def Closed (framing : Framing) (base : Bytes) : Prop :=
  if framing.stream then ∃ chunks : List Bytes, (∀ data ∈ chunks, data ≠ []) ∧ base = chunks.flatMap encodeChunk ++ lastChunk
  else base.length = framing.size

inductive Stage (method : Bytes) : Output → Bool → Prop
  | fresh : Stage method ⟨false,false,false,true,[],[]⟩ true
  | streaming {status : Nat} {head : Bytes} {chunks : List Bytes} (framed : Framed head ⟨status,true,0⟩)
      (full : ∀ data ∈ chunks, data ≠ []) :
      Stage method ⟨true,true,false,true,head,chunks.flatMap encodeChunk⟩ (!bodiless method status)
  | ended {stream isOpen : Bool} {framing : Framing} {head base : Bytes} {extra : List Bytes} {good : Bool}
      (framed : Framed head framing) (closed : Closed framing base) (full : ∀ data ∈ extra, data ≠ [])
      (fits : good = true ↔ (bodiless method framing.status = true → base = []) ∧ extra = []) :
      Stage method ⟨true,stream,true,isOpen,head,base ++ extra.flatMap encodeChunk⟩ good

theorem encodeChunk_ne_nil (data : Bytes) : encodeChunk data ≠ [] := by
  simp [encodeChunk,numeral_ne_nil]

theorem flatMap_encodeChunk_eq_nil (chunks : List Bytes) : chunks.flatMap encodeChunk = [] ↔ chunks = [] := by
  cases chunks with
  | nil => simp
  | cons data chunks => simp [encodeChunk_ne_nil]

theorem applyHeaderObject_same (response : Response) {headers : List (Bytes × Bytes)} :
    (applyHeaderObject lower response headers).out = response.out ∧
      (applyHeaderObject lower response headers).method = response.method := by
  induction headers generalizing response with
  | nil => exact ⟨rfl,rfl⟩
  | cons header headers ih => exact ih (setHeader lower response header.1 header.2)

theorem writeHead_same (response : Response) (statusCode : Int) (statusMessage : Option Bytes) (headers : List (Bytes × Bytes)) :
    (ServerResponse.writeHead lower response statusCode statusMessage headers).out = response.out ∧
      (ServerResponse.writeHead lower response statusCode statusMessage headers).method = response.method := by
  cases statusMessage with
  | none => exact applyHeaderObject_same lower _
  | some message => exact applyHeaderObject_same lower _

theorem withDate_method : (withDate lower response).method = response.method := by
  unfold withDate
  split <;> rfl

theorem sendHead_out (stream : Bool) (size : Nat) (fresh : response.out.headersSent = false) :
    (sendHead lower response stream size).out = {response.out with
      headersSent := true
      head := headBytes lower response stream size} := by
  rw [sendHead,if_neg (by simp [fresh])]

theorem sendHead_method (response : Response) (stream : Bool) (size : Nat) :
    (sendHead lower response stream size).method = response.method := by
  unfold sendHead
  split
  · rfl
  · exact withDate_method lower

theorem sendHead_sent (stream : Bool) (size : Nat) (sent : response.out.headersSent = true) :
    sendHead lower response stream size = response := by
  rw [sendHead,if_pos sent]

theorem chunk_append {chunks : List Bytes} (body : Bytes) (full : ∀ data ∈ chunks, data ≠ []) :
    ∃ more : List Bytes, (∀ data ∈ more, data ≠ []) ∧ more.flatMap encodeChunk =
      chunks.flatMap encodeChunk ++ (if body.length > 0 then writeChunk body else []) := by
  by_cases long : body.length > 0
  · refine ⟨chunks ++ [body],fun data member => ?_,?_⟩
    · rcases mem_append.mp member with inside | last
      · exact full data inside
      · rw [mem_singleton.mp last]
        exact length_pos_iff.mp long
    · rw [if_pos long,flatMap_append,flatMap_singleton,writeChunk_eq]
  · exact ⟨chunks,full,by rw [if_neg long,append_nil]⟩

theorem write_out (response : Response) (chunk : Bytes) : (write lower response chunk).out =
    let out := {(sendHead lower response true 0).out with streaming := true}
    if (responseBody response chunk).length > 0 then out.write (writeChunk (responseBody response chunk)) else out := rfl

theorem write_open (data : Bytes) (isOpen : out.isOpen = true) (wanted : Prop) [Decidable wanted] :
    (if wanted then out.write data else out) = {out with body := out.body ++ (if wanted then data else [])} := by
  split
  · rw [Output.write,if_pos isOpen]
  · rw [append_nil]

theorem write_shut (out : Output) (data : Bytes) (shut : out.isOpen = false) (wanted : Prop) [Decidable wanted] :
    (if wanted then out.write data else out) = out := by
  have kept : out.write data = out := by
    rw [Output.write,shut]
    rfl
  rw [kept,ite_self]

theorem chunk_eq_nil (body : Bytes) : (if body.length > 0 then writeChunk body else []) = [] ↔ body = [] := by
  cases body with
  | nil => simp
  | cons char body => simp [writeChunk_eq,encodeChunk_ne_nil]

variable {response : Response} {good : Bool}

theorem stage_write (stage : Stage response.method response.out good)
    (fit : response.out.headersSent = false → printable lower response = true) :
    Stage (write lower response chunk).method (write lower response chunk).out (good && orderly response (.write chunk)) := by
  have method : (write lower response chunk).method = response.method := sendHead_method lower response true 0
  rw [method,write_out]
  generalize same : response.out = out at stage
  cases stage with
  | fresh =>
    have head := sendHead_out lower true 0 (by rw [same])
    have framed := head_framed lower true 0 (fit (by rw [same]))
    obtain ⟨more,full,bytes⟩ := chunk_append (responseBody response chunk) (fun _ member => absurd member not_mem_nil)
    rw [same] at head
    rw [head,write_open _ rfl]
    have kept : (true && orderly response (.write chunk)) = !bodiless response.method response.statusCode.toNat := by
      simp [orderly,same]
    rw [kept]
    have written := @Stage.streaming response.method _ _ more framed full
    rwa [bytes] at written
  | @streaming status head chunks framed full =>
    have sent := sendHead_sent lower true 0 (by rw [same])
    obtain ⟨more,fullMore,bytes⟩ := chunk_append (responseBody response chunk) full
    rw [sent,same,write_open _ rfl]
    have kept : (!bodiless response.method status && orderly response (.write chunk)) = !bodiless response.method status := by
      simp [orderly,same]
    rw [kept]
    have written := @Stage.streaming response.method status head more framed fullMore
    rwa [bytes] at written
  | @ended stream isOpen framing head base extra good framed closed full fits =>
    have sent := sendHead_sent lower true 0 (by rw [same])
    rw [sent,same]
    have kept : orderly response (.write chunk) = (!isOpen || decide (responseBody response chunk = [])) := by
      simp [orderly,same]
    rw [kept]
    cases isOpen with
    | false =>
      rw [write_shut _ _ rfl]
      simp only [Bool.not_false,Bool.true_or,Bool.and_true]
      exact .ended framed closed full fits
    | true =>
      obtain ⟨more,fullMore,bytes⟩ := chunk_append (responseBody response chunk) full
      rw [write_open _ rfl,append_assoc,← bytes]
      refine .ended framed closed fullMore ?_
      rw [← flatMap_encodeChunk_eq_nil more,bytes,append_eq_nil_iff,flatMap_encodeChunk_eq_nil,chunk_eq_nil]
      simp only [Bool.not_true,Bool.false_or,Bool.and_eq_true,decide_eq_true_eq,fits]
      exact and_assoc

theorem end_fresh (chunk : Bytes) (fresh : response.out = ⟨false,false,false,true,[],[]⟩) : ∃ isOpen,
    (end_ lower response chunk).out = ⟨true,false,true,isOpen,headBytes lower response false (responseBody response chunk).length,
      responseBody response chunk⟩ ∧ (end_ lower response chunk).method = response.method := by
  have head := sendHead_out lower false (responseBody response chunk).length (by rw [fresh])
  have method := sendHead_method lower response false (responseBody response chunk).length
  have whole : (if (responseBody response chunk).length > 0 then responseBody response chunk else []) = responseBody response chunk := by
    cases responseBody response chunk <;> simp
  rw [fresh] at head
  rw [end_,if_neg (by simp [fresh]),finish,if_neg (by simp [fresh])]
  dsimp only
  rw [head,write_open _ rfl,whole]
  exact ⟨_,rfl,method⟩

theorem end_streaming (chunk : Bytes) {head body : Bytes} (streams : response.out = ⟨true,true,false,true,head,body⟩) :
    ∃ isOpen, (end_ lower response chunk).out = ⟨true,true,true,isOpen,head,body ++
      (if (responseBody response chunk).length > 0 then writeChunk (responseBody response chunk) else []) ++ lastChunk⟩ ∧
      (end_ lower response chunk).method = response.method := by
  have sent := sendHead_sent lower true 0 (by rw [streams])
  rw [end_,if_neg (by simp [streams]),finish]
  dsimp only
  rw [sent,streams,write_open _ rfl,Output.write,writeFinalChunk_eq]
  exact ⟨_,rfl,rfl⟩

section
variable (stage : Stage response.method response.out good)
include stage

theorem stage_end (fit : response.out.headersSent = false → printable lower response = true) :
    Stage (end_ lower response chunk).method (end_ lower response chunk).out (good && orderly response (.end_ chunk)) := by
  generalize same : response.out = out at stage
  cases stage with
  | fresh =>
    obtain ⟨isOpen,written,method⟩ := end_fresh lower chunk same
    have framed := head_framed lower false (responseBody response chunk).length (fit (by rw [same]))
    have sized : Closed ⟨response.statusCode.toNat,false,(responseBody response chunk).length⟩ (responseBody response chunk) := rfl
    have stage := @Stage.ended response.method false isOpen _ _ _ [] (true && orderly response (.end_ chunk)) framed sized
      (fun _ member => absurd member not_mem_nil) (by simp [orderly,same,or_iff_not_imp_left])
    rwa [flatMap_nil,append_nil,← written,← method] at stage
  | @streaming status head chunks framed full =>
    obtain ⟨isOpen,written,method⟩ := end_streaming lower chunk same
    obtain ⟨more,fullMore,bytes⟩ := chunk_append (responseBody response chunk) full
    rw [written,method,← bytes,← append_nil (_ ++ lastChunk)]
    refine @Stage.ended _ _ _ ⟨status,true,0⟩ _ _ [] _ framed ⟨more,fullMore,rfl⟩ (fun _ member => absurd member not_mem_nil) ?_
    have long : more.flatMap encodeChunk ++ lastChunk ≠ [] := fun blank =>
      absurd (append_eq_nil_iff.mp blank).2 (by decide)
    simp [orderly,same,long]
  | @ended stream isOpen framing head base extra good framed closed full fits =>
    have already : end_ lower response chunk = response := by rw [end_,if_pos (by rw [same])]
    have kept : orderly response (.end_ chunk) = true := by simp [orderly,same]
    rw [already,kept,Bool.and_true,same]
    exact .ended framed closed full fits

theorem stage_step {call : Call} (fit : sends response call = true → printable lower response = true) :
    Stage (step lower response call).method (step lower response call).out (good && orderly response call) := by
  cases call with
  | setHeader name value =>
    rw [orderly,Bool.and_true]
    exact stage
  | writeHead statusCode statusMessage headers =>
    obtain ⟨out,method⟩ := writeHead_same lower response statusCode statusMessage headers
    rw [orderly,Bool.and_true,step,out,method]
    exact stage
  | write chunk => exact stage_write lower stage fun fresh => fit (by rw [sends,fresh]; rfl)
  | end_ chunk => exact stage_end lower stage fun fresh => fit (by rw [sends,fresh]; rfl)

theorem stage_run (calls : List Call) (fit : headPrintable lower response calls = true) :
    Stage (run lower response calls).method (run lower response calls).out (good && allOrderly lower response calls) := by
  induction calls generalizing response good with
  | nil =>
    rw [allOrderly,Bool.and_true]
    exact stage
  | cons call calls ih =>
    rw [headPrintable,Bool.and_eq_true] at fit
    rw [allOrderly,← Bool.and_assoc]
    refine ih (stage_step lower stage fun sending => ?_) fit.2
    have either := fit.1
    rwa [sending,Bool.not_true,Bool.false_or] at either

end

theorem run_method (response : Response) {calls : List Call} : (run lower response calls).method = response.method := by
  induction calls generalizing response with
  | nil => rfl
  | cons call calls ih =>
    refine (ih (step lower response call)).trans ?_
    cases call with
    | setHeader => rfl
    | writeHead statusCode statusMessage headers => exact (writeHead_same lower response statusCode statusMessage headers).2
    | write => exact sendHead_method lower response true 0
    | end_ chunk =>
      rw [step,end_]
      split
      · rfl
      · unfold finish
        split <;> exact sendHead_method lower response _ _

/-- What follows a body that is closed as the head says is what follows it on the connection. -/
theorem readBody_closed {method base : Bytes} {framing : Framing} {read : ResponseHead} (status : read.status = framing.status)
    (length : bodyLength read.fields = framing.length) (wanted : bodiless method framing.status = false)
    (closed : Closed framing base) (rest : Bytes) : ∃ body, readBody method read (base ++ rest) = some (body,rest) := by
  unfold Closed at closed
  unfold Framing.length at length
  split at closed
  next streams =>
    obtain ⟨chunks,full,rfl⟩ := closed
    rw [if_pos streams] at length
    refine ⟨chunks.flatten,?_⟩
    rw [readBody,status,if_neg (by rw [wanted]; exact Bool.false_ne_true),length]
    exact decodeChunked_chunks full rest
  next sized =>
    rw [if_neg sized,← closed] at length
    exact ⟨base,readBody_sized (by rw [status,wanted]) length rest⟩

theorem Stage.reads {method : Bytes} (stage : Stage method out good) (ended : out.writableEnded = true) (next : Bytes) :
    (∃ head body, readResponse method (out.head ++ (out.body ++ next)) = some (head,body,next)) ↔ good = true := by
  cases stage with
  | fresh => simp at ended
  | streaming => simp at ended
  | @ended stream isOpen framing head base extra good framed closed full fits =>
    obtain ⟨read,status,length,reads⟩ := framed
    have whole (left : Bytes) : left ++ next = next ↔ left = [] := by simp
    rw [fits,readResponse]
    simp only [reads,Option.bind_eq_bind,Option.bind_some]
    cases none_ : bodiless method framing.status with
    | true =>
      have all : readBody method read (base ++ extra.flatMap encodeChunk ++ next) =
          some ([],base ++ extra.flatMap encodeChunk ++ next) := by
        rw [readBody,status,if_pos none_]
      rw [all,← flatMap_encodeChunk_eq_nil extra]
      simp [whole,-append_assoc]
    | false =>
      obtain ⟨body,rest⟩ := readBody_closed status length none_ closed (extra.flatMap encodeChunk ++ next)
      rw [append_assoc,rest,← flatMap_encodeChunk_eq_nil extra]
      simp

end Steps

/-- After `end`, with a head that is printable when it is sent, a client that reads the response stops where the next one starts,
if and only if every call of the run was orderly. -/
theorem body_follows_head (lower : Bytes → Bytes) (method : Bytes) (keepAlive closing : Bool) (now : UtcTime) (calls : List Call)
    (ended : (run lower (create method keepAlive closing now) calls).out.writableEnded = true)
    (fit : headPrintable lower (create method keepAlive closing now) calls = true) (next : Bytes) :
    (∃ head body, readResponse method ((run lower (create method keepAlive closing now) calls).out.head ++
      ((run lower (create method keepAlive closing now) calls).out.body ++ next)) = some (head,body,next)) ↔
        allOrderly lower (create method keepAlive closing now) calls = true := by
  have start : Stage (create method keepAlive closing now).method (create method keepAlive closing now).out true := .fresh
  have stage := stage_run lower start calls fit
  have same : (run lower (create method keepAlive closing now) calls).method = method := run_method lower _
  rw [same] at stage
  exact stage.reads ended next

/-- `writeHead(404, "Gone", {"X-A": "b"})`, `write("a")`, `end("b")` for a `GET`. -/
def chunkCalls : List Call := [.writeHead 404 (some (ascii "Gone")) [(ascii "X-A",ascii "b")],.write [97],.end_ [98]]

theorem body_follows_head_chunks :
    (∃ head body, readResponse (ascii "GET") ((run id (create (ascii "GET") true false ⟨0,1,0,2026,0,0,0⟩) chunkCalls).out.head ++
      ((run id (create (ascii "GET") true false ⟨0,1,0,2026,0,0,0⟩) chunkCalls).out.body ++ ascii "HTTP")) =
        some (head,body,ascii "HTTP")) ↔
      allOrderly id (create (ascii "GET") true false ⟨0,1,0,2026,0,0,0⟩) chunkCalls = true :=
  body_follows_head id (ascii "GET") true false _ chunkCalls (by decide +kernel) (by decide +kernel) (ascii "HTTP")

/-- `write("a")`, `end()` for a `HEAD`: the last chunk follows a head that no body follows. A header value with a line end adds a
coding to the head: `writeHead(200, {X: "1\r\nTransfer-Encoding: chunked"})`, `end("abc")` for a `GET` has no body. -/
theorem chunk_after_head_only :
    (run id (create (ascii "HEAD") true false ⟨0,1,0,2026,0,0,0⟩) [.write [97],.end_ []]).out.writableEnded = true ∧
      (readResponse (ascii "HEAD") ((run id (create (ascii "HEAD") true false ⟨0,1,0,2026,0,0,0⟩) [.write [97],.end_ []]).out.head ++
        (run id (create (ascii "HEAD") true false ⟨0,1,0,2026,0,0,0⟩) [.write [97],.end_ []]).out.body)).map (·.2.2) =
          some (ascii "0\r\n\r\n") ∧
      readResponse (ascii "GET") ((run id (create (ascii "GET") true false ⟨0,1,0,2026,0,0,0⟩)
        [.writeHead 200 none [(ascii "X",ascii "1\r\nTransfer-Encoding: chunked")],.end_ (ascii "abc")]).out.head ++
          ascii "abc") = none := by
  decide +kernel

end Ant.Http.ResponseBody
