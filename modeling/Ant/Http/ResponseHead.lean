import Ant.Http.ServerResponse

/-! The head of a `node:http` response is read back, when its strings are of one line. -/
namespace Ant.Http.ResponseHead
open Library ByteLayout ByteString HttpMessage Writer ServerResponse List

def OneLine (text : Bytes) : Prop := (13 : UInt8) ∉ text ∧ (10 : UInt8) ∉ text ∧ (0 : UInt8) ∉ text

instance (text : Bytes) : Decidable (OneLine text) := inferInstanceAs (Decidable (_ ∧ _))

def HeaderSafe (header : Bytes × Bytes) : Prop := header.1 ≠ [] ∧ header.1.all isToken = true ∧ OneLine header.2

instance (header : Bytes × Bytes) : Decidable (HeaderSafe header) := inferInstanceAs (Decidable (_ ∧ _))

variable {text : Bytes} {headers : List (Bytes × Bytes)} {now : UtcTime}

section Texts

theorem OneLine.append {first second : Bytes} (one : OneLine first) (two : OneLine second) : OneLine (first ++ second) := by
  simp only [OneLine,mem_append,not_or]
  exact ⟨⟨one.1,two.1⟩,⟨one.2.1,two.2.1⟩,one.2.2,two.2.2⟩

theorem oneLine_numeral (value : Nat) : OneLine (numeral 10 value) :=
  ⟨not_mem_numeral (by decide) (by decide) (by decide),not_mem_numeral (by decide) (by decide) (by decide),
    not_mem_numeral (by decide) (by decide) (by decide)⟩

theorem oneLine_padded {width value : Nat} : OneLine (padded width value) := by
  have zeros : OneLine (List.replicate (width - (numeral 10 value).length) 48) :=
    ⟨fun member => absurd (eq_of_mem_replicate member) (by decide),
      fun member => absurd (eq_of_mem_replicate member) (by decide),
      fun member => absurd (eq_of_mem_replicate member) (by decide)⟩
  exact zeros.append (oneLine_numeral value)

theorem oneLine_date {time : UtcTime} : OneLine (toUTCString time) := by
  have days : ∀ day : Fin 7, OneLine (ascii (dayNames.get day)) := by decide
  have months : ∀ month : Fin 12, OneLine (ascii (monthNames.get month)) := by decide
  have comma : OneLine (ascii ", ") := by decide
  have space : OneLine (ascii " ") := by decide
  have colon : OneLine (ascii ":") := by decide
  have zone : OneLine (ascii " GMT") := by decide
  exact (((((((((((((days _).append comma).append oneLine_padded).append space).append (months _)).append space).append
    oneLine_padded).append space).append oneLine_padded).append colon).append oneLine_padded).append
      colon).append oneLine_padded).append zone

theorem oneLine_defaultStatusText {status : Int} : OneLine (defaultStatusText status) := by
  unfold defaultStatusText
  split <;> decide

theorem printed_oneLine (line : OneLine text) : printed text = text := printed_plain line.2.2

theorem oneLine_token {name : Bytes} (token : name.all isToken = true) : OneLine name :=
  ⟨not_mem_of_isToken token (by decide),not_mem_of_isToken token (by decide),not_mem_of_isToken token (by decide)⟩

theorem HeaderSafe.field {header : Bytes × Bytes} (safe : HeaderSafe header) : FieldSafe header :=
  ⟨safe.1,safe.2.1,safe.2.2.1⟩

/-- The header lines as they are printed, without those that the writer manages. -/
def sentFields (headers : List (Bytes × Bytes)) : List (Bytes × Bytes) :=
  (headers.filter fun header => !isManaged header.1).map fun header => (printed header.1,printed header.2)

theorem appendRawHeaders_lines (headers : List (Bytes × Bytes)) :
    appendRawHeaders headers = (sentFields headers).flatMap fieldLine := by
  induction headers with
  | nil => rfl
  | cons header headers ih =>
    obtain ⟨name,value⟩ := header
    rw [appendRawHeaders,ih]
    cases managed : isManaged name with
    | true => simp [sentFields,managed]
    | false =>
      simp only [sentFields,managed,filter_cons,Bool.not_false,if_true,map_cons,flatMap_cons]
      rfl

theorem sentFields_safe (safe : ∀ header ∈ headers, HeaderSafe header) :
    sentFields headers = headers.filter fun header => !isManaged header.1 := by
  refine (map_congr_left fun header member => ?_).trans (map_id _)
  obtain ⟨-,token,line⟩ := safe header (mem_filter.mp member).1
  rw [printed_oneLine (oneLine_token token),printed_oneLine line]
  rfl

end Texts

def writerFields (stream : Bool) (size : Nat) (keepAlive : Bool) : List (Bytes × Bytes) :=
  [if stream then (ascii "Transfer-Encoding",ascii "chunked") else (ascii "Content-Length",numeral 10 size),
    (ascii "Connection",ascii (if keepAlive then "keep-alive" else "close"))]

theorem writerFields_safe {stream : Bool} {size : Nat} {keepAlive : Bool} :
    ∀ field ∈ writerFields stream size keepAlive, FieldSafe field := by
  intro field member
  have chunked : FieldSafe (ascii "Transfer-Encoding",ascii "chunked") := ⟨by decide,by decide,by decide⟩
  have sized : FieldSafe (ascii "Content-Length",numeral 10 size) :=
    ⟨show ascii "Content-Length" ≠ [] by decide,show (ascii "Content-Length").all isToken = true by decide,(oneLine_numeral size).1⟩
  have kept : FieldSafe (ascii "Connection",ascii "keep-alive") := ⟨by decide,by decide,by decide⟩
  have closed : FieldSafe (ascii "Connection",ascii "close") := ⟨by decide,by decide,by decide⟩
  simp only [writerFields,mem_cons,not_mem_nil,or_false] at member
  rcases member with rfl | rfl
  · cases stream with
    | true => exact chunked
    | false => exact sized
  · cases keepAlive with
    | true => exact kept
    | false => exact closed

theorem writerFields_trim (stream : Bool) (size : Nat) (keepAlive : Bool) :
    (writerFields stream size keepAlive).map (fun field => (field.1,trimBlanks field.2)) = writerFields stream size keepAlive := by
  have digits : trimBlanks (numeral 10 size) = numeral 10 size := by
    refine trimBlanks_free fun char member => ?_
    have other : ∀ blank, digit 10 blank = none → char ≠ blank := fun blank none_ same =>
      not_mem_numeral (by decide) (by decide) none_ (same ▸ member)
    simp [isBlank,other 32 (by decide),other 9 (by decide)]
  have chunked : trimBlanks (ascii "chunked") = ascii "chunked" := by decide
  have kept : trimBlanks (ascii "keep-alive") = ascii "keep-alive" := by decide
  have closed : trimBlanks (ascii "close") = ascii "close" := by decide
  cases stream <;> cases keepAlive <;> simp [writerFields,digits,chunked,kept,closed]

theorem writeHead_lines (status : Nat) (headers : List (Bytes × Bytes)) (stream : Bool) (size : Nat) (keepAlive : Bool)
    (rest : Bytes) :
    Writer.writeHead status text headers stream size keepAlive ++ rest = statusLine status (printed text) ++ crlf ++
      ((sentFields headers ++ writerFields stream size keepAlive).flatMap fieldLine ++ (crlf ++ rest)) := by
  have framing : (if stream then ascii "Transfer-Encoding: chunked\r\n"
      else ascii "Content-Length: " ++ numeral 10 size ++ ascii "\r\n") =
        fieldLine (if stream then (ascii "Transfer-Encoding",ascii "chunked") else (ascii "Content-Length",numeral 10 size)) := by
    have chunked : ascii "Transfer-Encoding: chunked\r\n" = fieldLine (ascii "Transfer-Encoding",ascii "chunked") := by decide
    cases stream with
    | true => exact chunked
    | false => rfl
  have connection : ascii (if keepAlive then "Connection: keep-alive\r\n\r\n" else "Connection: close\r\n\r\n") =
      fieldLine (ascii "Connection",ascii (if keepAlive then "keep-alive" else "close")) ++ crlf := by
    cases keepAlive <;> decide
  have ends : ascii "\r\n" = crlf := by decide
  rw [Writer.writeHead,appendRawHeaders_lines,framing,connection,ends]
  simp only [statusLine,signed,writerFields,flatMap_append,flatMap_cons,flatMap_nil,append_assoc,
    append_nil]

theorem readResponseHead_writeHead (status : Nat) (headers : List (Bytes × Bytes)) (stream : Bool) (size : Nat)
    (keepAlive : Bool) (low : 100 ≤ status) (high : status ≤ 999) (line : (13 : UInt8) ∉ printed text)
    (safe : ∀ field ∈ sentFields headers, FieldSafe field) (rest : Bytes) :
    readResponseHead (Writer.writeHead status text headers stream size keepAlive ++ rest) =
      some (⟨status,printed text,(sentFields headers ++ writerFields stream size keepAlive).map
        fun field => (field.1,trimBlanks field.2)⟩,rest) := by
  rw [writeHead_lines]
  refine readResponseHead_lines low high line fun field member => ?_
  rcases mem_append.mp member with set | added
  · exact safe field set
  · exact writerFields_safe field added

section Calls
variable (lower : Bytes → Bytes)

def settings : Call → List (Bytes × Bytes)
  | .setHeader name value => [(name,value)]
  | .writeHead _ _ headers => headers
  | .write _ | .end_ _ => []

def declared (pairs : List (Bytes × Bytes)) : List (Bytes × (Bytes × Bytes)) :=
  pairs.foldl (fun map pair => OrderedMap.put (lower pair.1) pair map) []

def lastStatus (calls : List Call) : Int := calls.foldl (fun status call => match call with
  | .writeHead statusCode _ _ => statusCode
  | _ => status) 200

def lastMessage (calls : List Call) : Option Bytes := calls.foldl (fun message call => match call with
  | .writeHead _ text _ => text.or message
  | _ => message) none

def dated (now : UtcTime) (map : List (Bytes × (Bytes × Bytes))) : List (Bytes × (Bytes × Bytes)) :=
  if (OrderedMap.find (lower (ascii "date")) map).isNone then
    OrderedMap.put (lower (ascii "Date")) (ascii "Date",toUTCString now) map
  else map

def listed (map : List (Bytes × (Bytes × Bytes))) : List (Bytes × Bytes) :=
  (objectKeys (map.map Prod.fst)).filterMap fun key => OrderedMap.find key map

def CallSafe : Call → Prop
  | .setHeader name value => HeaderSafe (name,value)
  | .writeHead statusCode statusMessage headers => 100 ≤ statusCode ∧ statusCode ≤ 999 ∧
      (∀ text, statusMessage = some text → OneLine text) ∧ ∀ header ∈ headers, HeaderSafe header
  | .write _ | .end_ _ => False

structure Holds (response : Response) (map : List (Bytes × (Bytes × Bytes))) : Prop where
  headers : response.headers = map.map (Prod.map id Prod.snd)
  names : response.headerNames = map.map (Prod.map id Prod.fst)
  safe : ∀ entry ∈ map, HeaderSafe entry.2

variable {response : Response} {map : List (Bytes × (Bytes × Bytes))}

theorem Holds.setHeader (holds : Holds response map) (pair : Bytes × Bytes) (safe : HeaderSafe pair) :
    Holds (ServerResponse.setHeader lower response pair.1 pair.2) (OrderedMap.put (lower pair.1) pair map) := by
  refine ⟨?_,?_,fun entry member => ?_⟩
  · rw [OrderedMap.put_mapValues,← holds.headers]
    rfl
  · rw [OrderedMap.put_mapValues,← holds.names]
    rfl
  · rcases OrderedMap.mem_put _ _ _ member with rfl | before
    · exact safe
    · exact holds.safe entry before

theorem Holds.apply (holds : Holds response map) (pairs : List (Bytes × Bytes)) (safe : ∀ pair ∈ pairs, HeaderSafe pair) :
    Holds (applyHeaderObject lower response pairs) (pairs.foldl (fun map pair => OrderedMap.put (lower pair.1) pair map) map) := by
  induction pairs generalizing response map with
  | nil => exact holds
  | cons pair pairs ih =>
    exact ih (holds.setHeader lower pair (safe pair mem_cons_self)) fun other member => safe other (mem_cons_of_mem _ member)

theorem mem_objectKeys {keys : List Bytes} {key : Bytes} : key ∈ objectKeys keys → key ∈ keys := by
  intro member
  rcases mem_append.mp member with index | other
  · exact (mem_filter.mp ((mem_insertionSort _).mp index)).1
  · exact (mem_filter.mp other).1

theorem Holds.rawHeaders (holds : Holds response map) : ServerResponse.rawHeaders response = listed map := by
  have keys : response.headers.map Prod.fst = map.map Prod.fst := by
    rw [holds.headers,map_map]
    rfl
  rw [ServerResponse.rawHeaders,keys,← filterMap_eq_map]
  refine filterMap_congr fun key member => ?_
  have present := (OrderedMap.mem_keys_iff key map).mp (mem_objectKeys member)
  obtain ⟨pair,found⟩ := Option.isSome_iff_exists.mp present
  have named := (holds.safe _ (OrderedMap.mem_of_find key pair map found)).1
  have value : OrderedMap.find key response.headers = some pair.2 := by
    rw [holds.headers,OrderedMap.find_mapValues,found]
    rfl
  have name : OrderedMap.find key response.headerNames = some pair.1 := by
    rw [holds.names,OrderedMap.find_mapValues,found]
    rfl
  simp only [Function.comp_apply,headerName,name,value,found,if_neg named,Option.getD_some]

theorem Holds.withDate (holds : Holds response map) (sends : response.sendDate = true) :
    Holds (withDate lower response) (dated lower response.now map) := by
  have absent : getHeader lower response (ascii "date") = (OrderedMap.find (lower (ascii "date")) map).map Prod.snd := by
    rw [getHeader,holds.headers,OrderedMap.find_mapValues]
  have named : HeaderSafe (ascii "Date",toUTCString response.now) :=
    ⟨show ascii "Date" ≠ [] by decide,show (ascii "Date").all isToken = true by decide,oneLine_date⟩
  unfold ServerResponse.withDate dated
  rw [sends,absent,Option.isNone_map,Bool.true_and]
  split
  · exact holds.setHeader lower (ascii "Date",toUTCString response.now) named
  · exact holds

structure Prepared (now : UtcTime) (response : Response) (calls : List Call) : Prop where
  holds : Holds response (declared lower (calls.flatMap settings))
  status : response.statusCode = lastStatus calls
  low : 100 ≤ response.statusCode
  high : response.statusCode ≤ 999
  message : response.statusMessage = lastMessage calls
  line : ∀ text, response.statusMessage = some text → OneLine text
  sends : response.sendDate = true
  clock : response.now = now

theorem applyHeaderObject_rest (pairs : List (Bytes × Bytes)) (response : Response) :
    (applyHeaderObject lower response pairs).statusCode = response.statusCode ∧
      (applyHeaderObject lower response pairs).statusMessage = response.statusMessage ∧
      (applyHeaderObject lower response pairs).sendDate = response.sendDate ∧
      (applyHeaderObject lower response pairs).now = response.now := by
  induction pairs generalizing response with
  | nil => exact ⟨rfl,rfl,rfl,rfl⟩
  | cons pair pairs ih => exact ih (ServerResponse.setHeader lower response pair.1 pair.2)

theorem declared_append (first second : List (Bytes × Bytes)) : declared lower (first ++ second) =
    second.foldl (fun map pair => OrderedMap.put (lower pair.1) pair map) (declared lower first) := foldl_append ..

theorem writeHead_eq (response : Response) (statusCode : Int) (statusMessage : Option Bytes) (headers : List (Bytes × Bytes)) :
    ServerResponse.writeHead lower response statusCode statusMessage headers = applyHeaderObject lower {response with
      statusCode := toInt32 statusCode
      statusMessage := statusMessage.or response.statusMessage} headers := by
  cases statusMessage <;> rfl

theorem Prepared.step {calls : List Call} (prepared : Prepared lower now response calls) (call : Call)
    (safe : CallSafe call) : Prepared lower now (ServerResponse.step lower response call) (calls ++ [call]) := by
  have pairs : declared lower ((calls ++ [call]).flatMap settings) =
      (settings call).foldl (fun map pair => OrderedMap.put (lower pair.1) pair map) (declared lower (calls.flatMap settings)) := by
    rw [flatMap_append,flatMap_singleton,declared_append]
  have status : lastStatus (calls ++ [call]) = match call with
    | .writeHead statusCode _ _ => statusCode
    | _ => lastStatus calls := by rw [lastStatus,foldl_append]; rfl
  have message : lastMessage (calls ++ [call]) = match call with
    | .writeHead _ text _ => text.or (lastMessage calls)
    | _ => lastMessage calls := by rw [lastMessage,foldl_append]; rfl
  cases call with
  | setHeader name value =>
    refine ⟨?_,prepared.status.trans status.symm,prepared.low,prepared.high,prepared.message.trans message.symm,
      prepared.line,prepared.sends,prepared.clock⟩
    rw [pairs]
    exact prepared.holds.setHeader lower (name,value) safe
  | writeHead statusCode statusMessage headers =>
    obtain ⟨low,high,lines,safe⟩ := safe
    have small : toInt32 statusCode = statusCode := by
      unfold toInt32
      omega
    rw [ServerResponse.step,writeHead_eq]
    generalize start : {response with
      statusCode := toInt32 statusCode
      statusMessage := statusMessage.or response.statusMessage} = set
    obtain ⟨code,text,date,clock⟩ := applyHeaderObject_rest lower headers set
    have held : Holds set (declared lower (calls.flatMap settings)) := by
      subst start
      exact ⟨prepared.holds.headers,prepared.holds.names,prepared.holds.safe⟩
    have coded : set.statusCode = statusCode := by
      subst start
      exact small
    have worded : set.statusMessage = statusMessage.or response.statusMessage := by
      subst start
      rfl
    refine ⟨?_,?_,?_,?_,?_,?_,?_,?_⟩
    · rw [pairs]
      exact held.apply lower headers safe
    · rw [code,coded,status]
    · rw [code,coded]
      exact low
    · rw [code,coded]
      exact high
    · rw [text,worded,message,prepared.message]
    · rw [text,worded]
      intro line found
      rcases Option.or_eq_some_iff.mp found with given | ⟨-,before⟩
      · exact lines line given
      · exact prepared.line line before
    · rw [date]
      subst start
      exact prepared.sends
    · rw [clock]
      subst start
      exact prepared.clock
  | write chunk => exact absurd safe id
  | end_ chunk => exact absurd safe id

theorem Prepared.run {before : List Call} (prepared : Prepared lower now response before) (calls : List Call)
    (safe : ∀ call ∈ calls, CallSafe call) :
    Prepared lower now (ServerResponse.run lower response calls) (before ++ calls) := by
  induction calls generalizing response before with
  | nil =>
    rw [append_nil]
    exact prepared
  | cons call calls ih =>
    rw [append_cons]
    exact ih (prepared.step lower call (safe call mem_cons_self)) fun other member => safe other (mem_cons_of_mem _ member)

theorem create_prepared (method : Bytes) (keepAlive closing : Bool) (now : UtcTime) :
    Prepared lower now (create method keepAlive closing now) [] :=
  ⟨⟨rfl,rfl,fun _ member => absurd member not_mem_nil⟩,rfl,by simp [create],by simp [create],rfl,
    fun _ found => absurd found (by simp [create]),rfl,rfl⟩

def reasonFor (status : Int) (message : Option Bytes) : Bytes :=
  statusText {create [] false false ⟨0,1,0,0,0,0,0⟩ with
    statusCode := status
    statusMessage := message}

theorem statusText_oneLine (line : ∀ text, response.statusMessage = some text → OneLine text) : OneLine (statusText response) := by
  have table : ∀ entry ∈ statusCodes, OneLine (ascii entry.2) := by decide
  unfold statusText
  split
  next char message found => exact line _ found
  next =>
    split
    next text found => exact table _ (OrderedMap.mem_of_find _ _ _ found)
    next => exact oneLine_defaultStatusText

end Calls

/-- With strings of one line, tokens for names and statuses of three digits, the head that a response sends is read back as the
status, the message and the headers that were set, without those that the writer manages, which it adds itself. -/
theorem head_reads_back (lower : Bytes → Bytes) (method : Bytes) (keepAlive closing : Bool) (now : UtcTime) (calls : List Call)
    (safe : ∀ call ∈ calls, CallSafe call) (stream : Bool) (size : Nat) (rest : Bytes) :
    readResponseHead (headBytes lower (run lower (create method keepAlive closing now) calls) stream size ++ rest) =
      some (⟨(lastStatus calls).toNat,reasonFor (lastStatus calls) (lastMessage calls),
        ((listed (dated lower now (declared lower (calls.flatMap settings)))).filter fun header => !isManaged header.1).map
          (fun field => (field.1,trimBlanks field.2)) ++ writerFields stream size
          (shouldKeepAlive lower (withDate lower (run lower (create method keepAlive closing now) calls)))⟩,rest) := by
  have prepared := (create_prepared lower method keepAlive closing now).run lower calls safe
  rw [nil_append] at prepared
  generalize run lower (create method keepAlive closing now) calls = response at prepared ⊢
  have held := prepared.holds.withDate lower prepared.sends
  rw [prepared.clock] at held
  have low := prepared.low
  have high := prepared.high
  have status : response.statusCode = ((lastStatus calls).toNat : Int) := by
    rw [prepared.status] at low ⊢
    omega
  have reason : statusText response = reasonFor (lastStatus calls) (lastMessage calls) := by
    rw [← prepared.status,← prepared.message]
    rfl
  have line := statusText_oneLine prepared.line
  have safe : ∀ header ∈ listed (dated lower now (declared lower (calls.flatMap settings))), HeaderSafe header := by
    intro header member
    obtain ⟨key,-,found⟩ := mem_filterMap.mp member
    exact held.safe _ (OrderedMap.mem_of_find key header _ found)
  have sent := sentFields_safe safe
  rw [reason] at line
  rw [headBytes,held.rawHeaders,status,reason]
  rw [readResponseHead_writeHead _ _ _ _ _ (by omega) (by omega) (by rw [printed_oneLine line]; exact line.1),
    printed_oneLine line,sent,map_append,writerFields_trim]
  intro field member
  rw [sent] at member
  exact (safe field (mem_filter.mp member).1).field

/-- `writeHead(404, "Gone away", {"X-A": "b"})`. -/
def missingCall : Call := .writeHead 404 (some (ascii "Gone away")) [(ascii "X-A",ascii "b")]

theorem head_reads_back_missing :
    readResponseHead (headBytes id (run id (create (ascii "GET") true false ⟨0,1,0,2026,0,0,0⟩) [missingCall]) false 3 ++ []) =
      some (⟨(lastStatus [missingCall]).toNat,reasonFor (lastStatus [missingCall]) (lastMessage [missingCall]),
        ((listed (dated id ⟨0,1,0,2026,0,0,0⟩ (declared id ([missingCall].flatMap settings)))).filter
          fun header => !isManaged header.1).map (fun field => (field.1,trimBlanks field.2)) ++ writerFields false 3
          (shouldKeepAlive id (withDate id (run id (create (ascii "GET") true false ⟨0,1,0,2026,0,0,0⟩) [missingCall])))⟩,[]) := by
  refine head_reads_back id (ascii "GET") true false _ [missingCall] (fun call member => ?_) false 3 []
  rw [mem_singleton.mp member]
  refine ⟨by decide,by decide,fun text found => ?_,by decide⟩
  rw [← Option.some.inj found]
  decide

/-- `setHeader("Connection", "Upgrade")`: the header is not in the head. -/
theorem connection_dropped : ∃ head, readResponseHead (headBytes id
    (run id (create (ascii "GET") true false ⟨0,1,0,2026,0,0,0⟩) [.setHeader (ascii "Connection") (ascii "Upgrade")]) false 0) =
      some (head,[]) ∧ (ascii "Connection",ascii "Upgrade") ∉ head.fields := by
  have missing : (readResponseHead (headBytes id (run id (create (ascii "GET") true false ⟨0,1,0,2026,0,0,0⟩)
      [.setHeader (ascii "Connection") (ascii "Upgrade")]) false 0)).map
        (fun read => (decide ((ascii "Connection",ascii "Upgrade") ∉ read.1.fields),read.2)) = some (true,[]) := by decide +kernel
  obtain ⟨⟨head,rest⟩,found,same⟩ := Option.map_eq_some_iff.mp missing
  obtain ⟨absent,blank⟩ := Prod.mk.inj same
  exact ⟨head,by rw [found,← blank],of_decide_eq_true absent⟩

end Ant.Http.ResponseHead
