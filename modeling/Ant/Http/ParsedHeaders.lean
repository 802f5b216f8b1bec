import Ant.Http.Parser

/-! The header list that the parser builds from the spans of a message, in one call and as the bytes arrive. -/
namespace Ant.Http.ParsedHeaders
open Library ByteLayout ByteString Writer Http.Parser List

/-- A header field of a message: its name is not empty, and neither it nor the value has a zero byte. -/
structure Field where
  name : Bytes
  value : Bytes
  named : name ≠ []
  plainName : (0 : UInt8) ∉ name
  plainValue : (0 : UInt8) ∉ value

def Field.pair (field : Field) : Bytes × Bytes := (field.name,field.value)

structure Message where
  fields : List Field
  trailers : List Field

/-- llhttp emits a name as one or more spans and a value as any number of them. -/
inductive Emits : List Field → List Event → Prop
  | nil : Emits [] []
  | cons {field : Field} {fields : List Field} {names values : List Bytes} {events : List Event} (some_ : names ≠ [])
      (name : names.flatten = field.name) (value : values.flatten = field.value) (rest : Emits fields events) :
      Emits (field :: fields) (names.map .headerField ++ values.map .headerValue ++ events)

def isLine : Event → Bool
  | .method _ | .url _ => true
  | _ => false

def isBody : Event → Bool
  | .body _ => true
  | _ => false

inductive EmitsMessage (message : Message) : List Event → Prop
  | mk {line head body trailer : List Event} (starts : ∀ event ∈ line, isLine event = true) (fields : Emits message.fields head)
      (inside : ∀ event ∈ body, isBody event = true) (trailers : Emits message.trailers trailer) :
      EmitsMessage message (line ++ head ++ .headersComplete :: (body ++ trailer ++ [.messageComplete]))

/-- A pair that is not complete, with its name and value so far, takes the next field. -/
def copied : Bytes → Bytes → List (Bytes × Bytes) → List (Bytes × Bytes)
  | _,_,[] => []
  | name,value,(next,given) :: rest =>
    if value = [] then copied (name ++ next) given rest else (name,value) :: copied next given rest

def pending : Bytes → Bytes → List (Bytes × Bytes) → Bytes × Bytes
  | name,value,[] => (name,value)
  | name,value,(next,given) :: rest => if value = [] then pending (name ++ next) given rest else pending next given rest

variable {fields : List Field} {message : Message} {events : List Event} {chunks : List Bytes} {bytes : Bytes}

section Callbacks

structure Holds (ctx : Context) (headers : List (Bytes × Bytes)) (name value : Bytes) : Prop where
  headers : ctx.headers = headers
  name : ctx.headerField = name
  value : ctx.headerValue = value

variable {ctx : Context} {headers : List (Bytes × Bytes)} {name value : Bytes}

theorem Holds.copy (holds : Holds ctx headers name value) (plainName : (0 : UInt8) ∉ name) (plainValue : (0 : UInt8) ∉ value) :
    Holds (copyHeader ctx) (headers ++ [(name,value)]) [] [] := by
  have named := untilZero_plain plainName
  have given := untilZero_plain plainValue
  unfold copyHeader
  rw [holds.headers,holds.name,holds.value,named,given]
  dsimp only
  split
  · exact ⟨rfl,rfl,rfl⟩
  · split
    · exact ⟨rfl,rfl,rfl⟩
    · split <;> exact ⟨rfl,rfl,rfl⟩

theorem Holds.spans (holds : Holds ctx headers name []) {names : List Bytes} :
    Holds ((names.map Event.headerField).foldl callback ctx) headers (name ++ names.flatten) [] := by
  induction names generalizing ctx name with
  | nil => simpa using holds
  | cons span names ih =>
    have short : ¬ ctx.headerValue.length > 0 := by rw [holds.value]; exact Nat.lt_irrefl 0
    have next : Holds (callback ctx (.headerField span)) headers (name ++ span) [] := by
      simp only [callback,onHeaderField,if_neg short]
      exact ⟨holds.headers,by rw [holds.name],holds.value⟩
    rw [map_cons,flatten_cons,← append_assoc]
    exact ih next

section
variable {events : List Event} (holds : Holds ctx headers name value)
include holds

theorem Holds.names (plainName : (0 : UInt8) ∉ name) (plainValue : (0 : UInt8) ∉ value) (names : List Bytes)
    (some_ : names ≠ []) : Holds ((names.map Event.headerField).foldl callback ctx)
      (if value = [] then headers else headers ++ [(name,value)])
      (if value = [] then name ++ names.flatten else names.flatten) [] := by
  by_cases blank : value = []
  · subst blank
    exact holds.spans
  · rw [if_neg blank,if_neg blank]
    cases names with
    | nil => exact absurd rfl some_
    | cons span names =>
      have long : ctx.headerValue.length > 0 := by
        rw [holds.value]
        exact length_pos_iff.mpr blank
      have done := holds.copy plainName plainValue
      have next : Holds (callback ctx (.headerField span)) (headers ++ [(name,value)]) span [] := by
        simp only [callback,onHeaderField,if_pos long]
        exact ⟨done.headers,by rw [done.name,nil_append],done.value⟩
      exact next.spans

theorem Holds.values (values : List Bytes) :
    Holds ((values.map Event.headerValue).foldl callback ctx) headers name (value ++ values.flatten) := by
  induction values generalizing ctx value with
  | nil => simpa using holds
  | cons span values ih =>
    have next : Holds (callback ctx (.headerValue span)) headers name (value ++ span) :=
      ⟨holds.headers,holds.name,by simp only [callback,onHeaderValue,holds.value]⟩
    rw [map_cons,flatten_cons,← append_assoc]
    exact ih next

theorem Holds.emits (plainName : (0 : UInt8) ∉ name) (plainValue : (0 : UInt8) ∉ value) (emits : Emits fields events) :
    Holds (events.foldl callback ctx) (headers ++ copied name value (fields.map Field.pair))
      (pending name value (fields.map Field.pair)).1 (pending name value (fields.map Field.pair)).2 := by
  induction emits generalizing ctx headers name value with
  | nil => simpa [copied,pending] using holds
  | @cons field fields names values events some_ sameName sameValue rest ih =>
    have named := holds.names plainName plainValue names some_
    have given := named.values values
    rw [sameName,sameValue] at given
    rw [foldl_append,foldl_append]
    by_cases blank : value = []
    · simp only [if_pos blank] at given
      simp only [map_cons,copied,pending,if_pos blank]
      refine ih given ?_ field.plainValue
      rw [mem_append,not_or]
      exact ⟨plainName,field.plainName⟩
    · simp only [if_neg blank] at given
      simp only [map_cons,copied,pending,if_neg blank]
      rw [append_cons]
      exact ih given field.plainName field.plainValue

theorem Holds.lines (lines : ∀ event ∈ events, isLine event = true ∨ isBody event = true) :
    Holds (events.foldl callback ctx) headers name value := by
  induction events generalizing ctx with
  | nil => exact holds
  | cons event events ih =>
    refine ih ?_ fun other member => lines other (mem_cons_of_mem _ member)
    have known := lines event mem_cons_self
    cases event with
    | method | url | body => exact ⟨holds.headers,holds.name,holds.value⟩
    | headerField | headerValue | headersComplete | messageComplete => simp [isLine,isBody] at known

end

end Callbacks

variable (name value : Bytes)

section Lists

theorem pending_plain (fields : List Field) (name value : Bytes) (plainName : (0 : UInt8) ∉ name)
    (plainValue : (0 : UInt8) ∉ value) : (0 : UInt8) ∉ (pending name value (fields.map Field.pair)).1 ∧
      (0 : UInt8) ∉ (pending name value (fields.map Field.pair)).2 := by
  induction fields generalizing name value with
  | nil => exact ⟨plainName,plainValue⟩
  | cons field fields ih =>
    simp only [map_cons,pending]
    split
    · refine ih _ _ ?_ field.plainValue
      rw [mem_append,not_or]
      exact ⟨plainName,field.plainName⟩
    · exact ih _ _ field.plainName field.plainValue

def built (name value : Bytes) (fields : List (Bytes × Bytes)) : List (Bytes × Bytes) :=
  copied name value fields ++ [pending name value fields]

theorem built_cons (next given : Bytes) (fields : List (Bytes × Bytes)) : built name value ((next,given) :: fields) =
    if value = [] then built (name ++ next) given fields else (name,value) :: built next given fields := by
  unfold built
  simp only [copied,pending]
  split <;> rfl

theorem built_head (fields : List (Bytes × Bytes)) :
    ∃ more given rest, built name value fields = (name ++ more,given) :: rest := by
  induction fields generalizing name value with
  | nil => exact ⟨[],value,[],by simp [built,copied,pending]⟩
  | cons field fields ih =>
    obtain ⟨next,given⟩ := field
    rw [built_cons]
    split
    · obtain ⟨more,given,rest,shape⟩ := ih (name ++ next) given
      exact ⟨next ++ more,given,rest,by rw [shape,append_assoc]⟩
    · exact ⟨[],value,_,by rw [append_nil]⟩

theorem built_eq_iff {extra : List (Bytes × Bytes)} :
    built name value (fields.map Field.pair) ++ extra = (name,value) :: fields.map Field.pair ↔
      (∀ other ∈ (value :: fields.map Field.value).dropLast, other ≠ []) ∧ extra = [] := by
  induction fields generalizing name value with
  | nil => simp [built,copied,pending]
  | cons field fields ih =>
    rw [map_cons,map_cons,Field.pair,built_cons,dropLast_cons_of_ne_nil (cons_ne_nil _ _),forall_mem_cons]
    by_cases blank : value = []
    · rw [if_pos blank]
      refine ⟨fun same => ?_,fun full => absurd blank full.1.1⟩
      obtain ⟨more,given,rest,shape⟩ := built_head (name ++ field.name) field.value (fields.map Field.pair)
      rw [shape] at same
      have names : name ++ field.name ++ more = name := (Prod.mk.inj (List.cons.inj same).1).1
      have lengths := congrArg List.length names
      have long : 0 < field.name.length := length_pos_iff.mpr field.named
      simp only [length_append] at lengths
      omega
    · rw [if_neg blank,cons_append,cons_inj_right,ih]
      exact ⟨fun ⟨full,none_⟩ => ⟨⟨blank,full⟩,none_⟩,fun ⟨⟨_,full⟩,none_⟩ => ⟨full,none_⟩⟩

theorem copied_eq_nil_iff (fields : List Field) : copied name value (fields.map Field.pair) = [] ↔
    ∀ other ∈ (value :: fields.map Field.value).dropLast, other = [] := by
  induction fields generalizing name value with
  | nil => simp [copied]
  | cons field fields ih =>
    rw [map_cons,map_cons,copied,dropLast_cons_of_ne_nil (cons_ne_nil _ _),forall_mem_cons]
    by_cases blank : value = []
    · rw [if_pos blank,ih]
      exact ⟨fun full => ⟨blank,full⟩,fun full => full.2⟩
    · rw [if_neg blank]
      exact ⟨fun none_ => absurd none_ (cons_ne_nil _ _),fun full => absurd full.1 blank⟩

def headerList (message : Message) : List (Bytes × Bytes) :=
  (match message.fields.map Field.pair with
    | [] => []
    | (name,value) :: rest => built name value rest) ++
  copied [] [] (message.trailers.map Field.pair)

/-- Every value of the head but the last is not empty, and every value of the trailers but the last is. -/
def ValuesFit (message : Message) : Prop :=
  (∀ value ∈ (message.fields.map Field.value).dropLast, value ≠ []) ∧
    ∀ value ∈ (message.trailers.map Field.value).dropLast, value = []

theorem headerList_eq_iff (message : Message) : headerList message = message.fields.map Field.pair ↔ ValuesFit message := by
  have trailers : copied [] [] (message.trailers.map Field.pair) = [] ↔
      ∀ value ∈ (message.trailers.map Field.value).dropLast, value = [] := by
    rw [copied_eq_nil_iff]
    cases message.trailers with
    | nil => simp
    | cons field rest =>
      rw [map_cons,dropLast_cons_of_ne_nil (cons_ne_nil _ _),forall_mem_cons]
      exact ⟨fun both => both.2,fun all => ⟨rfl,all⟩⟩
  unfold headerList ValuesFit
  rw [← trailers]
  cases message.fields with
  | nil => simp
  | cons field rest => exact built_eq_iff field.name field.value

end Lists

section Messages

theorem pending_named (named : name ≠ []) : (pending name value (fields.map Field.pair)).1 ≠ [] := by
  induction fields generalizing name value with
  | nil => exact named
  | cons field fields ih =>
    simp only [map_cons,pending]
    split
    · exact ih _ _ fun blank => named (append_eq_nil_iff.mp blank).1
    · exact ih _ _ field.named

theorem Holds.complete {ctx : Context}
    (holds : Holds ctx (copied [] [] (fields.map Field.pair)) (pending [] [] (fields.map Field.pair)).1 (pending [] [] (fields.map Field.pair)).2) :
    Holds (callback ctx .headersComplete) (match fields.map Field.pair with
      | [] => []
      | (name,value) :: rest => built name value rest) [] [] := by
  have plain := pending_plain fields [] [] not_mem_nil not_mem_nil
  cases fields with
  | nil =>
    have none_ : ¬ (ctx.headerField.length > 0 ∨ ctx.headerValue.length > 0) := by
      rw [holds.name,holds.value]
      simp [pending]
    simp only [callback,onHeadersComplete,if_neg none_]
    exact holds
  | cons field rest =>
    have long : ctx.headerField.length > 0 ∨ ctx.headerValue.length > 0 := by
      rw [holds.name]
      exact Or.inl (length_pos_iff.mpr (pending_named field.name field.value field.named))
    simp only [callback,onHeadersComplete,if_pos long]
    exact holds.copy plain.1 plain.2

theorem EmitsMessage.headers (emits : EmitsMessage message events) :
    (events.foldl callback .empty).headers = headerList message ∧ (events.foldl callback .empty).messageComplete = true := by
  obtain ⟨starts,fields,inside,trailers⟩ := emits
  have empty : Holds .empty [] [] [] := ⟨rfl,rfl,rfl⟩
  have line := empty.lines fun event member => Or.inl (starts event member)
  have head := line.emits not_mem_nil not_mem_nil fields
  have body := head.complete.lines fun event member => Or.inr (inside event member)
  have all := body.emits not_mem_nil not_mem_nil trailers
  rw [foldl_append,foldl_append,foldl_cons,foldl_append,foldl_append]
  exact ⟨all.headers,rfl⟩

theorem foldl_incomplete (ctx : Context) (absent : Event.messageComplete ∉ events) :
    (events.foldl callback ctx).messageComplete = ctx.messageComplete := by
  induction events generalizing ctx with
  | nil => rfl
  | cons event events ih =>
    obtain ⟨other,later⟩ := not_or.mp (mem_cons.not.mp absent)
    rw [foldl_cons,ih _ later]
    have copies : ∀ before, (copyHeader before).messageComplete = before.messageComplete := by
      intro before
      unfold copyHeader
      dsimp only
      split
      · rfl
      · split
        · rfl
        · split <;> rfl
    cases event with
    | messageComplete => exact absurd rfl other
    | method | url | headerValue | body => rfl
    | headerField span =>
      simp only [callback,onHeaderField]
      split
      · exact copies ctx
      · rfl
    | headersComplete =>
      simp only [callback,onHeadersComplete]
      split
      · exact copies ctx
      · rfl

end Messages

section Runs

/-- llhttp takes the chunks one after the other: it pauses at the end of the message, and before that it goes on. -/
inductive Takes (llhttp : Llhttp) : llhttp.σ → List Bytes → List Event → Prop
  | last {state : llhttp.σ} {chunk : Bytes} (ends : (llhttp.execute state chunk).err = .paused) :
      Takes llhttp state [chunk] (llhttp.execute state chunk).events
  | more {state : llhttp.σ} {chunk : Bytes} {chunks : List Bytes} {events : List Event}
      (goes : (llhttp.execute state chunk).err = .ok) (absent : Event.messageComplete ∉ (llhttp.execute state chunk).events)
      (rest : Takes llhttp (llhttp.execute state chunk).state chunks events) :
      Takes llhttp state (chunk :: chunks) ((llhttp.execute state chunk).events ++ events)

/-- The bytes are the message, for llhttp: however they are cut, it emits the spans of the message. -/
def Reads (llhttp : Llhttp) (bytes : Bytes) (message : Message) : Prop :=
  ∀ chunks : List Bytes, chunks.flatten = bytes → (∀ chunk ∈ chunks, chunk ≠ []) →
    ∃ events, Takes llhttp llhttp.init chunks events ∧ EmitsMessage message events

variable {llhttp : Llhttp}

theorem connParserExecute_eq {state : llhttp.σ} (ctx : Context) (buffer : Bytes) {chunk : Bytes} (full : chunk ≠ [])
    (good : (llhttp.execute state chunk).err ≠ .failed) :
    ∃ consumed next, connParserExecute llhttp ⟨state,ctx,buffer.length⟩ (buffer ++ chunk) =
      if ((llhttp.execute state chunk).events.foldl callback ctx).messageComplete = false then
        (.incomplete,⟨(llhttp.execute state chunk).state,(llhttp.execute state chunk).events.foldl callback ctx,
          (buffer ++ chunk).length⟩)
      else (.ok (request llhttp (llhttp.execute state chunk).state ((llhttp.execute state chunk).events.foldl callback ctx)
        consumed),next) := by
  have long : 0 < chunk.length := length_pos_iff.mpr full
  have known : ¬ buffer.length > (buffer ++ chunk).length := by
    rw [length_append]
    omega
  have fresh : ¬ (buffer ++ chunk).length - buffer.length = 0 := by
    rw [length_append]
    omega
  unfold connParserExecute
  simp only [if_neg known,if_neg fresh,drop_left,if_neg good]
  exact ⟨_,_,rfl⟩

theorem Takes.parses {state : llhttp.σ} (takes : Takes llhttp state chunks events) (full : ∀ chunk ∈ chunks, chunk ≠ [])
    (ctx : Context) (buffer : Bytes) (open_ : ctx.messageComplete = false)
    (complete : (events.foldl callback ctx).messageComplete = true) :
    ∃ parsed, parseArrivals llhttp ⟨state,ctx,buffer.length⟩ buffer chunks = .ok parsed ∧
      parsed.headers = (events.foldl callback ctx).headers := by
  induction takes generalizing ctx buffer with
  | @last state chunk ends =>
    have good : (llhttp.execute state chunk).err ≠ .failed := by simp [ends]
    obtain ⟨consumed,next,same⟩ := connParserExecute_eq ctx buffer (full chunk mem_cons_self) good
    rw [if_neg (by simp [complete])] at same
    exact ⟨_,by rw [parseArrivals,same],rfl⟩
  | @more state chunk chunks events goes absent rest ih =>
    have good : (llhttp.execute state chunk).err ≠ .failed := by simp [goes]
    have between := (foldl_incomplete ctx absent).trans open_
    obtain ⟨consumed,next,same⟩ := connParserExecute_eq ctx buffer (full chunk mem_cons_self) good
    rw [if_pos between] at same
    rw [parseArrivals,same,foldl_append]
    rw [foldl_append] at complete
    exact ih (fun other member => full other (mem_cons_of_mem _ member)) _ (buffer ++ chunk) between complete

theorem Takes.parsesOnce (takes : Takes llhttp llhttp.init [bytes] events)
    (complete : (events.foldl callback .empty).messageComplete = true) :
    ∃ parsed, parseRequest llhttp bytes = .ok parsed ∧ parsed.headers = (events.foldl callback .empty).headers := by
  cases takes with
  | last ends =>
    have good : (llhttp.execute llhttp.init bytes).err ≠ .failed := by simp [ends]
    unfold parseRequest
    simp only [if_neg good,if_neg (by simp [complete] :
      ¬ ((llhttp.execute llhttp.init bytes).events.foldl callback .empty).messageComplete = false)]
    exact ⟨_,rfl,rfl⟩
  | more goes absent rest => cases rest

/-- Parsing at once and parsing as the bytes arrive give the same header list, and it is that of the message's head exactly
when no value of the head but the last is empty and no value of the trailers but the last is not. -/
theorem parsed_headers (llhttp : Llhttp) (bytes : Bytes) (message : Message) (reads : Reads llhttp bytes message)
    (chunks : List Bytes) (cut : chunks.flatten = bytes) (full : ∀ chunk ∈ chunks, chunk ≠ []) :
    ∃ once arrived, parseRequest llhttp bytes = .ok once ∧
      parseArrivals llhttp (.init llhttp) [] chunks = .ok arrived ∧ arrived.headers = once.headers ∧
      (once.headers = message.fields.map Field.pair ↔ ValuesFit message) := by
  obtain ⟨events,takes,emits⟩ := reads chunks cut full
  have some_ : bytes ≠ [] := by
    rintro rfl
    have none_ : chunks = [] := by
      cases chunks with
      | nil => rfl
      | cons chunk chunks =>
        exact absurd (append_eq_nil_iff.mp cut).1 (full chunk mem_cons_self)
    subst none_
    cases takes
  obtain ⟨whole,takesWhole,emitsWhole⟩ := reads [bytes] (by simp) (by simpa using some_)
  obtain ⟨once,parsedOnce,headersOnce⟩ := takesWhole.parsesOnce emitsWhole.headers.2
  obtain ⟨arrived,parsedArrived,headersArrived⟩ := takes.parses full .empty [] rfl emits.headers.2
  rw [emitsWhole.headers.1] at headersOnce
  rw [emits.headers.1] at headersArrived
  refine ⟨once,arrived,parsedOnce,parsedArrived,headersArrived.trans headersOnce.symm,?_⟩
  rw [headersOnce,headerList_eq_iff]

def patient (bytes : Bytes) (events : List Event) : Llhttp where
  σ := Bytes
  init := []
  execute seen chunk := if seen ++ chunk = bytes then ⟨events,.paused,none,seen ++ chunk⟩ else ⟨[],.ok,none,seen ++ chunk⟩
  keepAlive _ := true
  major _ := 1
  minor _ := 1

theorem patient_takes (seen : Bytes) (some_ : chunks ≠ []) (cut : seen ++ chunks.flatten = bytes)
    (full : ∀ chunk ∈ chunks, chunk ≠ []) : Takes (patient bytes events) seen chunks events := by
  induction chunks generalizing seen with
  | nil => exact absurd rfl some_
  | cons chunk chunks ih =>
    rw [flatten_cons,← append_assoc] at cut
    cases chunks with
    | nil =>
      rw [flatten_nil,append_nil] at cut
      have ran : (patient bytes events).execute seen chunk = ⟨events,.paused,none,seen ++ chunk⟩ := if_pos cut
      have taken := @Takes.last (patient bytes events) seen chunk (by rw [ran])
      rwa [ran] at taken
    | cons next rest =>
      have early : ¬ seen ++ chunk = bytes := by
        intro same
        have lengths := congrArg List.length (same.trans cut.symm)
        have long := length_pos_iff.mpr (full next (by simp))
        simp only [length_append,flatten_cons] at lengths
        omega
      have ran : (patient bytes events).execute seen chunk = ⟨[],.ok,none,seen ++ chunk⟩ := if_neg early
      have later := ih (seen ++ chunk) (cons_ne_nil _ _) cut fun other member => full other (mem_cons_of_mem _ member)
      have taken := @Takes.more (patient bytes events) seen chunk (next :: rest) events (by rw [ran])
        (by rw [ran]; exact not_mem_nil) (by rw [ran]; exact later)
      rwa [ran] at taken

theorem patient_reads (some_ : bytes ≠ []) (emits : EmitsMessage message events) :
    Reads (patient bytes events) bytes message := by
  intro chunks cut full
  refine ⟨events,patient_takes [] ?_ cut full,emits⟩
  rintro rfl
  exact some_ cut.symm

def plainHost : Field := ⟨ascii "Host",ascii "a",by decide,by decide,by decide⟩

def plainX : Field := ⟨ascii "X",ascii "b",by decide,by decide,by decide⟩

def plainMessage : Message := ⟨[plainHost,plainX],[]⟩

def plainBytes : Bytes := ascii "GET / HTTP/1.1\r\nHost: a\r\nX: b\r\n\r\n"

def plainEvents : List Event := [.method (ascii "GET"),.url (ascii "/"),.headerField (ascii "Host"),.headerValue (ascii "a"),
  .headerField (ascii "X"),.headerValue (ascii "b"),.headersComplete,.messageComplete]

theorem plainEvents_emits : EmitsMessage plainMessage plainEvents := by
  have second : Emits [plainX] [.headerField (ascii "X"),.headerValue (ascii "b")] :=
    @Emits.cons _ _ [ascii "X"] [ascii "b"] _ (by decide) rfl rfl .nil
  have both : Emits plainMessage.fields [.headerField (ascii "Host"),.headerValue (ascii "a"),.headerField (ascii "X"),
      .headerValue (ascii "b")] := @Emits.cons _ _ [ascii "Host"] [ascii "a"] _ (by decide) rfl rfl second
  exact @EmitsMessage.mk _ [.method (ascii "GET"),.url (ascii "/")] _ [] [] (by decide) both (by decide) .nil

theorem parsed_headers_plain : ∃ once arrived, parseRequest (patient plainBytes plainEvents) plainBytes = .ok once ∧
    parseArrivals (patient plainBytes plainEvents) (.init _) [] [plainBytes.take 20,plainBytes.drop 20] = .ok arrived ∧
    arrived.headers = once.headers ∧ (once.headers = plainMessage.fields.map Field.pair ↔ ValuesFit plainMessage) :=
  parsed_headers _ plainBytes plainMessage (patient_reads (by decide) plainEvents_emits)
    [plainBytes.take 20,plainBytes.drop 20] (by decide) (by decide)

def emptyA : Field := ⟨ascii "A",[],by decide,by decide,by decide⟩

def namedB : Field := ⟨ascii "B",ascii "x",by decide,by decide,by decide⟩

def emptyMessage : Message := ⟨[emptyA,namedB],[]⟩

def emptyBytes : Bytes := ascii "GET / HTTP/1.1\r\nA:\r\nB: x\r\n\r\n"

def emptyEvents : List Event := [.method (ascii "GET"),.url (ascii "/"),.headerField (ascii "A"),.headerField (ascii "B"),
  .headerValue (ascii "x"),.headersComplete,.messageComplete]

theorem emptyEvents_emits : EmitsMessage emptyMessage emptyEvents := by
  have second : Emits [namedB] [.headerField (ascii "B"),.headerValue (ascii "x")] :=
    @Emits.cons _ _ [ascii "B"] [ascii "x"] _ (by decide) rfl rfl .nil
  have both : Emits emptyMessage.fields [.headerField (ascii "A"),.headerField (ascii "B"),.headerValue (ascii "x")] :=
    @Emits.cons _ _ [ascii "A"] [] _ (by decide) rfl rfl second
  exact @EmitsMessage.mk _ [.method (ascii "GET"),.url (ascii "/")] _ [] [] (by decide) both (by decide) .nil

/-- The name of the header without a value becomes a part of the next name. -/
theorem empty_value_merges : Reads (patient emptyBytes emptyEvents) emptyBytes emptyMessage ∧
    ∃ parsed, parseRequest (patient emptyBytes emptyEvents) emptyBytes = .ok parsed ∧
      parsed.headers = [(ascii "AB",ascii "x")] ∧ emptyMessage.fields.map Field.pair = [(ascii "A",[]),(ascii "B",ascii "x")] :=
  ⟨patient_reads (by decide) emptyEvents_emits,_,rfl,by decide +kernel,rfl⟩

end Runs

end Ant.Http.ParsedHeaders
