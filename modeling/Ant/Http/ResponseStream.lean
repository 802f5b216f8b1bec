import Ant.Http.Writer

/-! A streamed response body: the read and write callbacks of `server.c`, after the head has been queued. -/
namespace Ant.Http.ResponseStream
open Library ByteLayout HttpMessage Writer List

/-- `server_write_action_t`, as far as streamed responses use it. -/
inductive WriteAction where
  | streamRead
  | keepAlive
  | closeClient
  deriving DecidableEq,Repr

/-- `written` are the bytes queued after the head; `pending` is the write whose callback has not run, and `reading` says
that `response_read_promise` is set. -/
structure Request where
  keepAlive : Bool
  written : Bytes
  pending : Option WriteAction
  reading : Bool
  closing : Bool
  deriving DecidableEq,Repr

def queueWrite (request : Request) (data : Bytes) (action : WriteAction) : Request :=
  if request.closing then request else {request with written := request.written ++ data, pending := some action}

def queueFinalChunk (request : Request) (action : WriteAction) : Request :=
  if request.closing then request else queueWrite request writeFinalChunk action

/-- What a read of the stream gives; a value that is no string, blob or buffer has no bytes. -/
inductive ReadResult where
  | done
  | value (chunk : Option Bytes)
  deriving DecidableEq,Repr

def streamReadReject (request : Request) : Request := queueFinalChunk {request with reading := false} .closeClient

def streamReadFulfill (request : Request) (result : ReadResult) : Request :=
  let request := {request with reading := false}
  if request.closing then request
  else match result with
    | .done => queueFinalChunk request (if request.keepAlive then .keepAlive else .closeClient)
    | .value none => queueFinalChunk request .closeClient
    | .value (some chunk) => queueWrite request (writeChunk chunk) .streamRead

def writeCb (request : Request) (failed : Bool) : Request :=
  let after := {request with pending := none, closing := request.closing || failed}
  if after.closing then after
  else match request.pending with
    | some .streamRead => {after with reading := true}
    | some .closeClient => {after with closing := true}
    | some .keepAlive | none => after

inductive Event where
  | wrote (failed : Bool)
  | read (result : ReadResult)
  | rejected
  deriving DecidableEq,Repr

/-- A callback runs only for a write that is queued or a read that is waited for. -/
def handle (request : Request) : Event → Request
  | .wrote failed => if request.pending.isSome then writeCb request failed else request
  | .read result => if request.reading then streamReadFulfill request result else request
  | .rejected => if request.reading then streamReadReject request else request

def started (keepAlive : Bool) : Request := ⟨keepAlive,[],some .streamRead,false,false⟩

inductive Ending where
  | closed
  | errored
  | invalid
  deriving DecidableEq,Repr

def Ending.event : Ending → Event
  | .closed => .read .done
  | .errored => .rejected
  | .invalid => .read (.value none)

/-- A stream gives its chunks one by one, each when the write before it is done. -/
def events (chunks : List Bytes) (ending : Ending) : List Event :=
  .wrote false :: (chunks.flatMap fun chunk => [.read (.value (some chunk)),.wrote false]) ++ [ending.event,.wrote false]

def respond (keepAlive : Bool) (chunks : List Bytes) (ending : Ending) : Bytes :=
  ((events chunks ending).foldl handle (started keepAlive)).written

theorem handle_chunks {keepAlive : Bool} {chunks : List Bytes} (written : Bytes) :
    (chunks.flatMap fun chunk => [Event.read (.value (some chunk)),.wrote false]).foldl handle
      ⟨keepAlive,written,none,true,false⟩ = ⟨keepAlive,written ++ chunks.flatMap writeChunk,none,true,false⟩ := by
  induction chunks generalizing written with
  | nil => simp
  | cons chunk chunks ih =>
    rw [flatMap_cons,flatMap_cons,← append_assoc]
    exact ih (written ++ writeChunk chunk)

variable (keepAlive : Bool) (chunks : List Bytes)

theorem handle_ending (written : Bytes) (ending : Ending) :
    ([ending.event,.wrote false].foldl handle ⟨keepAlive,written,none,true,false⟩).written = written ++ writeFinalChunk := by
  cases ending <;> cases keepAlive <;> rfl

theorem respond_eq (ending : Ending) : respond keepAlive chunks ending = chunks.flatMap encodeChunk ++ lastChunk := by
  have reads : (.wrote false :: (chunks.flatMap fun chunk => [Event.read (.value (some chunk)),.wrote false])).foldl handle
      (started keepAlive) = ⟨keepAlive,chunks.flatMap writeChunk,none,true,false⟩ := handle_chunks []
  have same : chunks.flatMap writeChunk = chunks.flatMap encodeChunk := by
    congr 1
    exact funext writeChunk_eq
  rw [respond,events,foldl_append,reads,handle_ending,writeFinalChunk_eq,same]

/-- Nothing but empty chunks follows an empty chunk. -/
def EmptyAtEnd (chunks : List Bytes) : Prop := ∀ before after, chunks = before ++ [] :: after → after.flatten = []

def beforeEmpty (chunks : List Bytes) : List Bytes := chunks.takeWhile (· ≠ [])

theorem beforeEmpty_full : ∀ data ∈ beforeEmpty chunks, data ≠ [] := fun data member => by
  simpa using mem_takeWhile_imp member

theorem respond_decodes (ending : Ending) :
    ∃ rest, decodeChunked (respond keepAlive chunks ending) = some ((beforeEmpty chunks).flatten,rest) := by
  rw [respond_eq]
  have parts := takeWhile_append_dropWhile (p := fun data => decide (data ≠ [])) (l := chunks)
  cases later : chunks.dropWhile (· ≠ []) with
  | nil =>
    rw [later,append_nil] at parts
    have full := beforeEmpty_full chunks
    rw [beforeEmpty,parts] at full ⊢
    have decoded := decodeChunked_chunks full []
    rw [append_nil] at decoded
    exact ⟨[],decoded⟩
  | cons data after =>
    have blank : data = [] := by
      have failed := head?_dropWhile_not (fun data : Bytes => decide (data ≠ [])) chunks
      rw [later] at failed
      simpa using failed
    subst blank
    rw [later] at parts
    have shape : chunks.flatMap encodeChunk ++ lastChunk =
        (beforeEmpty chunks).flatMap encodeChunk ++ lastChunk ++ (after.flatMap encodeChunk ++ lastChunk) := by
      conv_lhs => rw [← parts]
      rw [flatMap_append,flatMap_cons,← writeChunk_eq,writeChunk_empty,beforeEmpty]
      simp only [append_assoc]
    rw [shape]
    exact ⟨_,decodeChunked_chunks (beforeEmpty_full chunks) _⟩

theorem beforeEmpty_flatten : (beforeEmpty chunks).flatten = chunks.flatten ↔ EmptyAtEnd chunks := by
  induction chunks with
  | nil => simp [beforeEmpty,EmptyAtEnd]
  | cons data chunks ih =>
    cases data with
    | nil =>
      have none_ : beforeEmpty ([] :: chunks) = [] := by simp [beforeEmpty]
      rw [none_,flatten_cons,nil_append]
      refine ⟨fun blank before after same => ?_,fun ends => (ends [] chunks rfl).symm⟩
      cases before with
      | nil =>
        cases same
        exact blank.symm
      | cons first before =>
        have rest : chunks = before ++ [] :: after := (List.cons.inj same).2
        rw [rest,flatten_append] at blank
        exact (append_eq_nil_iff.mp blank.symm).2
    | cons byte data =>
      have kept : beforeEmpty ((byte :: data) :: chunks) = (byte :: data) :: beforeEmpty chunks := by simp [beforeEmpty]
      rw [kept,flatten_cons,flatten_cons,append_cancel_left_eq,ih]
      refine ⟨fun ends before after same => ?_,fun ends before after same => ends (_ :: before) after (congrArg _ same)⟩
      cases before with
      | nil => cases same
      | cons first before =>
        cases same
        exact ends before after rfl

/-- A client decodes a complete body exactly for the streams that close normally, and then the body is what the stream gave. -/
def Faithful (bytes : Bytes) (chunks : List Bytes) (ending : Ending) : Prop :=
  ∀ body, (∃ rest, decodeChunked bytes = some (body,rest)) ↔ ending = .closed ∧ chunks.flatten = body

theorem respond_faithful (keepAlive : Bool) (chunks : List Bytes) (ending : Ending) :
    Faithful (respond keepAlive chunks ending) chunks ending ↔ ending = .closed ∧ EmptyAtEnd chunks := by
  obtain ⟨rest,decoded⟩ := respond_decodes keepAlive chunks ending
  rw [← beforeEmpty_flatten]
  constructor
  · intro faithful
    obtain ⟨closed,same⟩ := (faithful _).mp ⟨rest,decoded⟩
    exact ⟨closed,same.symm⟩
  · rintro ⟨closed,same⟩ body
    rw [decoded]
    constructor
    · rintro ⟨after,found⟩
      cases found
      exact ⟨closed,same.symm⟩
    · rintro ⟨-,rfl⟩
      exact ⟨rest,by rw [same]⟩

/-- An error after `ab`: the client decodes `ab` as the whole body. -/
theorem error_undetected : decodeChunked (respond true [[97,98]] .errored) = some ([97,98],[]) ∧
    ¬ Faithful (respond true [[97,98]] .errored) [[97,98]] .errored := by
  refine ⟨by decide +kernel,fun faithful => ?_⟩
  have complete := (faithful [97,98]).mp ⟨[],by decide +kernel⟩
  exact absurd complete.1 (by decide)

end Ant.Http.ResponseStream
