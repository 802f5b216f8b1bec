import Ant.Pkg.Tar

/-! A tar stream read as a whole: its entries and data bytes, and how it stops. The
resumable parser delivers exactly these, however the stream is cut. -/
namespace Ant.Pkg.TarStream
open Library.ByteLayout Tar List

inductive Token where
  | entry (entry : Entry) (link : Bytes)
  | byte (byte : UInt8)
  deriving DecidableEq,Repr

/-- How a stream stops: in the middle of a member, at a zero block with bytes after it, or at a bad header. -/
inductive Stop where
  | truncated
  | endOfArchive (rest : Bytes)
  | invalid (error : ExtractError)
  deriving DecidableEq,Repr

def prepend (tokens : List Token) (rest : List Token × Stop) : List Token × Stop := (tokens ++ rest.1,rest.2)

def readFuel (windows : Bool) : Nat → StripPrefix → Bytes → List Token × Stop
  | 0,_,_ => ([],.truncated)
  | fuel+1,strip,stream =>
    if stream.length < 512 then ([],.truncated) else
    let header := stream.take 512
    if TarHeader.isZero header then ([],.endOfArchive (stream.drop 512)) else
    let strip := detectPrefix strip header (TarHeader.getName header)
    match readEntry windows strip header with
    | .error error => ([],.invalid error)
    | .ok entry =>
      let body := stream.drop 512
      prepend (.entry entry (TarHeader.linkname header) :: (body.take entry.size).map .byte)
        (readFuel windows fuel strip (body.drop (entry.size + paddingOf entry.size)))

def read (windows : Bool) (strip : StripPrefix) (stream : Bytes) : List Token × Stop :=
  readFuel windows stream.length strip stream

theorem readFuel_enough {windows : Bool} {first : Nat} (second : Nat) (strip : StripPrefix) (stream : Bytes)
    (enough : stream.length ≤ first) (also : stream.length ≤ second) :
    readFuel windows first strip stream = readFuel windows second strip stream := by
  induction first generalizing second strip stream with
  | zero =>
    have short : stream.length < 512 := by omega
    cases second with
    | zero => rfl
    | succ second => simp [readFuel,short]
  | succ first ih =>
    cases second with
    | zero =>
      have short : stream.length < 512 := by omega
      simp [readFuel,short]
    | succ second =>
      unfold readFuel
      by_cases short : stream.length < 512
      · simp only [short,if_true]
      · have same : ∀ strip size, readFuel windows first strip ((stream.drop 512).drop size) =
            readFuel windows second strip ((stream.drop 512).drop size) := fun strip size =>
          ih second strip _ (by simp; omega) (by simp; omega)
        simp only [same]

theorem read_eq (windows : Bool) (strip : StripPrefix) (stream : Bytes) :
    read windows strip stream =
      if stream.length < 512 then ([],.truncated) else
      if TarHeader.isZero (stream.take 512) then ([],.endOfArchive (stream.drop 512)) else
      match readEntry windows (detectPrefix strip (stream.take 512) (TarHeader.getName (stream.take 512)))
        (stream.take 512) with
      | .error error => ([],.invalid error)
      | .ok entry =>
        prepend (.entry entry (TarHeader.linkname (stream.take 512)) ::
            ((stream.drop 512).take entry.size).map .byte)
          (read windows (detectPrefix strip (stream.take 512) (TarHeader.getName (stream.take 512)))
            ((stream.drop 512).drop (entry.size + paddingOf entry.size))) := by
  by_cases short : stream.length < 512
  · rw [if_pos short]
    unfold read
    cases stream.length with
    | zero => rfl
    | succ fuel => simp [readFuel,short]
  · obtain ⟨fuel,length⟩ : ∃ fuel, stream.length = fuel+1 := ⟨stream.length - 1,by omega⟩
    have enough : ∀ strip size, readFuel windows fuel strip ((stream.drop 512).drop size) =
        read windows strip ((stream.drop 512).drop size) := fun strip size =>
      readFuel_enough _ strip _ (by simp; omega) (le_refl _)
    conv_lhs => rw [read,length,readFuel]
    simp only [enough]

def resume (windows : Bool) (parser : TarParser) (stream : Bytes) : List Token × Stop :=
  match parser.state with
  | .readHeader => read windows parser.strip (parser.pending ++ stream)
  | .readFileData =>
    prepend ((stream.take parser.currentFileRemaining).map .byte)
      (read windows parser.strip (stream.drop (parser.currentFileRemaining +
        paddingOf ((TarHeader.getSize parser.header).getD 0))))
  | .skipPadding => read windows parser.strip (stream.drop parser.skipBytes)

structure Valid (parser : TarParser) : Prop where
  pending : parser.pending.length < 512
  data : parser.state = .readFileData → parser.pending = [] ∧ 0 < parser.currentFileRemaining ∧
    (TarHeader.getSize parser.header).isSome
  padding : parser.state = .skipPadding → parser.pending = [] ∧ 0 < parser.skipBytes

theorem init_valid {text : Bytes} : Valid (init text) := by
  refine ⟨?_,?_,?_⟩ <;> simp [init]

/-- What one result of the parser says about the tokens `before` of the stream it was read from: the ones
it delivers, and what is left to deliver from the bytes after the ones it consumed. -/
def Delivers (windows : Bool) (before : List Token × Stop) (next : TarParser) (result : ParseResult)
    (chunk later : Bytes) : Prop :=
  match result.kind with
  | .needMoreData => result.consumed = chunk.length ∧ before = resume windows next later
  | .entry entry => before = prepend [.entry entry (TarHeader.linkname next.header)]
      (resume windows next (chunk.drop result.consumed ++ later))
  | .fileData data => before = prepend (data.map .byte) (resume windows next (chunk.drop result.consumed ++ later))
  | .endOfArchive => before = ([],.endOfArchive (chunk.drop result.consumed ++ later)) ∧
      next.state = .readHeader ∧ next.pending = []
  | .err error => before = ([],.invalid error)

structure Step (windows : Bool) (before : List Token × Stop) (next : TarParser) (result : ParseResult)
    (chunk later : Bytes) : Prop where
  valid : Valid next
  progress : 0 < result.consumed
  within : result.consumed ≤ chunk.length
  delivers : Delivers windows before next result chunk later

private theorem readEntry_size {windows : Bool} {strip : StripPrefix} {header : TarHeader} {entry : Entry}
    (ok : readEntry windows strip header = .ok entry) : TarHeader.getSize header = some entry.size := by
  simp only [readEntry] at ok
  generalize (if strip.bytes.isPrefixOf (TarHeader.getName header) then _ else TarHeader.getName header) = path at ok
  split at ok
  next => contradiction
  split at ok
  next size mode sized _ =>
    cases ok
    exact sized
  next => contradiction

private theorem header_bytes {pending : Bytes} (chunk later : Bytes) (short : pending.length < 512)
    (complete : 512 ≤ (pending ++ chunk.take (min (512 - pending.length) chunk.length)).length) :
    (pending ++ (chunk ++ later)).take 512 = pending ++ chunk.take (min (512 - pending.length) chunk.length) ∧
    (pending ++ (chunk ++ later)).drop 512 = chunk.drop (min (512 - pending.length) chunk.length) ++ later := by
  simp only [length_append,length_take] at complete
  have reached : 512 - pending.length ≤ chunk.length := by omega
  rw [Nat.min_eq_left reached,take_append,drop_append,take_append_of_le_length reached,
    drop_append_of_le_length reached,take_of_length_le (le_of_lt short),
    drop_eq_nil_of_le (le_of_lt short)]
  exact ⟨rfl,rfl⟩

section
variable {parser : TarParser} {chunk : Bytes} (windows : Bool)
include windows

theorem feedHeader_step (parser : TarParser) (chunk later : Bytes) (short : parser.pending.length < 512)
    (nonempty : chunk ≠ []) : Step windows (read windows parser.strip (parser.pending ++ (chunk ++ later)))
      (feedHeader windows parser chunk).1 (feedHeader windows parser chunk).2 chunk later := by
  have filled := length_pos_iff.mpr nonempty
  simp only [feedHeader]
  by_cases incomplete : (parser.pending ++ chunk.take (min (512 - parser.pending.length) chunk.length)).length < 512
  · have all : min (512 - parser.pending.length) chunk.length = chunk.length := by
      simp only [length_append,length_take] at incomplete
      omega
    simp only [incomplete,if_true]
    refine ⟨⟨incomplete,by simp,by simp⟩,by simp only; omega,by simp only; omega,?_⟩
    simp only [Delivers,all,take_length,resume,append_assoc,and_self]
  · obtain ⟨taken,dropped⟩ := header_bytes chunk later short (by omega)
    have long : ¬ (parser.pending ++ (chunk ++ later)).length < 512 := by
      have bound := incomplete
      simp only [length_append,length_take] at bound ⊢
      omega
    rw [read_eq,if_neg long,taken,dropped]
    generalize parser.pending ++ chunk.take (min (512 - parser.pending.length) chunk.length) = header at *
    have progress : 0 < min (512 - parser.pending.length) chunk.length := by omega
    have within : min (512 - parser.pending.length) chunk.length ≤ chunk.length := Nat.min_le_right _ _
    cases zero : TarHeader.isZero header with
    | true =>
      simp only [incomplete,if_true]
      exact ⟨⟨by simp,by simp,by simp⟩,progress,within,rfl,rfl,rfl⟩
    | false =>
      simp only [incomplete,if_false,Bool.false_eq_true]
      cases accepted : readEntry windows (detectPrefix parser.strip header (TarHeader.getName header)) header with
      | error error => exact ⟨⟨by simp,by simp,by simp⟩,progress,within,rfl⟩
      | ok entry =>
        have size := readEntry_size accepted
        by_cases data : entry.size > 0
        · simp only [data]
          refine ⟨⟨by simp,fun _ => ⟨rfl,data,by simp [size]⟩,by simp⟩,progress,within,?_⟩
          simp only [Delivers,resume,size]
          rfl
        · have empty : entry.size = 0 := by omega
          simp only [empty,if_false]
          refine ⟨⟨by simp,by simp,by simp⟩,progress,within,?_⟩
          rfl

theorem feedData_step {later : Bytes} (nonempty : chunk ≠ []) (reading : parser.state = .readFileData)
    (idle : parser.pending = []) (open_ : 0 < parser.currentFileRemaining)
    (sized : (TarHeader.getSize parser.header).isSome) :
    Step windows (resume windows parser (chunk ++ later)) (feedData parser chunk).1 (feedData parser chunk).2
      chunk later := by
  have filled := length_pos_iff.mpr nonempty
  obtain ⟨size,isSize⟩ := Option.isSome_iff_exists.mp sized
  simp only [resume,reading,feedData,isSize,Option.getD_some]
  by_cases finished : parser.currentFileRemaining ≤ chunk.length
  · -- the data of the member ends in this chunk
    have toRead : min parser.currentFileRemaining chunk.length = parser.currentFileRemaining := Nat.min_eq_left finished
    have data : (chunk ++ later).take parser.currentFileRemaining = chunk.take parser.currentFileRemaining :=
      take_append_of_le_length finished
    have rest : (chunk ++ later).drop (parser.currentFileRemaining + paddingOf size) =
        (chunk.drop parser.currentFileRemaining ++ later).drop (paddingOf size) := by
      rw [← drop_drop,drop_append_of_le_length finished]
    simp only [toRead,Nat.sub_self,if_true,data,rest]
    by_cases padded : paddingOf size > 0
    · simp only [padded]
      exact ⟨⟨by simp [idle],by simp,fun _ => ⟨idle,padded⟩⟩,open_,finished,rfl⟩
    · have none : paddingOf size = 0 := by omega
      simp only [none,lt_irrefl,if_false,drop_zero]
      refine ⟨⟨by simp [idle],by simp,by simp⟩,open_,finished,?_⟩
      simp only [Delivers,resume,idle,nil_append]
  · have toRead : min parser.currentFileRemaining chunk.length = chunk.length := Nat.min_eq_right (by omega)
    have left : parser.currentFileRemaining - chunk.length ≠ 0 := by omega
    have data : (chunk ++ later).take parser.currentFileRemaining =
        chunk ++ later.take (parser.currentFileRemaining - chunk.length) := by
      rw [take_append,take_of_length_le (by omega)]
    have rest : (chunk ++ later).drop (parser.currentFileRemaining + paddingOf size) =
        later.drop (parser.currentFileRemaining - chunk.length + paddingOf size) := by
      rw [drop_append,drop_eq_nil_of_le (by omega),nil_append]
      congr 1
      omega
    simp only [toRead,left,if_false,data,rest]
    refine ⟨⟨by simp [idle],fun _ => ⟨idle,by simp only; omega,sized⟩,by simp⟩,filled,le_refl _,?_⟩
    simp only [Delivers,resume,isSize,Option.getD_some,take_length,drop_length,nil_append,
      prepend,map_append,append_assoc]

theorem feedPadding_step {later : Bytes} (nonempty : chunk ≠ []) (skipping : parser.state = .skipPadding)
    (idle : parser.pending = []) (open_ : 0 < parser.skipBytes) :
    Step windows (resume windows parser (chunk ++ later)) (feedPadding windows parser chunk).1
      (feedPadding windows parser chunk).2 chunk later := by
  have filled := length_pos_iff.mpr nonempty
  simp only [resume,skipping,feedPadding]
  by_cases inside : parser.skipBytes < chunk.length
  · have toSkip : min parser.skipBytes chunk.length = parser.skipBytes := Nat.min_eq_left (le_of_lt inside)
    have rest : (chunk ++ later).drop parser.skipBytes = chunk.drop parser.skipBytes ++ later :=
      drop_append_of_le_length (le_of_lt inside)
    have more : chunk.drop parser.skipBytes ≠ [] := by
      simpa using inside
    simp only [toSkip,inside,if_true,Nat.sub_self]
    have step := feedHeader_step windows {parser with skipBytes := 0, state := .readHeader}
      (chunk.drop parser.skipBytes) later (by simp [idle]) more
    have start : read windows parser.strip (parser.pending ++ (chunk.drop parser.skipBytes ++ later)) =
        read windows parser.strip (chunk.drop parser.skipBytes ++ later) := by rw [idle,nil_append]
    rw [rest,← start]
    obtain ⟨valid,progress,within,delivers⟩ := step
    generalize feedHeader windows {parser with skipBytes := 0, state := .readHeader}
      (chunk.drop parser.skipBytes) = outcome at *
    obtain ⟨next,kind,consumed⟩ := outcome
    simp only [length_drop] at within
    refine ⟨valid,by simp only; omega,by simp only; omega,?_⟩
    cases kind with
    | needMoreData =>
      refine ⟨?_,delivers.2⟩
      have all := delivers.1
      simp only [length_drop] at all ⊢
      omega
    | entry entry => simpa only [Delivers,drop_drop] using delivers
    | fileData data => simpa only [Delivers,drop_drop] using delivers
    | endOfArchive => simpa only [Delivers,drop_drop] using delivers
    | err error => exact delivers
  · have toSkip : min parser.skipBytes chunk.length = chunk.length := Nat.min_eq_right (by omega)
    have rest : (chunk ++ later).drop parser.skipBytes = later.drop (parser.skipBytes - chunk.length) := by
      rw [drop_append,drop_eq_nil_of_le (by omega),nil_append]
    simp only [toSkip,lt_irrefl,if_false]
    by_cases done : parser.skipBytes - chunk.length = 0
    · simp only [done,if_true]
      refine ⟨⟨by simp [idle],by simp,by simp⟩,filled,le_refl _,rfl,?_⟩
      rw [rest,done]
      simp only [resume,idle,nil_append,drop_zero]
    · simp only [done]
      refine ⟨⟨by simp [idle],by simp,fun _ => ⟨idle,by simp only; omega⟩⟩,filled,le_refl _,rfl,?_⟩
      rw [rest]
      rfl

theorem feed_step (valid : Valid parser) (later : Bytes) (nonempty : chunk ≠ []) :
    Step windows (resume windows parser (chunk ++ later)) (feed windows parser chunk).1
      (feed windows parser chunk).2 chunk later := by
  unfold feed
  split
  next state =>
    simp only [resume,state]
    exact feedHeader_step windows parser chunk later valid.pending nonempty
  next state =>
    obtain ⟨idle,open_,sized⟩ := valid.data state
    exact feedData_step windows nonempty state idle open_ sized
  next state =>
    obtain ⟨idle,open_⟩ := valid.padding state
    exact feedPadding_step windows nonempty state idle open_

end

end Ant.Pkg.TarStream
