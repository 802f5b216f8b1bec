import Ant.Library.Effect
import Ant.Pkg.TarStream

/-! The loop that feeds chunks to the tar parser and hands its results to an extractor.
Its effect is that of handing over the stream's tokens, up to the end of the archive. -/
namespace Ant.Pkg.TarFeed
open Library.ByteLayout Library.ByteString Library.Effect Tar TarStream List

structure Handlers (ε σ : Type) where
  handleEntry (entry : Entry) (link : Bytes) : Action ε σ
  writeFileData (data : Bytes) : Action ε σ
  endOfArchive : Action ε σ
  invalid : ExtractError → ε

variable {ε σ τ : Type}

def onState (step : Action ε σ) : Action ε (TarParser × σ) := fun (parser,state) =>
  ((parser,(step state).1),(step state).2)

/-- Every call of the parser consumes a byte, so the length of the chunk bounds the loop. -/
def feedTarFuel (windows : Bool) (handlers : Handlers ε σ) : Nat → Bytes → Action ε (TarParser × σ)
  | 0,_ => done
  | fuel+1,data => fun (parser,state) =>
    if data = [] then ((parser,state),none) else
    let (parser,result) := feed windows parser data
    let remaining := data.drop result.consumed
    match result.kind with
    | .needMoreData => ((parser,state),none)
    | .entry entry =>
      andThen (onState (handlers.handleEntry entry (TarHeader.linkname parser.header)))
        (feedTarFuel windows handlers fuel remaining) (parser,state)
    | .fileData data =>
      andThen (onState (handlers.writeFileData data)) (feedTarFuel windows handlers fuel remaining) (parser,state)
    | .endOfArchive => onState handlers.endOfArchive (parser,state)
    | .err error => ((parser,state),some (handlers.invalid error))

def feedTar (windows : Bool) (handlers : Handlers ε σ) (data : Bytes) : Action ε (TarParser × σ) :=
  feedTarFuel windows handlers data.length data

def feedChunks (windows : Bool) (handlers : Handlers ε σ) (chunks : List Bytes) : Action ε (TarParser × σ) :=
  forEach (feedTar windows handlers) chunks

def deliver (handlers : Handlers ε σ) : Token → Action ε σ
  | .entry entry link => handlers.handleEntry entry link
  | .byte byte => handlers.writeFileData [byte]

def finish (handlers : Handlers ε σ) : Stop → Action ε σ
  | .truncated => done
  | .endOfArchive _ => handlers.endOfArchive
  | .invalid error => fail (handlers.invalid error)

def extract (handlers : Handlers ε σ) (stream : List Token × Stop) : Action ε σ :=
  andThen (forEach (deliver handlers) stream.1) (finish handlers stream.2)

structure Splits (handlers : Handlers ε σ) : Prop where
  nil : handlers.writeFileData [] = done
  cons : ∀ byte data, handlers.writeFileData (byte :: data) =
    andThen (handlers.writeFileData [byte]) (handlers.writeFileData data)

structure Simulates (relation : σ → τ → Prop) (one : Handlers ε σ) (two : Handlers ε τ) : Prop where
  entry : ∀ entry link first second, relation first second →
    (one.handleEntry entry link first).2 = (two.handleEntry entry link second).2 ∧
    relation (one.handleEntry entry link first).1 (two.handleEntry entry link second).1
  data : ∀ data first second, relation first second →
    (one.writeFileData data first).2 = (two.writeFileData data second).2 ∧
    relation (one.writeFileData data first).1 (two.writeFileData data second).1
  finished : ∀ first second, relation first second →
    (one.endOfArchive first).2 = (two.endOfArchive second).2 ∧
    relation (one.endOfArchive first).1 (two.endOfArchive second).1
  invalid : one.invalid = two.invalid

variable {handlers : Handlers ε σ} {second : τ} {parser : TarParser} {fuel : Nat} {windows : Bool} {entry : Entry}

theorem deliver_bytes (splits : Splits handlers) (data : Bytes) :
    forEach (deliver handlers) (data.map .byte) = handlers.writeFileData data := by
  induction data with
  | nil => exact splits.nil.symm
  | cons byte data ih => rw [map_cons,forEach,ih,splits.cons byte data,deliver]

theorem extract_prepend (handlers : Handlers ε σ) (tokens : List Token) (rest : List Token × Stop) :
    extract handlers (prepend tokens rest) = andThen (forEach (deliver handlers) tokens) (extract handlers rest) := by
  rw [extract,prepend,forEach_append,andThen_assoc]
  rfl

/-- Where the first extractor stands after a chunk, against the second one's extraction of the stream
`before`: on the way, at the end of the archive, or stopped by an error. -/
inductive Advance (windows : Bool) (two : Handlers ε τ) (relation : σ → τ → Prop) (before : List Token × Stop)
    (second : τ) (later : Bytes) : (TarParser × σ) × Option ε → Prop
  | more (parser first next) (valid : Valid parser) (related : relation first next)
      (stop : before.2 = (resume windows parser later).2)
      (rest : extract two before second = extract two (resume windows parser later) next) :
      Advance windows two relation before second later ((parser,first),none)
  | finished (parser first next left) (stop : before.2 = .endOfArchive (left ++ later))
      (idle : parser.state = .readHeader ∧ parser.pending = []) (related : relation first next)
      (result : extract two before second = (next,none)) :
      Advance windows two relation before second later ((parser,first),none)
  | failed (parser first next error) (related : relation first next)
      (result : extract two before second = (next,some error)) :
      Advance windows two relation before second later ((parser,first),some error)

section Simulation
variable {windows : Bool} {relation : σ → τ → Prop} {one : Handlers ε σ} {two : Handlers ε τ}

section
variable {tokens : List Token} {rest : List Token × Stop} {later : Bytes}

theorem Advance.prepend {next : τ} {outcome : (TarParser × σ) × Option ε}
    (accepted : forEach (deliver two) tokens second = (next,none))
    (advance : Advance windows two relation rest next later outcome) :
    Advance windows two relation (prepend tokens rest) second later outcome := by
  have same : extract two (TarStream.prepend tokens rest) second = extract two rest next := by
    rw [extract_prepend,andThen_of_ok _ _ _ _ accepted]
  cases advance with
  | more parser first next valid related stop rest =>
    exact .more parser first next valid related stop (same.trans rest)
  | finished parser first next left stop idle related result =>
    exact .finished parser first next left stop idle related (same.trans result)
  | failed parser first next error related result => exact .failed parser first next error related (same.trans result)

theorem Advance.step {stepOne : Action ε σ} {stepTwo : Action ε τ} {loop : Action ε (TarParser × σ)} {first : σ}
    (meaning : forEach (deliver two) tokens = stepTwo)
    (same : (stepOne first).2 = (stepTwo second).2 ∧ relation (stepOne first).1 (stepTwo second).1)
    (go : ∀ first second, relation first second → Advance windows two relation rest second later (loop (parser,first))) :
    Advance windows two relation (TarStream.prepend tokens rest) second later
      (andThen (onState stepOne) loop (parser,first)) := by
  obtain ⟨outcome,related⟩ := same
  cases reached : stepOne first with
  | mk middle result =>
    cases also : stepTwo second with
    | mk next resultTwo =>
      rw [reached,also] at outcome related
      subst outcome
      subst meaning
      have moved : onState stepOne (parser,first) = ((parser,middle),result) := by simp [onState,reached]
      cases result with
      | none =>
        rw [andThen_of_ok _ _ _ _ moved]
        exact (go middle next related).prepend also
      | some error =>
        rw [andThen_of_error _ moved]
        refine .failed parser middle next error related ?_
        rw [extract_prepend,andThen_of_error _ also]

theorem feedTarFuel_advance (windows : Bool) (simulates : Simulates relation one two) (splits : Splits two)
    (parser : TarParser) (first : σ) (second : τ) (chunk later : Bytes) (valid : Valid parser)
    (related : relation first second) (enough : chunk.length ≤ fuel) :
    Advance windows two relation (resume windows parser (chunk ++ later)) second later
      (feedTarFuel windows one fuel chunk (parser,first)) := by
  induction fuel generalizing parser first second chunk with
  | zero =>
    have empty : chunk = [] := length_eq_zero_iff.mp (by omega)
    subst empty
    exact .more parser first second valid related rfl rfl
  | succ fuel ih =>
    by_cases empty : chunk = []
    · subst empty
      exact .more parser first second valid related rfl rfl
    obtain ⟨nextValid,progress,within,delivers⟩ := feed_step windows valid later empty
    unfold feedTarFuel
    simp only [empty]
    generalize resume windows parser (chunk ++ later) = before at *
    generalize feed windows parser chunk = outcome at *
    obtain ⟨next,kind,consumed⟩ := outcome
    have shorter : (chunk.drop consumed).length ≤ fuel := by
      simp only [length_drop] at *
      omega
    cases kind with
    | needMoreData =>
      obtain ⟨_,rest⟩ := delivers
      exact .more next first second nextValid related (by rw [rest]) (by rw [rest])
    | entry entry =>
      rw [show before = _ from delivers]
      exact Advance.step forEach_singleton (simulates.entry entry _ first second related)
        fun first second related => ih next first second _ nextValid related shorter
    | fileData data =>
      rw [show before = _ from delivers]
      exact Advance.step (deliver_bytes splits data) (simulates.data data first second related)
        fun first second related => ih next first second _ nextValid related shorter
    | endOfArchive =>
      obtain ⟨stop,idle⟩ := delivers
      obtain ⟨outcome,relatedAfter⟩ := simulates.finished first second related
      have whole : extract two before second = two.endOfArchive second := by rw [stop]; rfl
      simp only [onState]
      cases result : (one.endOfArchive first).2 with
      | none => exact .finished next _ _ _ (by rw [stop]) idle relatedAfter (whole.trans (by grind))
      | some error => exact .failed next _ _ error relatedAfter (whole.trans (by grind))
    | err error =>
      rw [simulates.invalid]
      refine .failed next first second _ related ?_
      rw [show before = _ from delivers]
      rfl

end

end Simulation

theorem resume_nil (windows : Bool) (valid : Valid parser) : resume windows parser [] = ([],.truncated) := by
  have nothing : ∀ strip, read windows strip [] = ([],.truncated) := fun strip => rfl
  unfold resume
  split
  next => rw [append_nil,read_eq,if_pos valid.pending]
  next => simp [nothing,prepend]
  next => simp [nothing]

/-- The parser is between members, and what follows holds no member. -/
structure Quiet (handlers : Handlers ε σ) (state : σ) (parser : TarParser) (later : Bytes) : Prop where
  header : parser.state = .readHeader
  pending : parser.pending.length < 512
  rest : (parser.pending ++ later).length < 512 ∨
    ((parser.pending ++ later).all (· == 0) ∧ handlers.endOfArchive state = (state,none))

theorem feedTar_quiet (windows : Bool) {state : σ} {chunk later : Bytes}
    (quiet : Quiet handlers state parser (chunk ++ later)) :
    ∃ next, feedTar windows handlers chunk (parser,state) = ((next,state),none) ∧ Quiet handlers state next later := by
  obtain ⟨header,short,rest⟩ := quiet
  by_cases empty : chunk = []
  · subst empty
    exact ⟨parser,rfl,header,short,rest⟩
  obtain ⟨fuel,length⟩ : ∃ fuel, chunk.length = fuel+1 :=
    ⟨chunk.length - 1,by have := length_pos_iff.mpr empty; omega⟩
  rw [feedTar,length]
  simp only [feedTarFuel,empty,feed,header,feedHeader]
  by_cases incomplete : (parser.pending ++ chunk.take (min (512 - parser.pending.length) chunk.length)).length < 512
  · have all : min (512 - parser.pending.length) chunk.length = chunk.length := by
      simp only [length_append,length_take] at incomplete
      omega
    simp only [incomplete]
    rw [all] at incomplete ⊢
    exact ⟨_,rfl,rfl,incomplete,by simpa using rest⟩
  · rcases rest with few | ⟨zero,idle⟩
    · simp only [length_append,length_take] at incomplete few
      omega
    · have zeroHeader : TarHeader.isZero (parser.pending ++
          chunk.take (min (512 - parser.pending.length) chunk.length)) = true := by
        simp only [all_append,Bool.and_eq_true] at zero
        rw [TarHeader.isZero,all_append,zero.1,Bool.true_and,all_eq_true]
        exact fun byte member => all_eq_true.mp zero.2.1 byte (mem_of_mem_take member)
      have after : later.all (· == 0) = true := by
        simp only [all_append,Bool.and_eq_true] at zero
        exact zero.2.2
      simp only [incomplete,zeroHeader,onState,idle]
      exact ⟨_,rfl,rfl,by simp,Or.inr ⟨by simpa using after,idle⟩⟩

theorem feedChunks_quiet (windows : Bool) (handlers : Handlers ε σ) (state : σ) (parser : TarParser)
    (chunks : List Bytes) (quiet : Quiet handlers state parser chunks.flatten) :
    ∃ next, feedChunks windows handlers chunks (parser,state) = ((next,state),none) := by
  induction chunks generalizing parser with
  | nil => exact ⟨parser,rfl⟩
  | cons chunk chunks ih =>
    obtain ⟨next,fed,still⟩ := feedTar_quiet windows quiet
    obtain ⟨last,rest⟩ := ih next still
    exact ⟨last,(andThen_of_ok _ _ _ _ fed).trans rest⟩

/-- However a stream is cut, the first extractor ends where the second one ends on the stream's tokens,
provided that nothing more happens after the end of the archive. -/
theorem feedChunks_extract (windows : Bool) {relation : σ → τ → Prop} {one : Handlers ε σ} {two : Handlers ε τ}
    (simulates : Simulates relation one two) (splits : Splits two) (chunks : List Bytes) (parser : TarParser)
    (first : σ) (second : τ) (valid : Valid parser) (related : relation first second)
    (tail : ∀ rest last next, (resume windows parser chunks.flatten).2 = .endOfArchive rest →
      extract two (resume windows parser chunks.flatten) second = (next,none) → relation last next →
      rest.length < 512 ∨ (rest.all (· == 0) ∧ one.endOfArchive last = (last,none))) :
    ∃ next, relation (feedChunks windows one chunks (parser,first)).1.2 next ∧
      extract two (resume windows parser chunks.flatten) second =
        (next,(feedChunks windows one chunks (parser,first)).2) := by
  induction chunks generalizing parser first second with
  | nil =>
    refine ⟨second,related,?_⟩
    rw [flatten_nil,resume_nil windows valid]
    rfl
  | cons chunk chunks ih =>
    have advance := feedTarFuel_advance windows simulates splits parser first second chunk
      chunks.flatten valid related (le_refl _)
    have unfolded : feedChunks windows one (chunk :: chunks) (parser,first) =
        andThen (feedTar windows one chunk) (feedChunks windows one chunks) (parser,first) := rfl
    rw [flatten_cons] at tail ⊢
    rw [unfolded]
    cases fed : feedTar windows one chunk (parser,first) with
    | mk after result =>
      rw [show feedTarFuel windows one chunk.length chunk (parser,first) = _ from fed] at advance
      cases advance with
      | more parser first next valid related stop rest =>
        rw [andThen_of_ok _ _ _ _ fed,rest]
        exact ih parser first next valid related fun tail' last final isEnd whole related =>
          tail tail' last final (stop.trans isEnd) (rest.trans whole) related
      | finished parser first next left stop idle related result =>
        obtain ⟨last,quiet⟩ := feedChunks_quiet windows one first parser chunks ⟨idle.1,by simp [idle.2],by
          have safe := tail _ first next stop result related
          rw [idle.2,nil_append]
          rcases safe with few | ⟨zero,still⟩
          · left
            simp only [length_append] at few
            omega
          · right
            rw [all_append,Bool.and_eq_true] at zero
            exact ⟨zero.2,still⟩⟩
        rw [andThen_of_ok _ _ _ _ fed,quiet]
        exact ⟨next,related,result⟩
      | failed parser first next error related result =>
        rw [andThen_of_error _ fed]
        exact ⟨next,related,result⟩

def Checked (windows : Bool) (entry : Entry) : Prop := entry.path = [] ∨ validatePath windows entry.path = true

theorem readEntry_checked {strip : StripPrefix} {header : TarHeader} (ok : readEntry windows strip header = .ok entry) :
    Checked windows entry := by
  simp only [readEntry] at ok
  generalize (if strip.bytes.isPrefixOf (TarHeader.getName header) then _ else TarHeader.getName header) = path at ok
  split at ok
  next => contradiction
  next accepted =>
    split at ok
    next =>
      cases ok
      by_cases empty : path = []
      · exact Or.inl empty
      · have filled : 0 < path.length := length_pos_iff.mpr empty
        exact Or.inr (by simpa [filled] using accepted)
    next => contradiction

theorem feedHeader_checked {data : Bytes} (delivered : (feedHeader windows parser data).2.kind = .entry entry) :
    Checked windows entry := by
  simp only [feedHeader] at delivered
  split at delivered
  next => contradiction
  split at delivered
  next => contradiction
  split at delivered
  next => contradiction
  next accepted =>
    cases delivered
    exact readEntry_checked accepted

theorem feed_checked (windows : Bool) (parser : TarParser) (data : Bytes) (entry : Entry)
    (delivered : (feed windows parser data).2.kind = .entry entry) : Checked windows entry := by
  unfold feed at delivered
  split at delivered
  next => exact feedHeader_checked delivered
  next =>
    simp only [feedData] at delivered
    split at delivered
    next =>
      split at delivered
      next => contradiction
      next => split at delivered <;> contradiction
    next => contradiction
  next =>
    simp only [feedPadding] at delivered
    split at delivered
    next => exact feedHeader_checked delivered
    next => contradiction

section Keeps
variable {windows : Bool} {handlers : Handlers ε σ} {invariant : σ → Prop}

theorem feedTarFuel_keeps
    (entry : ∀ entry link state, Checked windows entry → invariant state → invariant (handlers.handleEntry entry link state).1)
    (data : ∀ data state, invariant state → invariant (handlers.writeFileData data state).1)
    (finished : ∀ state, invariant state → invariant (handlers.endOfArchive state).1) (chunk : Bytes)
    (state : TarParser × σ) (holds : invariant state.2) : invariant (feedTarFuel windows handlers fuel chunk state).1.2 := by
  induction fuel generalizing chunk state with
  | zero => exact holds
  | succ fuel ih =>
    obtain ⟨parser,self⟩ := state
    have checked := feed_checked windows parser chunk
    simp only [feedTarFuel]
    split
    next => exact holds
    next =>
      generalize feed windows parser chunk = outcome at *
      obtain ⟨next,kind,consumed⟩ := outcome
      cases kind with
      | needMoreData => exact holds
      | entry read =>
        exact andThen_keeps (fun state : TarParser × σ => invariant state.2) _ _
          (fun state holds => entry read _ state.2 (checked read rfl) holds) (fun state holds => ih _ state holds) _ holds
      | fileData bytes =>
        exact andThen_keeps (fun state : TarParser × σ => invariant state.2) _ _
          (fun state holds => data bytes state.2 holds) (fun state holds => ih _ state holds) _ holds
      | endOfArchive => exact finished self holds
      | err error => exact holds

theorem feedChunks_keeps
    (entry : ∀ entry link state, Checked windows entry → invariant state → invariant (handlers.handleEntry entry link state).1)
    (data : ∀ data state, invariant state → invariant (handlers.writeFileData data state).1)
    (finished : ∀ state, invariant state → invariant (handlers.endOfArchive state).1)
    {chunks : List Bytes} {state : TarParser × σ} (holds : invariant state.2) :
    invariant (feedChunks windows handlers chunks state).1.2 :=
  forEach_keeps (fun state : TarParser × σ => invariant state.2) _ chunks
    (fun chunk _ state holds => feedTarFuel_keeps entry data finished chunk state holds) state holds

end Keeps

section Handed

/-- Handlers that also note the entries that were handed over. -/
def watch (handlers : Handlers ε σ) : Handlers ε (σ × List (Entry × Bytes)) where
  handleEntry entry link := fun (state,seen) =>
    (((handlers.handleEntry entry link state).1,(entry,link) :: seen),(handlers.handleEntry entry link state).2)
  writeFileData data := fun (state,seen) =>
    (((handlers.writeFileData data state).1,seen),(handlers.writeFileData data state).2)
  endOfArchive := fun (state,seen) => (((handlers.endOfArchive state).1,seen),(handlers.endOfArchive state).2)
  invalid := handlers.invalid

/-- The entries that a run hands over, each with its link name. -/
def handed (windows : Bool) (handlers : Handlers ε σ) (chunks : List Bytes) (start : TarParser × σ) :
    List (Entry × Bytes) :=
  (feedChunks windows (watch handlers) chunks (start.1,start.2,[])).1.2.2

def Watched (watching : TarParser × σ × List (Entry × Bytes)) (plain : TarParser × σ) : Prop :=
  plain = (watching.1,watching.2.1)

theorem feedTarFuel_watch (windows : Bool) (handlers : Handlers ε σ) (fuel : Nat) (chunk : Bytes) :
    Alike Watched (feedTarFuel windows (watch handlers) fuel chunk) (feedTarFuel windows handlers fuel chunk) := by
  induction fuel generalizing chunk with
  | zero => exact fun _ _ related => ⟨rfl,related⟩
  | succ fuel ih =>
    intro watching plain related
    obtain ⟨parser,state,seen⟩ := watching
    subst related
    simp only [feedTarFuel]
    split
    next => exact ⟨rfl,rfl⟩
    next =>
      generalize feed windows parser chunk = outcome
      obtain ⟨next,kind,consumed⟩ := outcome
      have noted : ∀ {one : Action ε (σ × List (Entry × Bytes))} {two : Action ε σ},
          (∀ state seen, (one (state,seen)).2 = (two state).2 ∧ (one (state,seen)).1.1 = (two state).1) →
          Alike Watched (onState one) (onState two) := by
        intro one two same watching plain related
        obtain ⟨parser,state,seen⟩ := watching
        subst related
        exact ⟨(same state seen).1,by rw [Watched,onState,onState,(same state seen).2]⟩
      cases kind with
      | needMoreData => exact ⟨rfl,rfl⟩
      | entry entry => exact andThen_alike (noted fun _ _ => ⟨rfl,rfl⟩) (ih _) _ _ rfl
      | fileData data => exact andThen_alike (noted fun _ _ => ⟨rfl,rfl⟩) (ih _) _ _ rfl
      | endOfArchive => exact ⟨rfl,rfl⟩
      | err error => exact ⟨rfl,rfl⟩

theorem feedChunks_keeps_handed {handlers : Handlers ε σ} {invariant : σ → Prop} {property : Entry → Bytes → Prop}
    (entry : ∀ entry link state, Checked windows entry → property entry link → invariant state →
      invariant (handlers.handleEntry entry link state).1)
    (data : ∀ data state, invariant state → invariant (handlers.writeFileData data state).1)
    (finished : ∀ state, invariant state → invariant (handlers.endOfArchive state).1)
    {chunks : List Bytes} {start : TarParser × σ} (holds : invariant start.2)
    (all : ∀ pair ∈ handed windows handlers chunks start, property pair.1 pair.2) :
    invariant (feedChunks windows handlers chunks start).1.2 := by
  have kept : (∀ pair ∈ handed windows handlers chunks start, property pair.1 pair.2) →
      invariant (feedChunks windows (watch handlers) chunks (start.1,start.2,[])).1.2.1 := by
    refine @feedChunks_keeps ε (σ × List (Entry × Bytes)) windows (watch handlers)
      (fun state => (∀ pair ∈ state.2, property pair.1 pair.2) → invariant state.1) ?_ ?_ ?_ chunks
      (start.1,start.2,[]) fun _ => holds
    · intro read link state checked holds all
      exact entry read link state.1 checked (all (read,link) mem_cons_self)
        (holds fun pair member => all pair (mem_cons_of_mem _ member))
    · exact fun bytes state holds all => data bytes state.1 (holds all)
    · exact fun state holds all => finished state.1 (holds all)
  obtain ⟨_,same⟩ := forEach_alike chunks (fun chunk => feedTarFuel_watch windows handlers chunk.length chunk)
    (start.1,start.2,[]) start rfl
  rw [show (feedChunks windows handlers chunks start).1 = _ from same]
  exact kept all

end Handed

def padded (size : Nat) (text : String) : Bytes := ascii text ++ List.replicate (size - (ascii text).length) 0

def memberHeader (name size : String) (typeflag : UInt8) (link : String) : Bytes :=
  padded 100 name ++ padded 24 "0000644" ++ padded 32 size ++ [typeflag] ++ padded 100 link ++ List.replicate 255 0

def zeroBlock : Bytes := List.replicate 512 0

end Ant.Pkg.TarFeed
