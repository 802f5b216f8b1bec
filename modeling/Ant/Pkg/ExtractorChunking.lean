import Ant.Pkg.PortableExtractor

/-! The storage extractor does not depend on how the stream is cut, as long as nothing follows
the end of the archive and no long file is left open. The reference is the same extractor
without early flushes. -/
namespace Ant.Pkg.ExtractorChunking
open Library.ByteLayout Library.ByteString Library.Effect Library.PathTree Tar TarStream TarFeed Storage PortableExtractor Option

structure OpenFile (limit : Nat) (store : Store) (buffer : Bytes) (owner : StorageExtractor) (place : Path)
    (flushed : Bytes) : Prop where
  created : get owner.store place = some (.leaf [])
  written : store = put owner.store place (.leaf flushed)
  held : owner.fileBuffer = flushed ++ buffer
  short : buffer.length < limit
  early : flushed = [] ∨ limit ≤ flushed.length

def Buffers (limit : Nat) (store : Store) (buffer : Bytes) (owner : StorageExtractor) : Prop :=
  match owner.currentFile with
  | none => store = owner.store ∧ buffer = [] ∧ owner.fileBuffer = []
  | some path => ∃ place flushed, normalizeRelative path = .ok place ∧ OpenFile limit store buffer owner place flushed

/-- The first extractor flushes at `limit`, the second one only when it closes a file. -/
def Buffered (limit : Nat) (first second : StorageExtractor) : Prop :=
  ∃ store buffer, first = {second with store := store, fileBuffer := buffer} ∧ Buffers limit store buffer second

section
variable {limit : Nat} {store : Store} {buffer : Bytes} {owner : StorageExtractor} {path : Bytes}

theorem Buffers.closed (closed : owner.currentFile = none) (same : store = owner.store) (empty : owner.fileBuffer = []) :
    Buffers limit store [] owner := by
  rw [Buffers,closed]
  exact ⟨same,rfl,empty⟩

theorem Buffers.opened {place : Path} {flushed : Bytes} (opened : owner.currentFile = some path)
    (normal : normalizeRelative path = .ok place) (file : OpenFile limit store buffer owner place flushed) :
    Buffers limit store buffer owner := by
  rw [Buffers,opened]
  exact ⟨place,flushed,normal,file⟩

end

variable {limit : Nat} {self first second : StorageExtractor}

/-- An entry that opens a file starts its count, and data adds to the count of the file that is open. -/
def openBytes (count : Option Nat) : Token → Option Nat
  | .entry entry _ => if entry.entryType = .file ∧ entry.path ≠ [] then some 0 else count
  | .byte _ => count.map (· + 1)

/-- How much data has come since a file was opened. -/
def unclosed (tokens : List Token) : Nat := (tokens.foldl openBytes none).getD 0

def members (windows : Bool) (stream : Bytes) : List Token × Stop := read windows ⟨ascii "package/",false⟩ stream

/-- Where an extraction stops with its file open: what was handed over so far was accepted, and then the
stream breaks off, or has a bad header, or a directory or a link is refused. -/
inductive StopsAfter (store : Store) (outputPath : Bytes) (stream : List Token × Stop) : List Token → Prop
  | stream {self : StorageExtractor} (broken : ∀ rest, stream.2 ≠ .endOfArchive rest)
      (accepted : forEach (deliver (handlers none)) stream.1 (init store outputPath) = (self,none)) :
      StopsAfter store outputPath stream stream.1
  | refused {tokens : List Token} {entry : Entry} {link : Bytes} {rest : List Token} {self : StorageExtractor}
      (whole : stream.1 = tokens ++ .entry entry link :: rest)
      (accepted : forEach (deliver (handlers none)) tokens (init store outputPath) = (self,none))
      (other : entry.entryType ≠ .file) (refused : (handleEntry entry link self).2 ≠ none) :
      StopsAfter store outputPath stream tokens

/-- What makes the outcome depend on the members alone: when the extraction reaches the end of the archive, less than a
block follows it, or zeros alone and the links may be made again; and when it stops with a file open, the file's data
so far fits into one buffer. -/
structure Settled (windows : Bool) (store : Store) (outputPath stream : Bytes) : Prop where
  tail : ∀ rest next, (members windows stream).2 = .endOfArchive rest →
    extract (handlers none) (members windows stream) (init store outputPath) = (next,none) →
    rest.length < 512 ∨ (rest.all (· == 0) ∧ endOfArchive next = (next,none))
  left : ∀ tokens, StopsAfter store outputPath (members windows stream) tokens → unclosed tokens ≤ bufferSize

def outcome (result : (TarParser × StorageExtractor) × Option Fault) : Store × Nat × Nat × Option Fault :=
  (result.1.2.store,result.1.2.filesExtracted,result.1.2.bytesExtracted,result.2)

section Open
variable {entry : Entry} {link : Bytes} {next : StorageExtractor}

/-- An extractor that does not flush early holds the data that has come since it opened a file. -/
structure Counted (count : Option Nat) (self : StorageExtractor) : Prop where
  related : ∃ first, Buffered bufferSize first self
  opened : count = none → self.currentFile = none
  buffer : self.fileBuffer.length ≤ count.getD 0

end Open

section
variable {tokens : List Token × Stop} {rest : Bytes} {next : StorageExtractor} {store : Store} {outputPath : Bytes}
  (stop : tokens.2 = .endOfArchive rest) (whole : extract (handlers none) tokens (init store outputPath) = (next,none))
include stop whole

end

section Again
variable {windows : Bool} {store : Store} {outputPath : Bytes}

end Again

end Ant.Pkg.ExtractorChunking
