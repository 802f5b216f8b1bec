import Ant.Library.ByteString

/-! The resumable tar parser of `extractor.zig`: header fields, path validation, and
`TarParser.feed` over headers, file data and padding. -/
namespace Ant.Pkg.Tar
open Library.ByteLayout Library.ByteString

inductive ExtractError where
  | decompressionFailed
  | invalidTarHeader
  | ioError
  | pathTooLong
  | unsupportedFormat
  | invalidPath
  deriving DecidableEq,Repr

def validateBasic (path : Bytes) : Bool := !(path.length == 0 || path.length > 4096) && path.head? != some slash

def validateBadCharsAndTraversal (path : Bytes) : Bool :=
  path.all (fun char => !(char == 0 || char == 92 || char < 0x20)) && (split slash path).all (· != [dot,dot])

def reservedNames : List Bytes := ["CON","PRN","AUX","NUL","COM1","COM2","COM3","COM4","COM5","COM6","COM7","COM8",
  "COM9","LPT1","LPT2","LPT3","LPT4","LPT5","LPT6","LPT7","LPT8","LPT9"].map ascii

def isWindowsReserved (name : Bytes) : Bool :=
  match reservedNames.find? (fun reserved => reserved.isPrefixOf (name.map toUpper)) with
  | none => false
  | some reserved => name.length == reserved.length || (name.drop reserved.length).head? == some dot

/-- Only compiled for Windows. -/
def validateWindowsReserved (path : Bytes) : Bool :=
  match (split slash path).getLastD [] with
  | [] => false
  | first :: rest =>
    let shouldCheck := (ascii "CPANL").contains (toUpper first)
    !(shouldCheck && isWindowsReserved (first :: rest))

def validatePath (windows : Bool) (path : Bytes) : Bool :=
  validateBasic path && validateBadCharsAndTraversal path && (!windows || validateWindowsReserved path)

theorem validatePath_facts {windows : Bool} {path : Bytes} (valid : validatePath windows path = true) :
    path.head? ≠ some slash ∧ [dot,dot] ∉ split slash path := by
  simp only [validatePath,validateBasic,validateBadCharsAndTraversal,Bool.and_eq_true,bne_iff_ne,
    List.all_eq_true] at valid
  obtain ⟨⟨⟨_,relative⟩,_,segments⟩,_⟩ := valid
  exact ⟨relative,fun member => segments _ member rfl⟩

abbrev TarHeader := Bytes

namespace TarHeader

def field (header : TarHeader) (offset size : Nat) : Bytes := (header.drop offset).take size

def isZero (header : TarHeader) : Bool := header.all (· == 0)

def typeflag (header : TarHeader) : UInt8 := header.getD 156 0

def linkname (header : TarHeader) : Bytes := untilZero (field header 157 100)

/-- The name behind its prefix field; the path buffer holds the longest of them. -/
def getName (header : TarHeader) : Bytes :=
  let directory := untilZero (field header 345 155)
  let name := untilZero (field header 0 100)
  if directory.length > 0 then directory ++ [slash] ++ name else name

def getSize (header : TarHeader) : Option Nat := parseUnsigned 64 8 (trimEnd [0,32] (field header 124 12))

def getMode (header : TarHeader) : Option Nat := parseUnsigned 32 8 (trimEnd [0,32] (field header 100 8))

def isDirectory (header : TarHeader) : Bool := typeflag header == 53

def isSymlink (header : TarHeader) : Bool := typeflag header == 50

end TarHeader

inductive EntryType where
  | file
  | directory
  | symlink
  deriving DecidableEq,Repr

structure Entry where
  path : Bytes
  mode : Nat
  size : Nat
  entryType : EntryType
  deriving DecidableEq,Repr

inductive State where
  | readHeader
  | readFileData
  | skipPadding
  deriving DecidableEq,Repr

/-- The prefix that is stripped from entry paths; the first directory entry replaces the default. -/
structure StripPrefix where
  bytes : Bytes
  detected : Bool
  deriving DecidableEq,Repr

/-- `header` is the last complete header, `pending` the bytes of the next one that have arrived. -/
structure TarParser where
  state : State
  header : TarHeader
  pending : Bytes
  currentFileRemaining : Nat
  skipBytes : Nat
  strip : StripPrefix
  deriving DecidableEq,Repr

def init (defaultPrefix : Bytes) : TarParser := ⟨.readHeader,[],[],0,0,⟨defaultPrefix.take 128,false⟩⟩

inductive Kind where
  | needMoreData
  | entry (entry : Entry)
  | fileData (data : Bytes)
  | endOfArchive
  | err (error : ExtractError)
  deriving DecidableEq,Repr

structure ParseResult where
  kind : Kind
  consumed : Nat
  deriving DecidableEq,Repr

def detectPrefix (strip : StripPrefix) (header : TarHeader) (path : Bytes) : StripPrefix :=
  if !strip.detected && TarHeader.isDirectory header then
    let start := path.take 127
    ⟨if start.length > 0 && start.getLast? != some slash then start ++ [slash] else start,true⟩
  else strip

def entryType (header : TarHeader) : EntryType :=
  if TarHeader.isDirectory header then .directory else if TarHeader.isSymlink header then .symlink else .file

def readEntry (windows : Bool) (strip : StripPrefix) (header : TarHeader) : Except ExtractError Entry :=
  let name := TarHeader.getName header
  let path := if strip.bytes.isPrefixOf name then name.drop strip.bytes.length else name
  if path.length > 0 && !validatePath windows path then .error .invalidPath else
  match TarHeader.getSize header,TarHeader.getMode header with
  | some size,some mode => .ok ⟨path,mode,size,entryType header⟩
  | _,_ => .error .invalidTarHeader

def paddingOf (size : Nat) : Nat := (512 - size % 512) % 512

def feedHeader (windows : Bool) (parser : TarParser) (data : Bytes) : TarParser × ParseResult :=
  let toCopy := min (512 - parser.pending.length) data.length
  let header := parser.pending ++ data.take toCopy
  if header.length < 512 then ({parser with state := .readHeader, pending := header},⟨.needMoreData,toCopy⟩) else
  let parser := {parser with state := .readHeader, header := header, pending := []}
  if TarHeader.isZero header then (parser,⟨.endOfArchive,toCopy⟩) else
  let parser := {parser with strip := detectPrefix parser.strip header (TarHeader.getName header)}
  match readEntry windows parser.strip header with
  | .error error => (parser,⟨.err error,toCopy⟩)
  | .ok entry =>
    ({parser with
      currentFileRemaining := entry.size
      state := if entry.size > 0 then .readFileData else .readHeader},⟨.entry entry,toCopy⟩)

def feedData (parser : TarParser) (data : Bytes) : TarParser × ParseResult :=
  let toRead := min parser.currentFileRemaining data.length
  let left := parser.currentFileRemaining - toRead
  let result := ⟨.fileData (data.take toRead),toRead⟩
  if left = 0 then
    match TarHeader.getSize parser.header with
    | none => ({parser with currentFileRemaining := left},⟨.err .invalidTarHeader,toRead⟩)
    | some size =>
      let padding := paddingOf size
      if padding > 0 then
        ({parser with currentFileRemaining := left, skipBytes := padding, state := .skipPadding},result)
      else ({parser with currentFileRemaining := left, state := .readHeader},result)
  else ({parser with currentFileRemaining := left},result)

/-- Padding that ends inside the chunk is followed by a header. -/
def feedPadding (windows : Bool) (parser : TarParser) (data : Bytes) : TarParser × ParseResult :=
  let toSkip := min parser.skipBytes data.length
  let left := parser.skipBytes - toSkip
  let parser := {parser with skipBytes := left, state := if left = 0 then .readHeader else .skipPadding}
  if data.length > toSkip then
    let (parser,next) := feedHeader windows parser (data.drop toSkip)
    (parser,⟨next.kind,toSkip + next.consumed⟩)
  else (parser,⟨.needMoreData,toSkip⟩)

def feed (windows : Bool) (parser : TarParser) (data : Bytes) : TarParser × ParseResult :=
  match parser.state with
  | .readHeader => feedHeader windows parser data
  | .readFileData => feedData parser data
  | .skipPadding => feedPadding windows parser data

end Ant.Pkg.Tar
