import Ant.Pkg.Storage
import Ant.Pkg.TarFeed

/-! `StorageExtractor` of `extractor.zig`: it writes the members of an archive through a
storage context, with a buffer for the open file and symbolic links made as copies at the end. -/
namespace Ant.Pkg.PortableExtractor
open Library.ByteLayout Library.ByteString Library.Effect Library.PathTree Tar TarStream TarFeed Storage

inductive Fault where
  | extract (error : ExtractError)
  | storage (error : StorageError)
  deriving DecidableEq,Repr

structure PendingSymlink where
  path : Bytes
  target : Bytes
  deriving DecidableEq,Repr

/-- The parser stands beside it, in the feeding loop. -/
structure StorageExtractor where
  store : Store
  outputPath : Bytes
  currentFile : Option Bytes
  fileBuffer : Bytes
  pendingSymlinks : List PendingSymlink
  filesExtracted : Nat
  bytesExtracted : Nat
  archiveFinished : Bool

def init (store : Store) (outputPath : Bytes) : StorageExtractor := ⟨store,outputPath,none,[],[],0,0,false⟩

def onStore (operation : Action StorageError Store) : Action Fault StorageExtractor := fun self =>
  ({self with store := (operation self.store).1},(operation self.store).2.map .storage)

def fullPath (self : StorageExtractor) (relative : Bytes) : Bytes := join self.outputPath relative

def flushFileBuffer : Action Fault StorageExtractor := fun self =>
  match self.currentFile with
  | none => (self,none)
  | some path =>
    if self.fileBuffer = [] then (self,none) else
    andThen (onStore (write path self.fileBuffer false)) (fun self => ({self with fileBuffer := []},none)) self

def closeCurrentFile : Action Fault StorageExtractor :=
  andThen flushFileBuffer fun self => ({self with currentFile := none},none)

def createFile (relative : Bytes) : Action Fault StorageExtractor :=
  andThen closeCurrentFile fun self =>
    andThen (onStore (write (fullPath self relative) [] true)) (fun after =>
      ({after with currentFile := some (fullPath self relative), filesExtracted := after.filesExtracted + 1},none)) self

/-- Every `..` takes back a component of the link's directory or of the target; none may leave the archive. -/
def resolveComponents : List Bytes → List Bytes → Option (List Bytes)
  | components,[] => some components
  | components,component :: rest =>
    if component = [] ∨ component = [dot] then resolveComponents components rest
    else if component = [dot,dot] then
      if components = [] then none else resolveComponents components.dropLast rest
    else resolveComponents (components ++ [component]) rest

def normalizeSymlinkTarget (entryPath target : Bytes) : Option Bytes :=
  if target = [] ∨ target.head? = some slash ∨ 92 ∈ target ∨ target.any (· < 0x20) then none else
  let parent := (split slash ((dirname entryPath).getD [])).filter (· ≠ [])
  match resolveComponents parent (split slash target) with
  | none => none
  | some [] => none
  | some components => some (Library.ByteString.join [slash] components)

def queueSymlink (entryPath link : Bytes) : Action Fault StorageExtractor := fun self =>
  match normalizeSymlinkTarget entryPath link with
  | none => (self,some (.extract .invalidPath))
  | some target => ({self with pendingSymlinks := self.pendingSymlinks ++ [⟨entryPath,target⟩]},none)

/-- A link becomes a copy of its target; the files of the copy are counted. -/
def materialize (item : PendingSymlink) : Action Fault StorageExtractor := fun self =>
  andThen (onStore (attempt (remove (fullPath self item.path))))
    (andThen (onStore (copyTree (fullPath self item.target) (fullPath self item.path))) fun after =>
      match countFiles after.store (fullPath self item.path) with
      | .error error => (after,some (.storage error))
      | .ok count => ({after with filesExtracted := after.filesExtracted + count},none)) self

/-- The list of links is not cleared. -/
def materializePendingSymlinks : Action Fault StorageExtractor := fun self =>
  forEach materialize self.pendingSymlinks self

def handleEntry (entry : Entry) (link : Bytes) : Action Fault StorageExtractor := fun self =>
  if entry.path = [] then (self,none) else
  match entry.entryType with
  | .directory => onStore (mkdirs (fullPath self entry.path)) self
  | .file => createFile entry.path self
  | .symlink => queueSymlink entry.path link self

/-- `flushAt` is the size from which the buffer is written out before its file is closed. -/
def writeFileData (flushAt : Option Nat) (data : Bytes) : Action Fault StorageExtractor := fun self =>
  if self.currentFile = none ∨ data = [] then (self,none) else
  let self := {self with fileBuffer := self.fileBuffer ++ data}
  andThen (if flushAt.any (· ≤ self.fileBuffer.length) then flushFileBuffer else done) (fun self =>
    ({self with bytesExtracted := self.bytesExtracted + data.length},none)) self

def endOfArchive : Action Fault StorageExtractor :=
  andThen closeCurrentFile (andThen materializePendingSymlinks fun self => ({self with archiveFinished := true},none))

def handlers (flushAt : Option Nat) : Handlers Fault StorageExtractor :=
  ⟨handleEntry,writeFileData flushAt,endOfArchive,.extract⟩

def bufferSize : Nat := 128 * 1024

def run (windows : Bool) (store : Store) (outputPath : Bytes) (chunks : List Bytes) :
    (TarParser × StorageExtractor) × Option Fault :=
  feedChunks windows (handlers (some bufferSize)) chunks (Tar.init (ascii "package/"),init store outputPath)

end Ant.Pkg.PortableExtractor
