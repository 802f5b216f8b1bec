import Mathlib.Data.List.AList
import Ant.Library.Probe
import Ant.Pkg.LockfileFormat

/-! `LockfileWriter`: interning, the side tables, and `serialize`. A value that
does not fit the `u32` the source casts it to is the error `overflow`. -/
namespace Ant.Pkg.LockfileSerialize
open Library.ByteLayout Library.ByteString Library.Probe LockfileFormat

inductive WriterError where
  | stringTableTooLarge
  | stringTooLarge
  | hashTableFull
  | overflow
  deriving DecidableEq,Repr

structure LockfileWriter where
  packages : List Package := []
  dependencies : List Dependency := []
  binEntries : List BinEntry := []
  disabledDependencies : List DisabledDependency := []
  platformEntries : List PlatformEntry := []
  stringBuilder : Bytes := []
  stringOffsets : AList (fun _ : Bytes => StringRef) := ∅
  resolutionHash : UInt64 := 0

def u32 (value : Nat) : Except WriterError UInt32 :=
  if value < 2^32 then .ok (UInt32.ofNat value) else .error .overflow

def internString (writer : LockfileWriter) (text : Bytes) : Except WriterError (StringRef × LockfileWriter) :=
  if text.length = 0 then .ok (.empty,writer) else
  match writer.stringOffsets.lookup text with
  | some ref => .ok (ref,writer)
  | none =>
    if writer.stringBuilder.length > 2^32 - 1 then .error .stringTableTooLarge
    else if text.length > 2^32 - 1 then .error .stringTooLarge
    else
      let ref : StringRef := ⟨UInt32.ofNat writer.stringBuilder.length,UInt32.ofNat text.length⟩
      .ok (ref,{writer with
        stringBuilder := writer.stringBuilder ++ text
        stringOffsets := writer.stringOffsets.insert text ref})

def internOptional (writer : LockfileWriter) (text : Option Bytes) :
    Except WriterError (StringRef × LockfileWriter) :=
  match text with
  | some text => internString writer text
  | none => .ok (.empty,writer)

def addPackage (writer : LockfileWriter) (pkg : Package) : Except WriterError (UInt32 × LockfileWriter) := do
  let index ← u32 writer.packages.length
  return (index,{writer with packages := writer.packages ++ [pkg]})

def addDependency (writer : LockfileWriter) (dep : Dependency) : LockfileWriter :=
  {writer with dependencies := writer.dependencies ++ [dep]}

def addBinEntry (writer : LockfileWriter) (packageIndex : UInt32) (name path : Bytes) :
    Except WriterError LockfileWriter := do
  let (name,writer) ← internString writer name
  let (path,writer) ← internString writer path
  return {writer with binEntries := writer.binEntries ++ [⟨packageIndex,name,path⟩]}

def addDisabledDependency (writer : LockfileWriter) (parentPackageIndex : UInt32) (name constraint : Bytes) :
    Except WriterError LockfileWriter := do
  let (name,writer) ← internString writer name
  let (constraint,writer) ← internString writer constraint
  return {writer with
    disabledDependencies := writer.disabledDependencies ++ [⟨parentPackageIndex,name,constraint⟩]}

def addPlatformEntry (writer : LockfileWriter) (packageIndex : UInt32) (os cpu libc : Option Bytes) :
    Except WriterError LockfileWriter :=
  if os = none ∧ cpu = none ∧ libc = none then .ok writer else do
    let (os,writer) ← internOptional writer os
    let (cpu,writer) ← internOptional writer cpu
    let (libc,writer) ← internOptional writer libc
    return {writer with platformEntries := writer.platformEntries ++ [⟨packageIndex,os,cpu,libc⟩]}

def setResolutionHash (writer : LockfileWriter) (hash : UInt64) : LockfileWriter :=
  {writer with resolutionHash := hash}

inductive Command where
  | internString (text : Bytes)
  | addPackage (pkg : Package)
  | addDependency (dep : Dependency)
  | addBinEntry (packageIndex : UInt32) (name path : Bytes)
  | addDisabledDependency (parentPackageIndex : UInt32) (name constraint : Bytes)
  | addPlatformEntry (packageIndex : UInt32) (os cpu libc : Option Bytes)
  | setResolutionHash (hash : UInt64)

def perform (writer : LockfileWriter) : Command → Except WriterError LockfileWriter
  | .internString text => (internString writer text).map (·.2)
  | .addPackage pkg => (addPackage writer pkg).map (·.2)
  | .addDependency dep => .ok (addDependency writer dep)
  | .addBinEntry packageIndex name path => addBinEntry writer packageIndex name path
  | .addDisabledDependency parent name constraint => addDisabledDependency writer parent name constraint
  | .addPlatformEntry packageIndex os cpu libc => addPlatformEntry writer packageIndex os cpu libc
  | .setResolutionHash hash => .ok (setResolutionHash writer hash)

def build (commands : List Command) : Except WriterError LockfileWriter := commands.foldlM perform {}

def stringRefOrder (table : Bytes) (a b : StringRef) : Ordering := compare (a.slice table) (b.slice table)

def binEntryLessThan (table : Bytes) (a b : BinEntry) : Bool :=
  if a.packageIndex ≠ b.packageIndex then a.packageIndex < b.packageIndex
  else if stringRefOrder table a.name b.name ≠ .eq then stringRefOrder table a.name b.name == .lt
  else stringRefOrder table a.path b.path == .lt

def disabledDependencyLessThan (table : Bytes) (a b : DisabledDependency) : Bool :=
  if a.parentPackageIndex ≠ b.parentPackageIndex then a.parentPackageIndex < b.parentPackageIndex
  else if stringRefOrder table a.name b.name ≠ .eq then stringRefOrder table a.name b.name == .lt
  else stringRefOrder table a.constraint b.constraint == .lt

def platformEntryLessThan (table : Bytes) (a b : PlatformEntry) : Bool :=
  if a.packageIndex ≠ b.packageIndex then a.packageIndex < b.packageIndex
  else if stringRefOrder table a.os b.os ≠ .eq then stringRefOrder table a.os b.os == .lt
  else if stringRefOrder table a.cpu b.cpu ≠ .eq then stringRefOrder table a.cpu b.cpu == .lt
  else stringRefOrder table a.libc b.libc == .lt

/-- `std.mem.sort`, a stable sort. -/
def memSort {α : Type} (lessThan : α → α → Bool) (items : List α) : List α :=
  items.mergeSort fun a b => !lessThan b a

def sortSideTables (writer : LockfileWriter) : LockfileWriter := {writer with
  binEntries := memSort (binEntryLessThan writer.stringBuilder) writer.binEntries
  disabledDependencies := memSort (disabledDependencyLessThan writer.stringBuilder) writer.disabledDependencies
  platformEntries := memSort (platformEntryLessThan writer.stringBuilder) writer.platformEntries}

structure Env where
  wyhash : Bytes → UInt64
  osTag : Bytes
  cpuArch : Bytes
  abiName : Bytes

def platformHash (env : Env) (value : Bytes) : UInt32 := (env.wyhash value).toUInt32

def hashBytes (bytes : Bytes) : Bytes := encodeNat 8 bytes.length ++ bytes

def graphHashInput (writer : LockfileWriter) : Bytes :=
  let text := fun (ref : StringRef) => hashBytes (ref.slice writer.stringBuilder)
  let word := Layout.u32.encode
  let long := Layout.u64.encode
  ascii "ant-lock-graph-v1" ++ encodeNat 8 writer.packages.length ++
  writer.packages.zipIdx.flatMap (fun (pkg,i) => encodeNat 8 i ++ text pkg.name ++ long pkg.versionMajor ++
    long pkg.versionMinor ++ long pkg.versionPatch ++ text pkg.prerelease ++ pkg.integrity.toList ++
    text pkg.tarballUrl ++ text pkg.parentPath ++ word pkg.depsStart ++ word pkg.depsCount ++
    [pkg.flags.toByte]) ++
  encodeNat 8 writer.dependencies.length ++
  writer.dependencies.flatMap (fun dep => word dep.packageIndex ++ text dep.constraint ++ [dep.flags.toByte]) ++
  encodeNat 8 writer.binEntries.length ++
  writer.binEntries.flatMap (fun entry => word entry.packageIndex ++ text entry.name ++ text entry.path) ++
  encodeNat 8 writer.disabledDependencies.length ++
  writer.disabledDependencies.flatMap (fun entry =>
    word entry.parentPackageIndex ++ text entry.name ++ text entry.constraint) ++
  encodeNat 8 writer.platformEntries.length ++
  writer.platformEntries.flatMap (fun entry =>
    word entry.packageIndex ++ text entry.os ++ text entry.cpu ++ text entry.libc)

def computeGraphHash (env : Env) (writer : LockfileWriter) : UInt64 := env.wyhash (graphHashInput writer)

def bucketFree (table : List HashBucket) (index : Nat) : Bool :=
  (table.getD index .empty).packageIndex == maxIndex

def insertBucket (table : List HashBucket) (hash packageIndex : UInt32) : Except WriterError (List HashBucket) :=
  match findFree (bucketFree table) table.length table.length (hash.toNat % table.length) with
  | none => .error .hashTableFull
  | some index => .ok (table.set index ⟨hash,packageIndex⟩)

def fillHashTable (strings : Bytes) : List Package → Nat → List HashBucket → Except WriterError (List HashBucket)
  | [],_,table => .ok table
  | pkg :: rest,i,table => do
    let index ← u32 i
    let table ← insertBucket table (djb2Hash (pkg.name.slice strings)) index
    fillHashTable strings rest (i+1) table

structure Offsets where
  stringTableSize : UInt32
  packageArrayOffset : UInt32
  dependencyArrayOffset : UInt32
  hashTableSize : UInt32
  hashTableOffset : UInt32
  binEntryOffset : UInt32
  disabledOffset : UInt32
  platformEntryOffset : UInt32
  packageCount : UInt32
  dependencyCount : UInt32
  binEntryCount : UInt32
  disabledDependencyCount : UInt32
  platformEntryCount : UInt32

def sectionOffsets (writer : LockfileWriter) : Except WriterError Offsets := do
  let stringTableSize ← u32 writer.stringBuilder.length
  let packageArrayOffset ← u32 (alignUp (Header.layout.size + stringTableSize.toNat) 8)
  let packageArraySize ← u32 (writer.packages.length * Package.layout.size)
  let dependencyArrayOffset ← u32 (alignUp (packageArrayOffset.toNat + packageArraySize.toNat) 4)
  let dependencyArraySize ← u32 (writer.dependencies.length * Dependency.layout.size)
  let hashTableSize ← u32 (max 1 (writer.packages.length * 10 / 7))
  let hashTableOffset ← u32 (alignUp (dependencyArrayOffset.toNat + dependencyArraySize.toNat) 4)
  let hashTableBytes ← u32 (hashTableSize.toNat * HashBucket.layout.size)
  let binEntryOffset ← u32 (alignUp (hashTableOffset.toNat + hashTableBytes.toNat) 4)
  let binEntryBytes ← u32 (writer.binEntries.length * BinEntry.layout.size)
  let disabledOffset ← u32 (alignUp (binEntryOffset.toNat + binEntryBytes.toNat) 4)
  let disabledBytes ← u32 (writer.disabledDependencies.length * DisabledDependency.layout.size)
  let platformEntryOffset ← u32 (alignUp (disabledOffset.toNat + disabledBytes.toNat) 4)
  let packageCount ← u32 writer.packages.length
  let dependencyCount ← u32 writer.dependencies.length
  let binEntryCount ← u32 writer.binEntries.length
  let disabledDependencyCount ← u32 writer.disabledDependencies.length
  let platformEntryCount ← u32 writer.platformEntries.length
  return ⟨stringTableSize,packageArrayOffset,dependencyArrayOffset,hashTableSize,hashTableOffset,
    binEntryOffset,disabledOffset,platformEntryOffset,packageCount,dependencyCount,binEntryCount,
    disabledDependencyCount,platformEntryCount⟩

def headerOf (env : Env) (writer : LockfileWriter) (offsets : Offsets) : Header where
  packageCount := offsets.packageCount
  dependencyCount := offsets.dependencyCount
  stringTableOffset := 88
  stringTableSize := offsets.stringTableSize
  packageArrayOffset := offsets.packageArrayOffset
  dependencyArrayOffset := offsets.dependencyArrayOffset
  hashTableOffset := offsets.hashTableOffset
  hashTableSize := offsets.hashTableSize
  platformOsHash := platformHash env env.osTag
  platformCpuHash := platformHash env env.cpuArch
  platformAbiHash := platformHash env env.abiName
  binEntryOffset := offsets.binEntryOffset
  binEntryCount := offsets.binEntryCount
  disabledDependencyCount := offsets.disabledDependencyCount
  platformEntryOffset := offsets.platformEntryOffset
  platformEntryCount := offsets.platformEntryCount
  graphHash := computeGraphHash env writer
  resolutionHash := writer.resolutionHash

def padding (offset : UInt32) (before : Nat) : Bytes := List.replicate (offset.toNat - before) 0

def fileBytes (header : Header) (offsets : Offsets) (table : List HashBucket) (writer : LockfileWriter) : Bytes :=
  Header.layout.encode header ++ (writer.stringBuilder ++
  (padding offsets.packageArrayOffset (88 + offsets.stringTableSize.toNat) ++
  (Package.layout.encodeAll writer.packages ++
  (padding offsets.dependencyArrayOffset (offsets.packageArrayOffset.toNat + writer.packages.length * 136) ++
  (Dependency.layout.encodeAll writer.dependencies ++
  (padding offsets.hashTableOffset (offsets.dependencyArrayOffset.toNat + writer.dependencies.length * 16) ++
  (HashBucket.layout.encodeAll table ++
  (padding offsets.binEntryOffset (offsets.hashTableOffset.toNat + table.length * 8) ++
  (BinEntry.layout.encodeAll writer.binEntries ++
  ((if writer.disabledDependencies.length > 0 ∨ writer.platformEntries.length > 0 then
      padding offsets.disabledOffset (offsets.binEntryOffset.toNat + writer.binEntries.length * 20) else []) ++
  (DisabledDependency.layout.encodeAll writer.disabledDependencies ++
  ((if writer.platformEntries.length > 0 then padding offsets.platformEntryOffset
      (offsets.disabledOffset.toNat + writer.disabledDependencies.length * 20) else []) ++
  PlatformEntry.layout.encodeAll writer.platformEntries))))))))))))

structure Serialized where
  data : Bytes
  graphHash : UInt64

def serialize (env : Env) (writer : LockfileWriter) : Except WriterError Serialized := do
  let writer := sortSideTables writer
  let offsets ← sectionOffsets writer
  let table ← fillHashTable writer.stringBuilder writer.packages 0
    (List.replicate offsets.hashTableSize.toNat .empty)
  let header := headerOf env writer offsets
  return ⟨fileBytes header offsets table writer,header.graphHash⟩

end Ant.Pkg.LockfileSerialize
