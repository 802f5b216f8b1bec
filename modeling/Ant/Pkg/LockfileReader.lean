import Ant.Pkg.LockfileFormat

/-! `Lockfile.initFromData` and the accessors of an opened lockfile. The build
drops runtime safety, so an index outside a slice or an addition that leaves its
machine word is a `Fault` of the model instead of a defined result. -/
namespace Ant.Pkg.LockfileReader
open Library.ByteLayout Library.ByteString LockfileFormat

/-- The address width of the build; the repository targets both. -/
structure Target where
  usizeBits : Nat
  supported : usizeBits = 32 ∨ usizeBits = 64

def Target.bits64 : Target := ⟨64,.inr rfl⟩

inductive LockfileError where
  | invalidLockfile
  deriving DecidableEq,Repr

inductive Fault where
  | outOfRange
  | overflow
  deriving DecidableEq,Repr

def Target.mul (target : Target) (a b : Nat) : Option Nat :=
  if a * b < 2^target.usizeBits then some (a * b) else none

def sectionEnd (target : Target) (dataLen : Nat) (offset count : UInt32) (elemSize : Nat) : Option Nat :=
  match target.mul count.toNat elemSize with
  | none => none
  | some bytes =>
    if offset.toNat > dataLen ∨ bytes > dataLen - offset.toNat then none else some (offset.toNat + bytes)

/-- A slice of the accepted bytes; a static empty slice has no offset in them. -/
structure Section (α : Type) where
  offset : Option Nat
  items : List α

def Section.static {α : Type} : Section α := ⟨none,[]⟩

def Section.read {α : Type} (layout : Layout α) (data : Bytes) (offset count : Nat) : Section α :=
  ⟨some offset,layout.decodeAll count (data.drop offset)⟩

structure Lockfile where
  data : Bytes
  owned : Bool
  header : Header
  stringTable : Bytes
  packages : Section Package
  dependencies : Section Dependency
  hashTable : Section HashBucket
  binEntries : Section BinEntry
  disabledDependencies : Section DisabledDependency
  platformEntries : Section PlatformEntry

def disabledSectionOffset (target : Target) (dataLen : Nat) (header : Header) : Option Nat :=
  let binBase := if header.binEntryOffset ≠ 0 then
      sectionEnd target dataLen header.binEntryOffset header.binEntryCount BinEntry.layout.size
    else sectionEnd target dataLen header.hashTableOffset header.hashTableSize HashBucket.layout.size
  binBase.map fun base => alignUp base 4

def disabledDependenciesFromData (target : Target) (data : Bytes) (header : Header) :
    Option (Section DisabledDependency) :=
  if header.disabledDependencyCount = 0 then some .static else
  match disabledSectionOffset target data.length header with
  | none => none
  | some offset =>
    let count := header.disabledDependencyCount.toNat
    match target.mul count DisabledDependency.layout.size with
    | none => none
    | some bytes =>
      if offset > data.length ∨ bytes > data.length - offset then none
      else some (.read DisabledDependency.layout data offset count)

def platformSectionOffset (target : Target) (dataLen : Nat) (header : Header) : Option Nat :=
  match disabledSectionOffset target dataLen header with
  | none => none
  | some disabledBase =>
    (target.mul header.disabledDependencyCount.toNat DisabledDependency.layout.size).map fun disabledBytes =>
      alignUp (disabledBase + disabledBytes) 4

def platformEntriesFromData (target : Target) (data : Bytes) (header : Header) :
    Option (Section PlatformEntry) :=
  if header.platformEntryCount = 0 then some .static else
  match platformSectionOffset target data.length header with
  | none => none
  | some minOffset =>
    let offset := if header.platformEntryOffset ≠ 0 then header.platformEntryOffset.toNat else minOffset
    if offset < minOffset then none else
    let count := header.platformEntryCount.toNat
    match target.mul count PlatformEntry.layout.size with
    | none => none
    | some bytes =>
      if offset > data.length ∨ bytes > data.length - offset then none
      else some (.read PlatformEntry.layout data offset count)

def indicesInOrder (admitted : UInt32 → Bool) : Option UInt32 → List UInt32 → Bool
  | _,[] => true
  | last,index :: rest =>
    if !admitted index then false
    else if last.any (fun before => index < before) then false
    else indicesInOrder admitted (some index) rest

def validateSideTables (packageCount : UInt32) (binEntries : List BinEntry)
    (disabledDependencies : List DisabledDependency) (platformEntries : List PlatformEntry) : Bool :=
  indicesInOrder (fun index => index < packageCount) none (binEntries.map (·.packageIndex)) &&
  indicesInOrder (fun index => index == maxIndex || index < packageCount) none
    (disabledDependencies.map (·.parentPackageIndex)) &&
  indicesInOrder (fun index => index < packageCount) none (platformEntries.map (·.packageIndex))

def coreSectionsFit (target : Target) (dataLen : Nat) (header : Header) : Bool :=
  (sectionEnd target dataLen header.stringTableOffset header.stringTableSize 1).isSome &&
  (sectionEnd target dataLen header.packageArrayOffset header.packageCount Package.layout.size).isSome &&
  (sectionEnd target dataLen header.dependencyArrayOffset header.dependencyCount Dependency.layout.size).isSome

def binSectionFits (target : Target) (dataLen hashEnd : Nat) (header : Header) : Bool :=
  if header.binEntryCount > 0 then
    !(decide (header.binEntryOffset.toNat < hashEnd)) &&
      (sectionEnd target dataLen header.binEntryOffset header.binEntryCount BinEntry.layout.size).isSome
  else if header.binEntryOffset ≠ 0 then
    !(decide (header.binEntryOffset.toNat < hashEnd) || decide (header.binEntryOffset.toNat > dataLen))
  else true

def platformSectionFits (target : Target) (dataLen : Nat) (header : Header) : Bool :=
  if header.platformEntryCount > 0 ∧ header.platformEntryOffset ≠ 0 then
    (sectionEnd target dataLen header.platformEntryOffset header.platformEntryCount
      PlatformEntry.layout.size).isSome
  else true

def binEntriesFromData (data : Bytes) (header : Header) : Section BinEntry :=
  if header.binEntryCount > 0 then
    .read BinEntry.layout data header.binEntryOffset.toNat header.binEntryCount.toNat
  else .static

/-- The common body of the two openers, which differ in who frees the bytes. -/
def initFrom (owned : Bool) (target : Target) (data : Bytes) : Except LockfileError Lockfile :=
  if data.length < Header.layout.size then .error .invalidLockfile else
  let header := Header.layout.decode data
  if !header.validate then .error .invalidLockfile else
  if !coreSectionsFit target data.length header then .error .invalidLockfile else
  match sectionEnd target data.length header.hashTableOffset header.hashTableSize HashBucket.layout.size with
  | none => .error .invalidLockfile
  | some hashEnd =>
    if !binSectionFits target data.length hashEnd header then .error .invalidLockfile else
    if !platformSectionFits target data.length header then .error .invalidLockfile else
    match disabledDependenciesFromData target data header,platformEntriesFromData target data header with
    | some disabledDependencies,some platformEntries =>
      let binEntries := binEntriesFromData data header
      if !validateSideTables header.packageCount binEntries.items disabledDependencies.items
        platformEntries.items then .error .invalidLockfile else
      .ok {
        data := data
        owned := owned
        header := header
        stringTable := (data.drop header.stringTableOffset.toNat).take header.stringTableSize.toNat
        packages := .read Package.layout data header.packageArrayOffset.toNat header.packageCount.toNat
        dependencies :=
          .read Dependency.layout data header.dependencyArrayOffset.toNat header.dependencyCount.toNat
        hashTable := .read HashBucket.layout data header.hashTableOffset.toNat header.hashTableSize.toNat
        binEntries := binEntries
        disabledDependencies := disabledDependencies
        platformEntries := platformEntries }
    | _,_ => .error .invalidLockfile

def initFromData : Target → Bytes → Except LockfileError Lockfile := initFrom false

def initFromDataWindows : Target → Bytes → Except LockfileError Lockfile := initFrom true

def itemAt {α : Type} (items : List α) (index : Nat) : Except Fault α :=
  match items[index]? with
  | some item => .ok item
  | none => .error .outOfRange

def itemsBetween {α : Type} (items : List α) (start stop : Nat) : Except Fault (List α) :=
  if start ≤ stop ∧ stop ≤ items.length then .ok ((items.take stop).drop start) else .error .outOfRange

def sliceOf (target : Target) (ref : StringRef) (table : Bytes) : Except Fault Bytes :=
  if ref.offset.toNat ≥ table.length then .ok []
  else if ref.offset.toNat + ref.len.toNat ≥ 2^target.usizeBits then .error .overflow
  else .ok (ref.slice table)

def versionString (target : Target) (pkg : Package) (table : Bytes) : Except Fault Bytes := do
  let prerelease ← sliceOf target pkg.prerelease table
  let core := decimal pkg.versionMajor.toNat ++ ascii "." ++ decimal pkg.versionMinor.toNat ++ ascii "." ++
    decimal pkg.versionPatch.toNat
  return if prerelease.length > 0 then core ++ ascii "-" ++ prerelease else core

def installPath (target : Target) (pkg : Package) (table : Bytes) : Except Fault Bytes := do
  let parent ← sliceOf target pkg.parentPath table
  let name ← sliceOf target pkg.name table
  return if parent.length > 0 then parent ++ ascii "/node_modules/" ++ name else name

namespace Lockfile

def lookupLoop (target : Target) (lockfile : Lockfile) (name : Bytes) : Nat → Nat → Except Fault (Option Package)
  | 0,_ => .ok none
  | probes+1,index =>
    match itemAt lockfile.hashTable.items index with
    | .error fault => .error fault
    | .ok bucket =>
      let next := lookupLoop target lockfile name probes ((index + 1) % lockfile.hashTable.items.length)
      if bucket.packageIndex = maxIndex then .ok none
      else if bucket.nameHash = djb2Hash name then
        match itemAt lockfile.packages.items bucket.packageIndex.toNat with
        | .error fault => .error fault
        | .ok pkg =>
          match sliceOf target pkg.name lockfile.stringTable with
          | .error fault => .error fault
          | .ok pkgName => if pkgName = name then .ok (some pkg) else next
      else next

def lookupPackage (target : Target) (lockfile : Lockfile) (name : Bytes) : Except Fault (Option Package) :=
  if lockfile.hashTable.items.length = 0 then .ok none
  else lookupLoop target lockfile name lockfile.hashTable.items.length
    ((djb2Hash name).toNat % lockfile.hashTable.items.length)

def getPackageDeps (lockfile : Lockfile) (pkg : Package) : Except Fault (List Dependency) :=
  if pkg.depsCount = 0 then .ok []
  else if pkg.depsStart.toNat ≥ lockfile.dependencies.items.length then .ok []
  else if pkg.depsStart.toNat + pkg.depsCount.toNat ≥ 2^32 then .error .overflow
  else if pkg.depsStart.toNat + pkg.depsCount.toNat > lockfile.dependencies.items.length then .ok []
  else itemsBetween lockfile.dependencies.items pkg.depsStart.toNat
    (pkg.depsStart.toNat + pkg.depsCount.toNat)

/-- The loop shared by `getPackageBins` and `getPackageDisabledDependencies`: where the entries of
`index` start and stop, with `i` the position of the first entry that is left. -/
def runBounds {α : Type} (key : α → UInt32) (index : UInt32) :
    List α → Nat → Option Nat → Nat → Option Nat × Nat
  | [],_,start,stop => (start,stop)
  | entry :: rest,i,start,stop =>
    if key entry = index then runBounds key index rest (i+1) (start.or (some i)) (i+1)
    else if start.isSome then (start,stop)
    else runBounds key index rest (i+1) start stop

def entriesOf {α : Type} (key : α → UInt32) (index : UInt32) (items : List α) : Except Fault (List α) :=
  match runBounds key index items 0 none 0 with
  | (none,_) => .ok []
  | (some start,stop) => itemsBetween items start stop

def getPackageBins (lockfile : Lockfile) (index : UInt32) : Except Fault (List BinEntry) :=
  entriesOf (·.packageIndex) index lockfile.binEntries.items

def getPackageDisabledDependencies (lockfile : Lockfile) (index : UInt32) :
    Except Fault (List DisabledDependency) :=
  entriesOf (·.parentPackageIndex) index lockfile.disabledDependencies.items

def getRootDisabledDependencies (lockfile : Lockfile) : Except Fault (List DisabledDependency) :=
  lockfile.getPackageDisabledDependencies maxIndex

end Lockfile

end Ant.Pkg.LockfileReader
