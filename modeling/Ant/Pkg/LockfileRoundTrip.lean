import Ant.Library.Sorting
import Ant.Pkg.LockfileFile

/-! A serialized writer reopens with the content it was built with: the records in
order, the strings, the sorted side tables and the hashes of the header. -/
namespace Ant.Pkg.LockfileRoundTrip
open Library.ByteLayout Library.ByteString Library.Sorting LockfileFormat LockfileReader LockfileSerialize LockfileBuild LockfileFile List

variable {α : Type} {table : Bytes} {writer : LockfileWriter}

theorem memSort_perm (lessThan : α → α → Bool) (items : List α) : (memSort lessThan items).Perm items :=
  mergeSort_perm items _

theorem memSort_sorted {cmp : α → α → Ordering} [Std.TransCmp cmp] {lessThan : α → α → Bool}
    (same : ∀ a b, lessThan a b = (cmp a b == .lt)) (items : List α) :
    (memSort lessThan items).Pairwise fun a b => lessThan b a = false :=
  mergeSort_sorted cmp same

theorem binEntryLessThan_eq (a b : BinEntry) : binEntryLessThan table a b =
    (compareLex (compareOn (·.packageIndex)) (compareLex (compareOn (·.name.slice table))
      (compareOn (·.path.slice table))) a b == .lt) := by
  rw [← lexicographic_lt,compareLex,← then_lt]
  rfl

theorem disabledDependencyLessThan_eq (a b : DisabledDependency) :
    disabledDependencyLessThan table a b = (compareLex (compareOn (·.parentPackageIndex))
      (compareLex (compareOn (·.name.slice table)) (compareOn (·.constraint.slice table))) a b == .lt) := by
  rw [← lexicographic_lt,compareLex,← then_lt]
  rfl

theorem platformEntryLessThan_eq (a b : PlatformEntry) :
    platformEntryLessThan table a b = (compareLex (compareOn (·.packageIndex))
      (compareLex (compareOn (·.os.slice table)) (compareLex (compareOn (·.cpu.slice table))
        (compareOn (·.libc.slice table)))) a b == .lt) := by
  rw [← lexicographic_lt,compareLex,← then_lt,compareLex,← then_lt]
  rfl

private theorem index_le {index : α → UInt32} {rest : α → α → Ordering} {a b : α}
    (ordered : (compareLex (compareOn index) rest b a == .lt) = false) : index a ≤ index b := by
  rw [← lexicographic_lt] at ordered
  split at ordered
  next different => simpa using ordered
  next same =>
    have equal : index b = index a := by simpa using same
    rw [equal]
    exact UInt32.le_refl _

def InOrder (admitted : UInt32 → Prop) (indices : List UInt32) : Prop :=
  (∀ index ∈ indices, admitted index) ∧ indices.Pairwise (· ≤ ·)

theorem indicesInOrder_iff (admitted : UInt32 → Bool) (last : Option UInt32) (indices : List UInt32) :
    indicesInOrder admitted last indices = true ↔ InOrder (admitted · = true) indices ∧
      ∀ before ∈ last, ∀ index ∈ indices, before ≤ index := by
  induction indices generalizing last with
  | nil => simp [indicesInOrder,InOrder]
  | cons index rest ih =>
    have step : indicesInOrder admitted last (index :: rest) = true ↔
        admitted index = true ∧ (∀ before ∈ last, before ≤ index) ∧ indicesInOrder admitted (some index) rest = true := by
      cases last <;> simp [indicesInOrder]
    rw [step,ih]
    simp only [InOrder,forall_mem_cons,pairwise_cons,Option.mem_def,Option.some.injEq,forall_eq']
    constructor
    · intro ⟨first,above,⟨all,sorted⟩,least⟩
      exact ⟨⟨⟨first,all⟩,least,sorted⟩,fun before stored => ⟨above before stored,fun other member =>
        UInt32.le_trans (above before stored) (least other member)⟩⟩
    · intro ⟨⟨⟨first,all⟩,least,sorted⟩,above⟩
      exact ⟨first,fun before stored => (above before stored).1,⟨all,sorted⟩,least⟩

private theorem sorted_indices_ok {index : α → UInt32} {rest : α → α → Ordering}
    [Std.TransCmp (compareLex (compareOn index) rest)] {lessThan : α → α → Bool}
    (same : ∀ a b, lessThan a b = (compareLex (compareOn index) rest a b == .lt)) {items : List α}
    {admitted : UInt32 → Bool} (all : ∀ item ∈ items, admitted (index item) = true) :
    indicesInOrder admitted none ((memSort lessThan items).map index) = true := by
  refine (indicesInOrder_iff _ _ _).mpr ⟨⟨?_,?_⟩,by simp⟩
  · intro value member
    obtain ⟨item,sorted,rfl⟩ := mem_map.mp member
    exact all item ((memSort_perm lessThan items).mem_iff.mp sorted)
  · rw [pairwise_map]
    refine (memSort_sorted same items).imp fun {a b} ordered => ?_
    rw [same] at ordered
    exact index_le ordered

/-- The package indices of the side tables are those of added packages, or the root for a disabled
dependency: the resolver passes on what `addPackage` returned. -/
structure Indexed (commands : List Command) : Prop where
  bins : ∀ bin ∈ commands.filterMap Command.bin?,
    bin.1.toNat < (commands.filterMap Command.package?).length
  disabled : ∀ dep ∈ commands.filterMap Command.disabled?,
    dep.1 = maxIndex ∨ dep.1.toNat < (commands.filterMap Command.package?).length
  platform : ∀ entry ∈ commands.filterMap Command.platform?,
    entry.1.toNat < (commands.filterMap Command.package?).length

structure Reopened (commands : List Command) (writer : LockfileWriter) (serialized : Serialized)
    (lockfile : Lockfile) : Prop where
  packages : lockfile.packages.items = commands.filterMap Command.package?
  dependencies : lockfile.dependencies.items = commands.filterMap Command.dependency?
  stringTable : lockfile.stringTable = writer.stringBuilder
  strings : ∀ text ref, writer.stringOffsets.lookup text = some ref → ref.slice lockfile.stringTable = text
  bins : (lockfile.binEntries.items.map (binText lockfile.stringTable)).Perm (commands.filterMap Command.bin?)
  binsSorted : lockfile.binEntries.items.Pairwise fun a b => binEntryLessThan lockfile.stringTable b a = false
  disabled : (lockfile.disabledDependencies.items.map (disabledText lockfile.stringTable)).Perm
    (commands.filterMap Command.disabled?)
  disabledSorted : lockfile.disabledDependencies.items.Pairwise fun a b =>
    disabledDependencyLessThan lockfile.stringTable b a = false
  platform : (lockfile.platformEntries.items.map (platformText lockfile.stringTable)).Perm
    (commands.filterMap Command.platform?)
  platformSorted : lockfile.platformEntries.items.Pairwise fun a b =>
    platformEntryLessThan lockfile.stringTable b a = false
  graphHash : lockfile.header.graphHash = serialized.graphHash
  resolutionHash : lockfile.header.resolutionHash = writer.resolutionHash

private theorem index_admitted (index count : UInt32) (length : Nat) (counted : count.toNat = length)
    (bound : index.toNat < length) : decide (index < count) = true := by
  rw [decide_eq_true_eq,UInt32.lt_iff_toNat_lt]
  omega

private theorem sorted_valid {commands : List Command} {offsets : Offsets} (built : Built commands writer)
    (indexed : Indexed commands) (counted : offsets.packageCount.toNat = writer.packages.length) :
    validateSideTables offsets.packageCount (sortSideTables writer).binEntries
      (sortSideTables writer).disabledDependencies (sortSideTables writer).platformEntries = true := by
  rw [built.packages] at counted
  simp only [validateSideTables,Bool.and_eq_true]
  refine ⟨⟨?_,?_⟩,?_⟩
  · refine sorted_indices_ok binEntryLessThan_eq fun entry member => ?_
    have added : binText writer.stringBuilder entry ∈ commands.filterMap Command.bin? := by
      rw [← built.bin_texts]
      exact mem_map_of_mem member
    exact index_admitted _ _ _ counted (indexed.bins _ added)
  · refine sorted_indices_ok disabledDependencyLessThan_eq fun entry member => ?_
    have added : disabledText writer.stringBuilder entry ∈ commands.filterMap Command.disabled? := by
      rw [← built.disabled_texts]
      exact mem_map_of_mem member
    rcases indexed.disabled _ added with root | bound
    · have isRoot : entry.parentPackageIndex = maxIndex := root
      simp [isRoot]
    · rw [index_admitted entry.parentPackageIndex _ _ counted bound,Bool.or_true]
  · refine sorted_indices_ok platformEntryLessThan_eq fun entry member => ?_
    have added : platformText writer.stringBuilder entry ∈ commands.filterMap Command.platform? := by
      rw [← built.platform_texts]
      exact mem_map_of_mem member
    exact index_admitted _ _ _ counted (indexed.platform _ added)

private theorem sorted_fits {target : Target} (fits : Fits target writer) : Fits target (sortSideTables writer) := by
  have bins := (memSort_perm (binEntryLessThan writer.stringBuilder) writer.binEntries).length_eq
  have disabled :=
    (memSort_perm (disabledDependencyLessThan writer.stringBuilder) writer.disabledDependencies).length_eq
  have platform := (memSort_perm (platformEntryLessThan writer.stringBuilder) writer.platformEntries).length_eq
  obtain ⟨offsets,counted,mapped⟩ := fits
  refine ⟨?_,?_,?_⟩
  all_goals
    simp only [sortSideTables,fileLength,platformStart,disabledStart,bins,disabled,platform]
    assumption

/-- For a writer built by any commands whose indices are those of added packages, and whose sections
fit, `serialize` succeeds and `initFromData` gives back what was added. -/
theorem serialize_reopens (env : Env) (target : Target) (owned : Bool) (commands : List Command)
    (writer : LockfileWriter) (ok : build commands = .ok writer) (indexed : Indexed commands) (fits : Fits target writer) :
    ∃ serialized lockfile, serialize env writer = .ok serialized ∧
      initFrom owned target serialized.data = .ok lockfile ∧ Reopened commands writer serialized lockfile := by
  have built := build_built ok
  have sortedFits := sorted_fits fits
  obtain ⟨offsets,offsetsOk,described⟩ :=
    sectionOffsets_ok sortedFits.offsets sortedFits.platformEntries
  have room : writer.packages.length ≤ hashSize (sortSideTables writer) := by
    change writer.packages.length ≤ max 1 (writer.packages.length * 10 / 7)
    omega
  have small : writer.packages.length ≤ 2^32 := by
    have bound := fits.offsets
    simp only [platformStart,disabledStart,binStart,hashStart,dependencyStart] at bound
    omega
  obtain ⟨table,filled,sized⟩ := fillHashTable_ok writer.stringBuilder writer.packages 0
    (List.replicate offsets.hashTableSize.toNat .empty) (by omega)
    (by rw [emptyTable_inUse,length_replicate,described.hashTableSize]; omega)
  rw [length_replicate,described.hashTableSize] at sized
  obtain ⟨lockfile,opened,header,strings,packages,dependencies,_,bins,disabled,platform⟩ :=
    initFrom_fileBytes env target (sortSideTables writer) offsets described sortedFits owned sized
      (sorted_valid built indexed described.packageCount)
  refine ⟨⟨_,computeGraphHash env (sortSideTables writer)⟩,lockfile,?_,opened,?_⟩
  · have tableOk : fillHashTable (sortSideTables writer).stringBuilder (sortSideTables writer).packages 0
        (List.replicate offsets.hashTableSize.toNat .empty) = .ok table := filled
    simp only [serialize,offsetsOk,tableOk,bind,Except.bind,Except.pure]
    rfl
  have sameStrings : lockfile.stringTable = writer.stringBuilder := strings
  refine ⟨packages.trans built.packages,dependencies.trans built.dependencies,sameStrings,?_,?_,?_,?_,?_,?_,?_,?_,?_⟩
  · intro text ref found
    rw [sameStrings]
    exact (built.strings text ref found).slice
  · rw [bins,sameStrings,← built.bin_texts]
    exact (memSort_perm _ _).map _
  · rw [bins,sameStrings]
    exact memSort_sorted binEntryLessThan_eq _
  · rw [disabled,sameStrings,← built.disabled_texts]
    exact (memSort_perm _ _).map _
  · rw [disabled,sameStrings]
    exact memSort_sorted disabledDependencyLessThan_eq _
  · rw [platform,sameStrings,← built.platform_texts]
    exact (memSort_perm _ _).map _
  · rw [platform,sameStrings]
    exact memSort_sorted platformEntryLessThan_eq _
  · rw [header]
    rfl
  · rw [header]
    rfl

def sampleEnv : Env := ⟨fun bytes => UInt64.ofNat bytes.length,ascii "linux",ascii "x86_64",ascii "gnu"⟩

def samplePackage : Package where
  name := ⟨0,1⟩
  versionMajor := 1
  versionMinor := 2
  versionPatch := 3
  prerelease := .empty
  integrity := Vector.replicate 64 7
  tarballUrl := .empty
  parentPath := .empty
  depsStart := 0
  depsCount := 1
  flags := {}

def sampleCommands : List Command :=
  [.internString (ascii "a"),.addPackage samplePackage,.addDependency { packageIndex := 0, constraint := ⟨0,1⟩ },
    .addBinEntry 0 (ascii "b") (ascii "b.js"),.addBinEntry 0 (ascii "a") (ascii "a.js"),
    .addDisabledDependency maxIndex (ascii "x") (ascii "*"),
    .addPlatformEntry 0 (some (ascii "linux")) none none,.setResolutionHash 5]

theorem serialize_reopens_sample : ∃ writer, build sampleCommands = .ok writer ∧
    ∃ serialized lockfile, serialize sampleEnv writer = .ok serialized ∧
      initFrom false .bits64 serialized.data = .ok lockfile ∧ Reopened sampleCommands writer serialized lockfile := by
  refine ⟨_,rfl,serialize_reopens sampleEnv .bits64 false sampleCommands _ rfl ?_ ?_⟩
  · exact ⟨by decide,by decide,by decide⟩
  · exact ⟨by decide,by decide,by decide⟩

def SizesFit (writer : LockfileWriter) : Prop :=
  writer.stringBuilder.length < 2^32 ∧ writer.packages.length * 136 < 2^32 ∧
  writer.dependencies.length * 16 < 2^32 ∧ hashSize writer * 8 < 2^32 ∧ writer.binEntries.length * 20 < 2^32 ∧
  writer.disabledDependencies.length * 20 < 2^32 ∧ writer.platformEntries.length * 28 < 2^32

set_option maxRecDepth 8000 in
private theorem unindexed_refused : ∃ commands writer serialized, build commands = .ok writer ∧
    SizesFit writer ∧ serialize sampleEnv writer = .ok serialized ∧
    initFromData .bits64 serialized.data = .error .invalidLockfile := by
  obtain ⟨writer,built⟩ : ∃ writer, build [.addBinEntry 0 (ascii "b") (ascii "c")] = .ok writer := ⟨_,rfl⟩
  have sorted : sortSideTables writer = writer := by
    cases built
    simp [sortSideTables,memSort]
  have fits : SizesFit writer := by
    cases built
    unfold SizesFit
    decide
  have refused : ∃ serialized, serialize sampleEnv writer = .ok serialized ∧
      initFromData .bits64 serialized.data = .error .invalidLockfile := by
    unfold serialize
    rw [sorted]
    cases built
    exact ⟨_,rfl,rfl⟩
  obtain ⟨serialized,written,rejected⟩ := refused
  exact ⟨_,writer,serialized,built,fits,written,rejected⟩

private theorem offsets_overflow : ∃ commands writer, build commands = .ok writer ∧ Indexed commands ∧
    SizesFit writer ∧ serialize sampleEnv writer = .error .overflow := by
  obtain ⟨text,length⟩ : ∃ text : Bytes, text.length = 2^32 - 1 :=
    ⟨List.replicate (2^32 - 1) 97,length_replicate⟩
  let writer : LockfileWriter := {
    stringBuilder := text
    stringOffsets := (∅ : AList _).insert text ⟨0,UInt32.ofNat text.length⟩ }
  have sorted : sortSideTables writer = writer := by simp [writer,sortSideTables,memSort]
  have overflow : u32 (alignUp (Header.layout.size + (UInt32.ofNat text.length).toNat) 8) = .error .overflow := by
    rw [length]
    rfl
  have strings : u32 writer.stringBuilder.length = .ok (UInt32.ofNat text.length) := if_pos (by simp [writer,length])
  refine ⟨[.internString text],writer,?_,?_,?_,?_⟩
  · simp [writer,build,perform,internString,length,Except.map]
  · constructor <;> simp [Command.bin?,Command.disabled?,Command.platform?]
  · simp [SizesFit,writer,length,hashSize]
  · unfold serialize
    rw [sorted]
    simp only [sectionOffsets,strings,overflow,bind,Except.bind]

/-- Neither condition can be left out: an index outside the packages is written but refused when it is
read, and sections that fit one by one need not have offsets that do. -/
theorem serialize_needs_indices_and_offsets : (∃ commands writer serialized, build commands = .ok writer ∧ SizesFit writer ∧
      serialize sampleEnv writer = .ok serialized ∧ initFromData .bits64 serialized.data = .error .invalidLockfile) ∧
    ∃ commands writer, build commands = .ok writer ∧ Indexed commands ∧ SizesFit writer ∧
      serialize sampleEnv writer = .error .overflow :=
  ⟨unindexed_refused,offsets_overflow⟩

end Ant.Pkg.LockfileRoundTrip
