import Mathlib.Data.List.GetD
import Mathlib.Tactic.Convert
import Ant.Pkg.LockfileBuild
import Ant.Pkg.LockfileReader

/-! The file that `serialize` writes and what the reader finds in it. The writer and
the reader compute the section offsets independently; both are compared with one
description of the file in natural numbers. -/
namespace Ant.Pkg.LockfileFile
open Library.ByteLayout Library.Probe LockfileFormat LockfileReader LockfileSerialize LockfileBuild List

def packageStart (writer : LockfileWriter) : Nat := alignUp (88 + writer.stringBuilder.length) 8
def dependencyStart (writer : LockfileWriter) : Nat := packageStart writer + writer.packages.length * 136
def hashStart (writer : LockfileWriter) : Nat := dependencyStart writer + writer.dependencies.length * 16
def hashSize (writer : LockfileWriter) : Nat := max 1 (writer.packages.length * 10 / 7)
def binStart (writer : LockfileWriter) : Nat := hashStart writer + hashSize writer * 8
def disabledStart (writer : LockfileWriter) : Nat := binStart writer + writer.binEntries.length * 20
def platformStart (writer : LockfileWriter) : Nat :=
  disabledStart writer + writer.disabledDependencies.length * 20
def fileLength (writer : LockfileWriter) : Nat := platformStart writer + writer.platformEntries.length * 28

/-- Every section starts within `u32`, its entries can be counted in `u32`, and the file can be mapped. -/
structure Fits (target : Target) (writer : LockfileWriter) : Prop where
  offsets : platformStart writer < 2^32
  platformEntries : writer.platformEntries.length < 2^32
  mapped : fileLength writer < 2^target.usizeBits

structure Described (writer : LockfileWriter) (offsets : Offsets) : Prop where
  stringTableSize : offsets.stringTableSize.toNat = writer.stringBuilder.length
  packageArrayOffset : offsets.packageArrayOffset.toNat = packageStart writer
  dependencyArrayOffset : offsets.dependencyArrayOffset.toNat = dependencyStart writer
  hashTableSize : offsets.hashTableSize.toNat = hashSize writer
  hashTableOffset : offsets.hashTableOffset.toNat = hashStart writer
  binEntryOffset : offsets.binEntryOffset.toNat = binStart writer
  disabledOffset : offsets.disabledOffset.toNat = disabledStart writer
  platformEntryOffset : offsets.platformEntryOffset.toNat = platformStart writer
  packageCount : offsets.packageCount.toNat = writer.packages.length
  dependencyCount : offsets.dependencyCount.toNat = writer.dependencies.length
  binEntryCount : offsets.binEntryCount.toNat = writer.binEntries.length
  disabledDependencyCount : offsets.disabledDependencyCount.toNat = writer.disabledDependencies.length
  platformEntryCount : offsets.platformEntryCount.toNat = writer.platformEntries.length

theorem sections_follow (writer : LockfileWriter) :
    8 ∣ packageStart writer ∧ 88 + writer.stringBuilder.length ≤ packageStart writer ∧
    packageStart writer + writer.packages.length * 136 = dependencyStart writer ∧
    dependencyStart writer + writer.dependencies.length * 16 = hashStart writer ∧
    hashStart writer + hashSize writer * 8 = binStart writer ∧
    binStart writer + writer.binEntries.length * 20 = disabledStart writer ∧
    disabledStart writer + writer.disabledDependencies.length * 20 = platformStart writer ∧
    platformStart writer + writer.platformEntries.length * 28 = fileLength writer :=
  ⟨alignUp_dvd (by omega),le_alignUp,rfl,rfl,rfl,rfl,rfl,rfl⟩

theorem u32_ok {value : Nat} (bound : value < 2^32) : u32 value = .ok (UInt32.ofNat value) := if_pos bound

variable {writer : LockfileWriter} {table : List HashBucket} {offset count : UInt32}

theorem sectionOffsets_ok (inRange : platformStart writer < 2^32) (countable : writer.platformEntries.length < 2^32) :
    ∃ offsets, sectionOffsets writer = .ok offsets ∧ Described writer offsets := by
  have chain := sections_follow writer
  have packagesAt : alignUp (88 + writer.stringBuilder.length) 8 = packageStart writer := rfl
  have sizeAt : max 1 (writer.packages.length * 10 / 7) = hashSize writer := rfl
  have sectionAt {start count size stop : Nat} (ends : start + count * size = stop) (aligned : 4 ∣ stop) :
      alignUp (start + count * size) 4 = stop := by
    rw [ends,alignUp_of_dvd aligned]
  have dependenciesAt := sectionAt chain.2.2.1 (by omega)
  have hashAt := sectionAt chain.2.2.2.1 (by omega)
  have binsAt := sectionAt chain.2.2.2.2.1 (by omega)
  have disabledAt := sectionAt chain.2.2.2.2.2.1 (by omega)
  have platformAt := sectionAt chain.2.2.2.2.2.2.1 (by omega)
  simp (disch := omega) only [sectionOffsets,Header.layout_size,Package.layout_size,Dependency.layout_size,
    HashBucket.layout_size,BinEntry.layout_size,DisabledDependency.layout_size,u32_ok,toNat_ofNat,packagesAt,sizeAt,
    dependenciesAt,hashAt,binsAt,disabledAt,platformAt,bind,Except.bind,pure,Except.pure]
  refine ⟨_,rfl,?_⟩
  constructor <;> exact toNat_ofNat (by omega)

def inUse (table : List HashBucket) : Nat := table.countP fun bucket => bucket.packageIndex != maxIndex

private theorem exists_free (room : inUse table < table.length) : ∃ index < table.length, bucketFree table index = true := by
  by_contra full
  have all : ∀ bucket ∈ table, (bucket.packageIndex != maxIndex) = true := by
    intro bucket member
    obtain ⟨index,inside,found⟩ := mem_iff_getElem.mp member
    by_contra free
    refine full ⟨index,inside,?_⟩
    rw [bucketFree,getD_eq_getElem _ _ inside,found]
    simpa using free
  have count := countP_eq_length.mpr all
  unfold inUse at room
  omega

theorem insertBucket_ok (table : List HashBucket) (hash packageIndex : UInt32) (room : inUse table < table.length) :
    ∃ next, insertBucket table hash packageIndex = .ok next ∧ next.length = table.length ∧ inUse next ≤ inUse table + 1 := by
  obtain ⟨free,inside,isFree⟩ := exists_free room
  have home := Nat.mod_lt hash.toNat (Nat.zero_lt_of_lt inside)
  obtain ⟨found,search⟩ := findFree_isSome home inside isFree
  refine ⟨table.set found ⟨hash,packageIndex⟩,by simp only [insertBucket,search],by simp,?_⟩
  rcases Nat.lt_or_ge found table.length with within | outside
  · unfold inUse
    rw [countP_set within]
    split <;> split <;> omega
  · rw [set_eq_of_length_le outside]
    omega

theorem fillHashTable_ok (strings : Bytes) (packages : List Package) (i : Nat) (table : List HashBucket)
    (countable : i + packages.length ≤ 2^32) (room : inUse table + packages.length ≤ table.length) :
    ∃ filled, fillHashTable strings packages i table = .ok filled ∧ filled.length = table.length := by
  induction packages generalizing i table with
  | nil => exact ⟨table,rfl,rfl⟩
  | cons pkg rest ih =>
    simp only [length_cons] at countable room
    obtain ⟨next,inserted,length,used⟩ :=
      insertBucket_ok table (djb2Hash (pkg.name.slice strings)) (UInt32.ofNat i) (by omega)
    obtain ⟨filled,ok,same⟩ := ih (i+1) next (by omega) (by omega)
    refine ⟨filled,?_,same.trans length⟩
    simp only [fillHashTable,u32_ok (show i < 2^32 by omega),inserted,bind,Except.bind,ok]

theorem emptyTable_inUse (size : Nat) : inUse (List.replicate size .empty) = 0 := by
  simp [inUse,HashBucket.empty]

private theorem padding_exact {before : Nat} (exact : offset.toNat = before) : padding offset before = [] := by
  simp [padding,exact]

theorem fileBytes_eq (header : Header) {offsets : Offsets} (described : Described writer offsets)
    (sized : table.length = hashSize writer) : fileBytes header offsets table writer =
      Header.layout.encode header ++ (writer.stringBuilder ++
      (List.replicate (packageStart writer - (88 + writer.stringBuilder.length)) 0 ++
      (Package.layout.encodeAll writer.packages ++ (Dependency.layout.encodeAll writer.dependencies ++
      (HashBucket.layout.encodeAll table ++ (BinEntry.layout.encodeAll writer.binEntries ++
      (DisabledDependency.layout.encodeAll writer.disabledDependencies ++
      PlatformEntry.layout.encodeAll writer.platformEntries))))))) := by
  have chain := sections_follow writer
  obtain ⟨strings,packages,dependencies,-,hash,bins,disabled,platform,-⟩ := described
  have first : padding offsets.packageArrayOffset (88 + offsets.stringTableSize.toNat) =
      List.replicate (packageStart writer - (88 + writer.stringBuilder.length)) 0 := by
    rw [padding,packages,strings]
  simp (disch := omega) only [fileBytes,first,padding_exact,ite_self,nil_append]

def Stored {α : Type} (layout : Layout α) (values : List α) (offset : Nat) (data : Bytes) : Prop :=
  ∃ before rest, data = before ++ (layout.encodeAll values ++ rest) ∧ before.length = offset

section
variable {α : Type} {offset : Nat} {data : Bytes} {offsets : Offsets} {table : List HashBucket} {writer : LockfileWriter}

theorem Stored.read {layout : Layout α} {values : List α} (stored : Stored layout values offset data) :
    Section.read layout data offset values.length = ⟨some offset,values⟩ := by
  obtain ⟨before,rest,rfl,position⟩ := stored
  rw [Section.read,layout.decodeAll_at values rest position]

theorem Stored.first (layout : Layout α) (values : List α) (rest : Bytes) :
    Stored layout values 0 (layout.encodeAll values ++ rest) := ⟨[],rest,rfl,rfl⟩

theorem Stored.after {layout : Layout α} {values : List α} (stored : Stored layout values offset data) (front : Bytes) :
    Stored layout values (front.length + offset) (front ++ data) := by
  obtain ⟨before,rest,rfl,rfl⟩ := stored
  exact ⟨front ++ before,rest,by rw [append_assoc],by rw [length_append]⟩

theorem Stored.afterAll {α β : Type} {layout : Layout α} {values : List α} (stored : Stored layout values offset data)
    (other : Layout β) (items : List β) :
    Stored layout values (items.length * other.size + offset) (other.encodeAll items ++ data) := by
  rw [← other.encodeAll_length items]
  exact stored.after _

section
variable (header : Header) (described : Described writer offsets) (sized : table.length = hashSize writer)
include header described sized

theorem fileBytes_stored : Header.layout.decode (fileBytes header offsets table writer) = header ∧
    ((fileBytes header offsets table writer).drop 88).take writer.stringBuilder.length = writer.stringBuilder ∧
    Stored Package.layout writer.packages (packageStart writer) (fileBytes header offsets table writer) ∧
    Stored Dependency.layout writer.dependencies (dependencyStart writer) (fileBytes header offsets table writer) ∧
    Stored HashBucket.layout table (hashStart writer) (fileBytes header offsets table writer) ∧
    Stored BinEntry.layout writer.binEntries (binStart writer) (fileBytes header offsets table writer) ∧
    Stored DisabledDependency.layout writer.disabledDependencies (disabledStart writer)
      (fileBytes header offsets table writer) ∧ Stored PlatformEntry.layout writer.platformEntries (platformStart writer)
      (fileBytes header offsets table writer) := by
  rw [fileBytes_eq header described sized]
  have headerLength : (Header.layout.encode header).length = 88 := Header.layout.encode_length header
  have chain := sections_follow writer
  -- every array after the padding is found behind the arrays that precede it, then behind the front
  have front {α : Type} {layout : Layout α} {values : List α} {offset start : Nat} {data : Bytes}
      (stored : Stored layout values offset data) (place : packageStart writer + offset = start) :
      Stored layout values start (Header.layout.encode header ++ (writer.stringBuilder ++
        (List.replicate (packageStart writer - (88 + writer.stringBuilder.length)) 0 ++ data))) := by
    have placed := ((stored.after (List.replicate (packageStart writer - (88 + writer.stringBuilder.length)) 0)).after
      writer.stringBuilder).after (Header.layout.encode header)
    rw [length_replicate] at placed
    convert placed using 1
    omega
  refine ⟨Header.layout.decode_encode header _,?_,?_,?_,?_,?_,?_,?_⟩
  · rw [← headerLength,drop_left,take_left]
  · exact front (.first Package.layout writer.packages _) rfl
  · exact front ((Stored.first Dependency.layout writer.dependencies _).afterAll Package.layout writer.packages) rfl
  · refine front (((Stored.first HashBucket.layout table _).afterAll Dependency.layout writer.dependencies).afterAll
      Package.layout writer.packages) ?_
    simp only [Package.layout_size,Dependency.layout_size]
    omega
  · refine front ((((Stored.first BinEntry.layout writer.binEntries _).afterAll HashBucket.layout table).afterAll
      Dependency.layout writer.dependencies).afterAll Package.layout writer.packages) ?_
    simp only [Package.layout_size,Dependency.layout_size,HashBucket.layout_size]
    omega
  · refine front (((((Stored.first DisabledDependency.layout writer.disabledDependencies _).afterAll
      BinEntry.layout writer.binEntries).afterAll HashBucket.layout table).afterAll
      Dependency.layout writer.dependencies).afterAll Package.layout writer.packages) ?_
    simp only [Package.layout_size,Dependency.layout_size,HashBucket.layout_size,BinEntry.layout_size]
    omega
  · have last := Stored.first PlatformEntry.layout writer.platformEntries []
    rw [append_nil] at last
    refine front (((((last.afterAll DisabledDependency.layout writer.disabledDependencies).afterAll
      BinEntry.layout writer.binEntries).afterAll HashBucket.layout table).afterAll
      Dependency.layout writer.dependencies).afterAll Package.layout writer.packages) ?_
    simp only [Package.layout_size,Dependency.layout_size,HashBucket.layout_size,BinEntry.layout_size,
      DisabledDependency.layout_size]
    omega

theorem fileBytes_length : (fileBytes header offsets table writer).length = fileLength writer := by
  have chain := sections_follow writer
  rw [fileBytes_eq header described sized]
  simp only [length_append,length_replicate,Layout.encode_length,Layout.encodeAll_length,
    Header.layout_size,Package.layout_size,Dependency.layout_size,HashBucket.layout_size,BinEntry.layout_size,
    DisabledDependency.layout_size,PlatformEntry.layout_size]
  omega

end

end

theorem sectionEnd_of_le {target : Target} {dataLen : Nat} {elemSize : Nat}
    (inside : offset.toNat + count.toNat * elemSize ≤ dataLen) (mapped : dataLen < 2^target.usizeBits) :
    sectionEnd target dataLen offset count elemSize = some (offset.toNat + count.toNat * elemSize) := by
  have product : target.mul count.toNat elemSize = some (count.toNat * elemSize) := if_pos (by omega)
  simp only [sectionEnd,product]
  exact if_neg (by omega)

section Reopen

variable (env : Env) (target : Target) (writer : LockfileWriter) (offsets : Offsets)
  (described : Described writer offsets) (fits : Fits target writer)
include described fits

omit described in
private theorem section_accepted {start length : Nat} (size : Nat) (position : offset.toNat = start)
    (counted : count.toNat = length) (inside : start + length * size ≤ fileLength writer) :
    sectionEnd target (fileLength writer) offset count size = some (start + length * size) := by
  subst position counted
  exact sectionEnd_of_le inside fits.mapped

private theorem core_accepted : coreSectionsFit target (fileLength writer) (headerOf env writer offsets) = true := by
  have chain := sections_follow writer
  have strings := section_accepted target writer fits 1 (show (88 : UInt32).toNat = 88 from rfl) described.stringTableSize (by omega)
  have packages := section_accepted target writer fits 136 described.packageArrayOffset described.packageCount (by omega)
  have dependencies := section_accepted target writer fits 16 described.dependencyArrayOffset described.dependencyCount
    (by omega)
  simp [coreSectionsFit,headerOf,strings,packages,dependencies]

private theorem hash_accepted : sectionEnd target (fileLength writer) offsets.hashTableOffset offsets.hashTableSize
    8 = some (binStart writer) := by
  have chain := sections_follow writer
  exact section_accepted target writer fits 8 described.hashTableOffset described.hashTableSize (by omega)

private theorem bin_end : sectionEnd target (fileLength writer) offsets.binEntryOffset offsets.binEntryCount 20 =
    some (disabledStart writer) := by
  have chain := sections_follow writer
  exact section_accepted target writer fits 20 described.binEntryOffset described.binEntryCount (by omega)

private theorem bins_accepted :
    binSectionFits target (fileLength writer) (binStart writer) (headerOf env writer offsets) = true := by
  have ends := bin_end target writer offsets described fits
  have chain := sections_follow writer
  have within : binStart writer ≤ fileLength writer := by omega
  unfold binSectionFits
  simp only [headerOf,BinEntry.layout_size,ends,described.binEntryOffset]
  split
  next => simp
  next => simp [within]

private theorem platform_accepted : platformSectionFits target (fileLength writer) (headerOf env writer offsets) = true := by
  have ends := section_accepted target writer fits 28 described.platformEntryOffset described.platformEntryCount (le_refl _)
  simp [platformSectionFits,headerOf,ends]

private theorem disabledOffset_eq : disabledSectionOffset target (fileLength writer) (headerOf env writer offsets) =
    some (disabledStart writer) := by
  have chain := sections_follow writer
  have stored : offsets.binEntryOffset ≠ 0 := by
    intro zero
    have position := described.binEntryOffset
    rw [zero] at position
    change 0 = _ at position
    omega
  have ends := bin_end target writer offsets described fits
  have aligned : 4 ∣ disabledStart writer := by omega
  simp [disabledSectionOffset,headerOf,stored,ends,alignUp_of_dvd aligned]

private theorem platformOffset_eq : platformSectionOffset target (fileLength writer) (headerOf env writer offsets) =
    some (platformStart writer) := by
  have start := disabledOffset_eq env target writer offsets described fits
  have mapped := fits.mapped
  have chain := sections_follow writer
  have product : target.mul offsets.disabledDependencyCount.toNat 20 =
      some (writer.disabledDependencies.length * 20) := by
    rw [described.disabledDependencyCount]
    exact if_pos (by omega)
  have aligned : 4 ∣ platformStart writer := by omega
  have ends : alignUp (disabledStart writer + writer.disabledDependencies.length * 20) 4 = platformStart writer :=
    alignUp_of_dvd aligned
  simp only [platformSectionOffset,start]
  simp [headerOf,product,ends]

omit described fits in
private theorem items_none {α : Type} {items : List α} (counted : count.toNat = items.length) (zero : count = 0) :
    [] = items := by
  rw [zero] at counted
  exact (length_eq_zero_iff.mp counted.symm).symm

private theorem disabled_read (data : Bytes) (length : data.length = fileLength writer)
    (stored : Stored DisabledDependency.layout writer.disabledDependencies (disabledStart writer) data) :
    ∃ part, disabledDependenciesFromData target data (headerOf env writer offsets) = some part ∧
      part.items = writer.disabledDependencies := by
  have start := disabledOffset_eq env target writer offsets described fits
  have mapped := fits.mapped
  have chain := sections_follow writer
  have count := described.disabledDependencyCount
  unfold disabledDependenciesFromData
  split
  next zero => exact ⟨.static,rfl,items_none count zero⟩
  next =>
    have product : target.mul writer.disabledDependencies.length 20 =
        some (writer.disabledDependencies.length * 20) := if_pos (by omega)
    refine ⟨⟨some (disabledStart writer),writer.disabledDependencies⟩,?_,rfl⟩
    rw [length,start]
    simp only [headerOf,DisabledDependency.layout_size,product,count,stored.read]
    exact if_neg (by omega)

private theorem platform_read (data : Bytes) (length : data.length = fileLength writer)
    (stored : Stored PlatformEntry.layout writer.platformEntries (platformStart writer) data) :
    ∃ part, platformEntriesFromData target data (headerOf env writer offsets) = some part ∧
      part.items = writer.platformEntries := by
  have start := platformOffset_eq env target writer offsets described fits
  have mapped := fits.mapped
  have chain := sections_follow writer
  have count := described.platformEntryCount
  unfold platformEntriesFromData
  split
  next zero => exact ⟨.static,rfl,items_none count zero⟩
  next =>
    have product : target.mul writer.platformEntries.length 28 = some (writer.platformEntries.length * 28) :=
      if_pos (by omega)
    have stated : (headerOf env writer offsets).platformEntryOffset.toNat = platformStart writer :=
      described.platformEntryOffset
    have counted : (headerOf env writer offsets).platformEntryCount.toNat = writer.platformEntries.length := count
    refine ⟨⟨some (platformStart writer),writer.platformEntries⟩,?_,rfl⟩
    rw [length,start]
    simp only [PlatformEntry.layout_size,stated,ite_self,counted,lt_irrefl,if_false,product,stored.read]
    exact if_neg (by omega)

omit fits in
private theorem bins_read {data : Bytes} (stored : Stored BinEntry.layout writer.binEntries (binStart writer) data) :
    (binEntriesFromData data (headerOf env writer offsets)).items = writer.binEntries := by
  have count := described.binEntryCount
  unfold binEntriesFromData
  split
  next => simp only [headerOf,described.binEntryOffset,count,stored.read]
  next none => exact items_none count (by simpa [headerOf] using none)

theorem initFrom_fileBytes (owned : Bool) (sized : table.length = hashSize writer)
    (valid : validateSideTables offsets.packageCount writer.binEntries writer.disabledDependencies writer.platformEntries = true) :
    ∃ lockfile, initFrom owned target (fileBytes (headerOf env writer offsets) offsets table writer) = .ok lockfile ∧
      lockfile.header = headerOf env writer offsets ∧ lockfile.stringTable = writer.stringBuilder ∧
      lockfile.packages.items = writer.packages ∧ lockfile.dependencies.items = writer.dependencies ∧
      lockfile.hashTable.items = table ∧ lockfile.binEntries.items = writer.binEntries ∧
      lockfile.disabledDependencies.items = writer.disabledDependencies ∧
      lockfile.platformEntries.items = writer.platformEntries := by
  obtain ⟨decoded,strings,packages,dependencies,buckets,bins,disabled,platform⟩ :=
    fileBytes_stored (headerOf env writer offsets) described sized
  have length := fileBytes_length (headerOf env writer offsets) described sized
  generalize fileBytes (headerOf env writer offsets) offsets table writer = data at *
  have chain := sections_follow writer
  have long : ¬ data.length < 88 := by omega
  have core := core_accepted env target writer offsets described fits
  have hash := hash_accepted target writer offsets described fits
  have binsFit := bins_accepted env target writer offsets described fits
  have platformFits := platform_accepted env target writer offsets described fits
  obtain ⟨disabledPart,disabledRead,disabledItems⟩ :=
    disabled_read env target writer offsets described fits data length disabled
  obtain ⟨platformPart,platformRead,platformItems⟩ :=
    platform_read env target writer offsets described fits data length platform
  have binItems := bins_read env writer offsets described bins
  have validated : validateSideTables (headerOf env writer offsets).packageCount
      (binEntriesFromData data (headerOf env writer offsets)).items disabledPart.items platformPart.items = true := by
    rw [binItems,disabledItems,platformItems]
    exact valid
  have hashFits : sectionEnd target data.length (headerOf env writer offsets).hashTableOffset
      (headerOf env writer offsets).hashTableSize HashBucket.layout.size = some (binStart writer) := by
    rw [length]
    exact hash
  rw [← length] at core binsFit platformFits
  simp only [initFrom,decoded,Header.layout_size,if_neg long,core,hashFits,binsFit,platformFits,disabledRead,
    platformRead,validated,if_false]
  refine ⟨_,rfl,rfl,?_,?_,?_,?_,binItems,disabledItems,platformItems⟩
  · change (data.drop 88).take offsets.stringTableSize.toNat = writer.stringBuilder
    rw [described.stringTableSize]
    exact strings
  · change (Section.read Package.layout data offsets.packageArrayOffset.toNat offsets.packageCount.toNat).items = _
    rw [described.packageArrayOffset,described.packageCount,packages.read]
  · change (Section.read Dependency.layout data offsets.dependencyArrayOffset.toNat
      offsets.dependencyCount.toNat).items = _
    rw [described.dependencyArrayOffset,described.dependencyCount,dependencies.read]
  · change (Section.read HashBucket.layout data offsets.hashTableOffset.toNat offsets.hashTableSize.toNat).items = _
    rw [described.hashTableOffset,described.hashTableSize,← sized,buckets.read]

end Reopen

end Ant.Pkg.LockfileFile
