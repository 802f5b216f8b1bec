import Ant.Pkg.LockfileRoundTrip
import Ant.Pkg.LockfileSafety

/-! The check of a cached resolution lays out the sections of the cached lockfile once more. What it
accepts is opened by `initFromData` exactly if the side tables, which it does not read, are in order. -/
namespace Ant.Pkg.CachedLockfile
open Library.ByteLayout Library.ByteString LockfileFormat LockfileReader LockfileSerialize LockfileSafety LockfileRoundTrip

def hasInstallMetadata (header : Header) : Bool :=
  header.platformOsHash != 0 && header.platformCpuHash != 0 && header.platformAbiHash != 0

def matchesCurrentPlatform (env : Env) (header : Header) : Bool :=
  (header.platformOsHash == 0 || header.platformOsHash == platformHash env env.osTag) &&
  (header.platformCpuHash == 0 || header.platformCpuHash == platformHash env env.cpuArch) &&
  (header.platformAbiHash == 0 || header.platformAbiHash == platformHash env env.abiName)

def binEnd (target : Target) (bodyLen hashEnd : Nat) (header : Header) : Option Nat :=
  if header.binEntryCount > 0 then
    if header.binEntryOffset.toNat < hashEnd then none
    else sectionEnd target bodyLen header.binEntryOffset header.binEntryCount BinEntry.layout.size
  else if header.binEntryOffset ≠ 0 then
    if header.binEntryOffset.toNat < hashEnd ∨ header.binEntryOffset.toNat > bodyLen then none
    else some header.binEntryOffset.toNat
  else some hashEnd

def platformValid (target : Target) (bodyLen disabledEnd : Nat) (header : Header) : Bool :=
  if header.platformEntryCount > 0 then
    let minPlatformStart := alignUp disabledEnd 4
    let platformStart := if header.platformEntryOffset ≠ 0 then header.platformEntryOffset.toNat else minPlatformStart
    if platformStart < minPlatformStart ∨ platformStart > bodyLen then false else
    match target.mul header.platformEntryCount.toNat PlatformEntry.layout.size with
    | none => false
    | some platformBytes => !decide (platformBytes > bodyLen - platformStart)
  else true

/-- The nested `sections.end` and `sections.alignUp` are the reader's `sectionEnd` and `alignUp` again. -/
def sectionsValid (target : Target) (bodyLen : Nat) (header : Header) : Bool :=
  if !coreSectionsFit target bodyLen header then false else
  match sectionEnd target bodyLen header.hashTableOffset header.hashTableSize HashBucket.layout.size with
  | none => false
  | some hashEnd =>
    match binEnd target bodyLen hashEnd header with
    | none => false
    | some binEnd =>
      let disabledStart := alignUp binEnd 4
      if disabledStart > bodyLen then false else
      match target.mul header.disabledDependencyCount.toNat DisabledDependency.layout.size with
      | none => false
      | some disabledBytes =>
        if disabledBytes > bodyLen - disabledStart then false
        else platformValid target bodyLen (disabledStart + disabledBytes) header

def cachedResolutionLockfileDataValid (env : Env) (target : Target) (data : Bytes) (expectedResolutionHash : UInt64) :
    Bool :=
  if data.length < 8 + Header.layout.size then false else
  let body := data.drop 8
  let header := Header.layout.decode body
  if !header.validate || !hasInstallMetadata header || !matchesCurrentPlatform env header then false
  else if header.resolutionHash = 0 ∨ header.resolutionHash ≠ expectedResolutionHash then false
  else sectionsValid target body.length header

/-- Every entry of a side table names a package, or the root for a disabled dependency, and the entries
of each table ascend by it. -/
structure SideTablesInOrder (target : Target) (body : Bytes) (header : Header) : Prop where
  bins : InOrder (· < header.packageCount) ((binEntriesFromData body header).items.map (·.packageIndex))
  disabled : ∀ part ∈ disabledDependenciesFromData target body header,
    InOrder (fun index => index = maxIndex ∨ index < header.packageCount) (part.items.map (·.parentPackageIndex))
  platform : ∀ part ∈ platformEntriesFromData target body header,
    InOrder (· < header.packageCount) (part.items.map (·.packageIndex))

theorem alignUp_mono {low high : Nat} (le : low ≤ high) : alignUp low 4 ≤ alignUp high 4 := by
  simp only [alignUp]
  split <;> split <;> omega

section
variable {target : Target} {body : Bytes} {header : Header} {hashEnd stop start disabledStart bytes : Nat}

/-- With bins at offset 0 the reader looks for the disabled dependencies after the hash table, not after
the bins: its start is never the later one. -/
theorem binEnd_read
    (hash : sectionEnd target body.length header.hashTableOffset header.hashTableSize HashBucket.layout.size =
      some hashEnd) (bins : binEnd target body.length hashEnd header = some stop) :
    binSectionFits target body.length hashEnd header = true ∧
      ∃ start ≤ alignUp stop 4, disabledSectionOffset target body.length header = some start := by
  unfold binEnd at bins
  unfold binSectionFits disabledSectionOffset
  split at bins
  next present =>
    split at bins
    next => contradiction
    next after =>
    refine ⟨by rw [if_pos present,bins]; simp [after],?_⟩
    by_cases zero : header.binEntryOffset = 0
    · refine ⟨alignUp hashEnd 4,alignUp_mono ?_,by simp only [zero,hash]; rfl⟩
      simp only [zero] at after
      exact (Nat.le_of_not_lt after).trans (Nat.zero_le _)
    · exact ⟨alignUp stop 4,le_refl _,by simp only [ne_eq,zero,bins]; rfl⟩
  next absent =>
    split at bins
    next offset =>
      split at bins
      next => contradiction
      next within =>
      cases bins
      have none : header.binEntryCount = 0 := by simpa [← UInt32.toNat_inj] using absent
      refine ⟨by rw [if_neg absent,if_pos offset]; simpa using within,_,le_refl _,?_⟩
      have empty : target.mul 0 20 = some 0 := if_pos (Nat.two_pow_pos target.usizeBits)
      simp [offset,sectionEnd,none,empty,not_or.mp within]
    next offset =>
      cases bins
      refine ⟨by rw [if_neg absent,if_neg offset],_,le_refl _,?_⟩
      rw [if_neg offset,hash]
      rfl

section
variable (offset : disabledSectionOffset target body.length header = some start)
  (product : target.mul header.disabledDependencyCount.toNat DisabledDependency.layout.size = some bytes)
include offset product

theorem disabled_read (inside : start + bytes ≤ body.length) :
    ∃ part, disabledDependenciesFromData target body header = some part := by
  unfold disabledDependenciesFromData
  split
  next => exact ⟨_,rfl⟩
  next =>
    simp only [offset,product]
    rw [if_neg (by omega)]
    exact ⟨_,rfl⟩

theorem platform_read (le : start ≤ disabledStart)
    (valid : platformValid target body.length (disabledStart + bytes) header = true) :
    platformSectionFits target body.length header = true ∧
      ∃ part, platformEntriesFromData target body header = some part := by
  have lower : alignUp (start + bytes) 4 ≤ alignUp (disabledStart + bytes) 4 := alignUp_mono (by omega)
  have least : platformSectionOffset target body.length header = some (alignUp (start + bytes) 4) := by
    simp only [platformSectionOffset,offset,product,Option.map_some]
  unfold platformValid at valid
  split at valid
  next present =>
    have some : header.platformEntryCount ≠ 0 := by
      intro none
      simp [none] at present
    dsimp only at valid
    generalize chosen : (if header.platformEntryOffset ≠ 0 then header.platformEntryOffset.toNat
      else alignUp (disabledStart + bytes) 4) = platformStart at valid
    split at valid
    next => contradiction
    next inside =>
    split at valid
    next => contradiction
    next size sized =>
    have fits : size ≤ body.length - platformStart := by simpa using valid
    constructor
    · unfold platformSectionFits
      split
      next both =>
        rw [if_pos both.2] at chosen
        rw [sectionEnd]
        simp only [sized]
        rw [if_neg (by omega)]
        rfl
      next => rfl
    · unfold platformEntriesFromData
      simp only [if_neg some,least,sized]
      generalize position : (if header.platformEntryOffset ≠ 0 then header.platformEntryOffset.toNat
        else alignUp (start + bytes) 4) = place
      have bounds : alignUp (start + bytes) 4 ≤ place ∧ place ≤ platformStart := by
        split at position
        next stored =>
          rw [if_pos stored] at chosen
          omega
        next absent =>
          omega
      rw [if_neg (by omega),if_neg (by omega)]
      exact ⟨_,rfl⟩
  next absent =>
    have none : header.platformEntryCount = 0 := by simpa [← UInt32.toNat_inj] using absent
    refine ⟨by simp [platformSectionFits,none],.static,?_⟩
    exact if_pos none

end

theorem sections_read (valid : sectionsValid target body.length header = true) :
    coreSectionsFit target body.length header = true ∧ platformSectionFits target body.length header = true ∧
    (∃ hashEnd, sectionEnd target body.length header.hashTableOffset header.hashTableSize HashBucket.layout.size =
      some hashEnd ∧ binSectionFits target body.length hashEnd header = true) ∧
    (∃ part, disabledDependenciesFromData target body header = some part) ∧
    ∃ part, platformEntriesFromData target body header = some part := by
  unfold sectionsValid at valid
  split at valid
  next => contradiction
  next core =>
  split at valid
  next => contradiction
  next hashEnd hash =>
  split at valid
  next => contradiction
  next stop bins =>
  obtain ⟨binsFit,start,le,offset⟩ := binEnd_read hash bins
  dsimp only at valid
  split at valid
  next => contradiction
  next within =>
  split at valid
  next => contradiction
  next bytes product =>
  split at valid
  next => contradiction
  next inside =>
  obtain ⟨platformFits,platform⟩ := platform_read offset product le valid
  exact ⟨by simpa using core,platformFits,⟨hashEnd,hash,binsFit⟩,disabled_read offset product (by omega),platform⟩

end

theorem cached_opens_iff (env : Env) (target : Target) (data : Bytes) (key : UInt64)
    (valid : cachedResolutionLockfileDataValid env target data key = true) :
    (∃ lockfile, initFromData target (data.drop 8) = .ok lockfile) ↔
      SideTablesInOrder target (data.drop 8) (Header.layout.decode (data.drop 8)) := by
  unfold cachedResolutionLockfileDataValid at valid
  obtain ⟨header,decoded⟩ : ∃ header, header = Header.layout.decode (data.drop 8) := ⟨_,rfl⟩
  simp only [← decoded] at valid ⊢
  split at valid
  next => contradiction
  next long =>
  split at valid
  next => contradiction
  next sane =>
  split at valid
  next => contradiction
  have short : ¬ (data.drop 8).length < 88 := by
    rw [Header.layout_size] at long
    rw [List.length_drop]
    omega
  have magic : header.validate = true := by
    by_contra wrong
    simp [wrong] at sane
  obtain ⟨core,platformFits,⟨hashEnd,hash,bins⟩,⟨disabled,disabledRead⟩,platform,platformRead⟩ := sections_read valid
  simp only [initFromData,initFrom,Header.layout_size,if_neg short,← decoded,magic,core,platformFits,hash,bins,disabledRead,
    platformRead,if_false]
  have checked : validateSideTables header.packageCount (binEntriesFromData (data.drop 8) header).items disabled.items
      platform.items = true ↔ SideTablesInOrder target (data.drop 8) header := by
    rw [validateSideTables,Bool.and_eq_true,Bool.and_eq_true,indicesInOrder_iff,indicesInOrder_iff,indicesInOrder_iff]
    constructor
    · intro ordered
      obtain ⟨⟨bins,disabledOrder⟩,platformOrder⟩ := ordered
      refine ⟨by simpa using bins.1,?_,?_⟩
      · intro part found
        cases disabledRead.symm.trans found
        simpa using disabledOrder.1
      · intro part found
        cases platformRead.symm.trans found
        simpa using platformOrder.1
    · intro order
      have second := order.disabled disabled disabledRead
      have third := order.platform platform platformRead
      exact ⟨⟨by simpa using order.bins,by simpa using second⟩,by simpa using third⟩
  rw [← checked]
  cases validateSideTables header.packageCount (binEntriesFromData (data.drop 8) header).items disabled.items
    platform.items <;> simp

def cachedBins (bins : List BinEntry) : Bytes :=
  let header : Header := {
    platformOsHash := 5
    platformCpuHash := 6
    platformAbiHash := 3
    binEntryOffset := 88
    binEntryCount := UInt32.ofNat bins.length
    resolutionHash := 1 }
  List.replicate 8 0 ++ (Header.layout.encode header ++ BinEntry.layout.encodeAll bins)

theorem cached_without_bins_opens : cachedResolutionLockfileDataValid sampleEnv .bits64 (cachedBins []) 1 = true ∧
      ∃ lockfile, initFromData .bits64 ((cachedBins []).drop 8) = .ok lockfile := by
  refine ⟨rfl,(cached_opens_iff sampleEnv .bits64 (cachedBins []) 1 rfl).mpr ⟨?_,?_,?_⟩⟩
  · exact ⟨List.forall_mem_nil _,.nil⟩
  · intro part found
    cases found
    exact ⟨List.forall_mem_nil _,.nil⟩
  · intro part found
    cases found
    exact ⟨List.forall_mem_nil _,.nil⟩

/-- The cached lockfile has no package, yet a bin of package 0. -/
theorem cached_bin_refused : cachedResolutionLockfileDataValid sampleEnv .bits64 (cachedBins [⟨0,.empty,.empty⟩]) 1 = true ∧
      initFromData .bits64 ((cachedBins [⟨0,.empty,.empty⟩]).drop 8) = .error .invalidLockfile :=
  ⟨rfl,rfl⟩

end Ant.Pkg.CachedLockfile
