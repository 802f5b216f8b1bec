import Ant.Library.Probe
import Ant.Pkg.LockfileReader

/-! When the accessors of an accepted lockfile stay inside its sections. The
checks of `initFrom` bound every section by the file; they read neither the hash
buckets, nor the dependency ranges of the packages, nor the section alignment. -/
namespace Ant.Pkg.LockfileSafety
open Library.ByteLayout Library.ByteString LockfileFormat LockfileReader List
open Library.Probe

def Section.Inside {α : Type} (layout : Layout α) (data : Bytes) (part : Section α) : Prop :=
  ∀ offset, part.offset = some offset → offset + part.items.length * layout.size ≤ data.length

def Section.Aligned {α : Type} (alignment : Nat) (part : Section α) : Prop :=
  ∀ offset, part.offset = some offset → alignment ∣ offset

/-- No accessor of the lockfile faults, and every section lies in the file at an address of its own alignment. -/
structure Safe (target : Target) (lockfile : Lockfile) : Prop where
  lookup : ∀ name, ∃ found, lockfile.lookupPackage target name = .ok found
  deps : ∀ pkg ∈ lockfile.packages.items, ∃ deps, lockfile.getPackageDeps pkg = .ok deps
  bins : ∀ index, ∃ bins, lockfile.getPackageBins index = .ok bins
  disabled : ∀ index, ∃ disabled, lockfile.getPackageDisabledDependencies index = .ok disabled
  version : ∀ pkg ∈ lockfile.packages.items, ∃ text, versionString target pkg lockfile.stringTable = .ok text
  path : ∀ pkg ∈ lockfile.packages.items, ∃ text, installPath target pkg lockfile.stringTable = .ok text
  packagesPlaced : Section.Inside Package.layout lockfile.data lockfile.packages ∧
    Section.Aligned 8 lockfile.packages
  dependenciesPlaced : Section.Inside Dependency.layout lockfile.data lockfile.dependencies ∧
    Section.Aligned 4 lockfile.dependencies
  hashTablePlaced : Section.Inside HashBucket.layout lockfile.data lockfile.hashTable ∧
    Section.Aligned 4 lockfile.hashTable
  binEntriesPlaced : Section.Inside BinEntry.layout lockfile.data lockfile.binEntries ∧
    Section.Aligned 4 lockfile.binEntries
  disabledPlaced : Section.Inside DisabledDependency.layout lockfile.data lockfile.disabledDependencies ∧
    Section.Aligned 4 lockfile.disabledDependencies
  platformPlaced : Section.Inside PlatformEntry.layout lockfile.data lockfile.platformEntries ∧
    Section.Aligned 4 lockfile.platformEntries

def PathInUse (table : List HashBucket) (hash : UInt32) (steps : Nat) : Prop :=
  ∀ step < steps, ∃ bucket, table[slot table.length (hash.toNat % table.length) step]? = some bucket ∧
    bucket.packageIndex ≠ maxIndex

def RefFits (target : Target) (table : Bytes) (ref : StringRef) : Prop :=
  ref.offset.toNat < table.length → ref.offset.toNat + ref.len.toNat < 2^target.usizeBits

/-- What the checks of `initFrom` leave out, as a condition on the stored header, buckets and packages. -/
structure Sound (target : Target) (lockfile : Lockfile) : Prop where
  packages : 8 ∣ lockfile.header.packageArrayOffset.toNat
  dependencies : 4 ∣ lockfile.header.dependencyArrayOffset.toNat
  hashTable : 4 ∣ lockfile.header.hashTableOffset.toNat
  binEntries : lockfile.header.binEntryCount > 0 → 4 ∣ lockfile.header.binEntryOffset.toNat
  platformEntries : lockfile.header.platformEntryCount ≠ 0 → 4 ∣ lockfile.header.platformEntryOffset.toNat
  buckets : ∀ step < lockfile.hashTable.items.length, ∀ bucket,
    lockfile.hashTable.items[slot lockfile.hashTable.items.length
      (bucket.nameHash.toNat % lockfile.hashTable.items.length) step]? = some bucket →
    bucket.packageIndex ≠ maxIndex → PathInUse lockfile.hashTable.items bucket.nameHash step →
    bucket.packageIndex.toNat < lockfile.packages.items.length
  ranges : ∀ pkg ∈ lockfile.packages.items, pkg.depsCount ≠ 0 →
    pkg.depsStart.toNat < lockfile.dependencies.items.length →
    pkg.depsStart.toNat + pkg.depsCount.toNat < 2^32
  strings : ∀ pkg ∈ lockfile.packages.items, RefFits target lockfile.stringTable pkg.name ∧
    RefFits target lockfile.stringTable pkg.prerelease ∧ RefFits target lockfile.stringTable pkg.parentPath

variable {dataLen offset elemSize stop : Nat} {count index : UInt32} {header : Header} {target : Target}

section
variable {target : Target} {α : Type} {data : Bytes} {lockfile : Lockfile}

section
variable {layout : Layout α} {items : List α} {key : α → UInt32}

theorem sectionEnd_some {offset : UInt32} (fits : sectionEnd target dataLen offset count elemSize = some stop) :
    offset.toNat + count.toNat * elemSize = stop ∧ stop ≤ dataLen := by
  unfold sectionEnd Target.mul at fits
  split at fits
  next => contradiction
  next bytes product =>
    split at product <;> cases product
    split at fits
    next outside => contradiction
    next inside =>
      cases fits
      omega

private theorem sectionEnd_isSome {target : Target} {offset : UInt32}
    (fits : (sectionEnd target dataLen offset count elemSize).isSome = true) :
    offset.toNat + count.toNat * elemSize ≤ dataLen := by
  obtain ⟨stop,found⟩ := Option.isSome_iff_exists.mp fits
  obtain ⟨total,bound⟩ := sectionEnd_some found
  omega

theorem read_inside {count : Nat} (bound : offset + count * layout.size ≤ data.length) :
    Section.Inside layout data (.read layout data offset count) := by
  intro start position
  cases position
  simpa [Section.read,layout.decodeAll_length] using bound

theorem static_inside {data : Bytes} : Section.Inside layout data (.static : Section α) := by
  intro offset position
  cases position

theorem initFrom_accepted {owned : Bool} (accepted : initFrom owned target data = .ok lockfile) :
    lockfile.data = data ∧ lockfile.header = Header.layout.decode data ∧
    lockfile.packages = .read Package.layout data lockfile.header.packageArrayOffset.toNat
      lockfile.header.packageCount.toNat ∧
    lockfile.dependencies = .read Dependency.layout data lockfile.header.dependencyArrayOffset.toNat
      lockfile.header.dependencyCount.toNat ∧
    lockfile.hashTable = .read HashBucket.layout data lockfile.header.hashTableOffset.toNat
      lockfile.header.hashTableSize.toNat ∧ lockfile.binEntries = binEntriesFromData data lockfile.header ∧
    disabledDependenciesFromData target data lockfile.header = some lockfile.disabledDependencies ∧
    platformEntriesFromData target data lockfile.header = some lockfile.platformEntries ∧
    coreSectionsFit target data.length lockfile.header = true ∧
    ∃ hashEnd, sectionEnd target data.length lockfile.header.hashTableOffset lockfile.header.hashTableSize
        HashBucket.layout.size = some hashEnd ∧ binSectionFits target data.length hashEnd lockfile.header = true := by
  obtain ⟨header,decoded⟩ : ∃ header, header = Header.layout.decode data := ⟨_,rfl⟩
  simp only [initFrom,← decoded] at accepted ⊢
  split at accepted
  next => contradiction
  split at accepted
  next => contradiction
  split at accepted
  next => contradiction
  next core =>
  split at accepted
  next => contradiction
  next hashEnd hashFits =>
  split at accepted
  next => contradiction
  next bins =>
  split at accepted
  next => contradiction
  split at accepted
  next disabled platform disabledFits platformFits =>
    split at accepted
    next => contradiction
    have same := Except.ok.inj accepted
    subst same
    exact ⟨rfl,rfl,rfl,rfl,rfl,rfl,disabledFits,platformFits,by simpa using core,hashEnd,hashFits,
      by simpa using bins⟩
  next => contradiction

private theorem core_bounds {target : Target} (core : coreSectionsFit target dataLen header = true) :
    header.packageArrayOffset.toNat + header.packageCount.toNat * Package.layout.size ≤ dataLen ∧
    header.dependencyArrayOffset.toNat + header.dependencyCount.toNat * Dependency.layout.size ≤ dataLen := by
  simp only [coreSectionsFit,Bool.and_eq_true] at core
  exact ⟨sectionEnd_isSome core.1.2,sectionEnd_isSome core.2⟩

private theorem binEntries_inside {target : Target} {data : Bytes} {hashEnd : Nat}
    (fits : binSectionFits target data.length hashEnd header = true) :
    Section.Inside BinEntry.layout data (binEntriesFromData data header) := by
  unfold binEntriesFromData
  split
  next present =>
    simp only [binSectionFits,present,if_true,Bool.and_eq_true] at fits
    exact read_inside (sectionEnd_isSome fits.2)
  next => exact static_inside

private theorem disabledSectionOffset_aligned {target : Target}
    (found : disabledSectionOffset target dataLen header = some offset) : 4 ∣ offset := by
  simp only [disabledSectionOffset,Option.map_eq_some_iff] at found
  obtain ⟨base,_,aligned⟩ := found
  rw [← aligned]
  exact alignUp_dvd (by omega)

private theorem disabled_placed {target : Target} {data : Bytes} {part : Section DisabledDependency}
    (found : disabledDependenciesFromData target data header = some part) :
    Section.Inside DisabledDependency.layout data part ∧ Section.Aligned 4 part := by
  unfold disabledDependenciesFromData at found
  split at found
  next =>
    cases found
    exact ⟨static_inside,by intro offset position; cases position⟩
  split at found
  next => contradiction
  next offset position =>
  simp only [Target.mul] at found
  split at found
  next => contradiction
  next bytes product =>
  split at product <;> cases product
  split at found
  next => contradiction
  next inside =>
  have same := Option.some.inj found
  subst same
  refine ⟨read_inside (by omega),?_⟩
  intro start equal
  cases equal
  exact disabledSectionOffset_aligned position

private theorem platformSectionOffset_aligned {target : Target}
    (found : platformSectionOffset target dataLen header = some offset) : 4 ∣ offset := by
  unfold platformSectionOffset at found
  split at found
  next => contradiction
  next base _ =>
    obtain ⟨bytes,_,aligned⟩ := Option.map_eq_some_iff.mp found
    rw [← aligned]
    exact alignUp_dvd (by omega)

private theorem platform_placed {target : Target} {data : Bytes} {part : Section PlatformEntry}
    (found : platformEntriesFromData target data header = some part) : Section.Inside PlatformEntry.layout data part ∧
    (Section.Aligned 4 part ↔ (header.platformEntryCount ≠ 0 → 4 ∣ header.platformEntryOffset.toNat)) := by
  unfold platformEntriesFromData at found
  split at found
  next zero =>
    cases found
    refine ⟨static_inside,?_⟩
    simp [Section.Aligned,Section.static,zero]
  next counted =>
  split at found
  next => contradiction
  next minOffset position =>
  simp only [Target.mul] at found
  generalize chosen : (if header.platformEntryOffset ≠ 0 then header.platformEntryOffset.toNat
    else minOffset) = offset at found
  split at found
  next => contradiction
  split at found
  next => contradiction
  next bytes product =>
  split at product <;> cases product
  split at found
  next => contradiction
  next inside =>
  have same := Option.some.inj found
  subst same
  refine ⟨read_inside (by omega),?_⟩
  have least := platformSectionOffset_aligned position
  subst chosen
  by_cases stored : header.platformEntryOffset = 0
  · simp [Section.Aligned,Section.read,stored,least]
  · simp [Section.Aligned,Section.read,stored,counted]

theorem itemsBetween_ok {start : Nat} (ordered : start ≤ stop) (bound : stop ≤ items.length) :
    ∃ part, itemsBetween items start stop = .ok part := by
  simp [itemsBetween,ordered,bound]

private theorem runBounds_range (i : Nat) (start : Option Nat) (stop : Nat) (earlier : ∀ s, start = some s → s ≤ stop)
    (passed : stop ≤ i) {s e : Nat} (found : Lockfile.runBounds key index items i start stop = (some s,e)) :
    s ≤ e ∧ e ≤ i + items.length := by
  induction items generalizing i start stop with
  | nil =>
    obtain ⟨rfl,rfl⟩ := found
    exact ⟨earlier s rfl,by simpa using passed⟩
  | cons entry rest ih =>
    unfold Lockfile.runBounds at found
    split at found
    next =>
      have grown : ∀ t, start.or (some i) = some t → t ≤ i+1 := by
        intro t chosen
        cases start with
        | none => cases chosen; omega
        | some first =>
          have same : first = t := by simpa using chosen
          have before := earlier first rfl
          omega
      have range := ih (i+1) (start.or (some i)) (i+1) grown (le_refl _) found
      simp only [length_cons]
      omega
    next =>
      split at found
      next =>
        obtain ⟨rfl,rfl⟩ := found
        exact ⟨earlier s rfl,by omega⟩
      next =>
        have range := ih (i+1) start stop earlier (by omega) found
        simp only [length_cons]
        omega

theorem entriesOf_ok : ∃ entries, Lockfile.entriesOf key index items = .ok entries := by
  unfold Lockfile.entriesOf
  split
  next => exact ⟨[],rfl⟩
  next start stop found =>
    obtain ⟨ordered,bound⟩ := runBounds_range 0 none 0 (by simp) (le_refl _) found
    exact itemsBetween_ok ordered (by simpa using bound)

theorem sliceOf_ok_iff (target : Target) (ref : StringRef) (table : Bytes) :
    (∃ text, sliceOf target ref table = .ok text) ↔ RefFits target table ref := by
  unfold sliceOf RefFits
  split
  next outside => exact ⟨fun _ inside => absurd inside (by omega),fun _ => ⟨[],rfl⟩⟩
  next inside =>
    split
    next overflow =>
      refine ⟨?_,fun fits => absurd (fits (by omega)) (by omega)⟩
      rintro ⟨text,impossible⟩
      contradiction
    next fits => exact ⟨fun _ _ => by omega,fun _ => ⟨_,rfl⟩⟩

theorem versionString_ok_iff (target : Target) (pkg : Package) (table : Bytes) :
    (∃ text, versionString target pkg table = .ok text) ↔ RefFits target table pkg.prerelease := by
  rw [← sliceOf_ok_iff]
  unfold versionString
  cases sliceOf target pkg.prerelease table <;> simp [bind,Except.bind,pure,Except.pure]

theorem installPath_ok_iff (target : Target) (pkg : Package) (table : Bytes) :
    (∃ text, installPath target pkg table = .ok text) ↔
      RefFits target table pkg.name ∧ RefFits target table pkg.parentPath := by
  rw [← sliceOf_ok_iff,← sliceOf_ok_iff]
  unfold installPath
  cases sliceOf target pkg.parentPath table <;> cases sliceOf target pkg.name table <;>
    simp [bind,Except.bind,pure,Except.pure]

theorem getPackageDeps_ok_iff (lockfile : Lockfile) (pkg : Package) : (∃ deps, lockfile.getPackageDeps pkg = .ok deps) ↔
      (pkg.depsCount ≠ 0 → pkg.depsStart.toNat < lockfile.dependencies.items.length →
        pkg.depsStart.toNat + pkg.depsCount.toNat < 2^32) := by
  unfold Lockfile.getPackageDeps
  split
  next none => exact ⟨fun _ some => absurd none some,fun _ => ⟨[],rfl⟩⟩
  next some =>
  split
  next outside => exact ⟨fun _ _ inside => absurd inside (by omega),fun _ => ⟨[],rfl⟩⟩
  next inside =>
  split
  next overflow =>
    refine ⟨?_,fun fits => absurd (fits some (by omega)) (by omega)⟩
    rintro ⟨deps,impossible⟩
    contradiction
  next fits =>
    refine ⟨fun _ _ _ => by omega,fun _ => ?_⟩
    split
    next => exact ⟨[],rfl⟩
    next bound => exact itemsBetween_ok (by omega) (by omega)

private theorem djb2Step_toNat (hash : UInt32) (char : UInt8) :
    (djb2Step hash char).toNat = (hash.toNat * 33 + char.toNat) % 2^32 := by
  simp only [djb2Step,UInt32.toNat_add,UInt32.toNat_shiftLeft,UInt8.toNat_toUInt32,
    UInt32.reduceToNat,Nat.reduceMod]
  omega

private theorem hash_reaches (count : Nat) (hash : UInt32) (value : Nat) (bound : value < 33^count) :
    ∃ chars : Bytes, chars.length = count ∧ (chars.foldl djb2Step hash).toNat = (hash.toNat * 33^count + value) % 2^32 := by
  induction count generalizing value with
  | zero =>
    have zero : value = 0 := by simpa using bound
    exact ⟨[],rfl,by simp [zero]⟩
  | succ count ih =>
    have high : value / 33 < 33^count := by
      rw [Nat.div_lt_iff_lt_mul (by omega)]
      simpa only [Nat.pow_succ] using bound
    obtain ⟨chars,length,reached⟩ := ih (value / 33) high
    refine ⟨chars ++ [UInt8.ofNat (value % 33)],by simp [length],?_⟩
    have digit : (UInt8.ofNat (value % 33)).toNat = value % 33 := by
      rw [UInt8.toNat_ofNat']
      omega
    rw [foldl_append,foldl_cons,foldl_nil,djb2Step_toNat,Nat.pow_succ 33 count,
      ← Nat.mul_assoc]
    omega

theorem djb2Hash_surjective (hash : UInt32) (least : Nat) : ∃ name : Bytes, least ≤ name.length ∧ djb2Hash name = hash := by
  obtain ⟨padded,length,_⟩ := hash_reaches least 5381 0 (Nat.pow_pos (by omega))
  have start := (djb2Hash padded).toNat_lt
  have goal := hash.toNat_lt
  -- seven characters in base 33 cover every residue modulo 2^32
  obtain ⟨chars,_,reached⟩ := hash_reaches 7 (djb2Hash padded)
    ((hash.toNat + 2^32 * 33^7 - (djb2Hash padded).toNat * 33^7) % 2^32) (by omega)
  refine ⟨padded ++ chars,by simp [length],?_⟩
  apply UInt32.toNat_inj.mp
  unfold djb2Hash at reached start ⊢
  rw [foldl_append]
  omega

private theorem itemAt_ok_iff (items : List α) (index : Nat) :
    (∃ item, itemAt items index = .ok item) ↔ index < items.length := by
  unfold itemAt
  split
  next item found =>
    exact ⟨fun _ => (List.getElem?_eq_some_iff.mp found).1,fun _ => ⟨item,rfl⟩⟩
  next missing =>
    have outside := getElem?_eq_none_iff.mp missing
    refine ⟨?_,fun inside => absurd inside (by omega)⟩
    rintro ⟨item,impossible⟩
    contradiction

private theorem itemAt_eq {index : Nat} {item : α} (found : itemAt items index = .ok item) : items[index]? = some item := by
  unfold itemAt at found
  split at found
  next value present => rw [present,Except.ok.inj found]
  next => contradiction

end

theorem PathInUse.succ (table : List HashBucket) (hash : UInt32) (step : Nat) (bucket : HashBucket)
    (before : PathInUse table hash step) (found : table[slot table.length (hash.toNat % table.length) step]? = some bucket)
    (used : bucket.packageIndex ≠ maxIndex) : PathInUse table hash (step+1) := by
  intro earlier bound
  rcases Nat.lt_succ_iff_lt_or_eq.mp bound with inside | rfl
  · exact before earlier inside
  · exact ⟨bucket,found,used⟩

private theorem lookupLoop_ok {target : Target} {lockfile : Lockfile} (sound : Sound target lockfile) (name : Bytes)
    (probes step : Nat) (total : step + probes = lockfile.hashTable.items.length)
    (path : PathInUse lockfile.hashTable.items (djb2Hash name) step) : ∃ found, lockfile.lookupLoop target name probes
      (slot lockfile.hashTable.items.length ((djb2Hash name).toNat % lockfile.hashTable.items.length) step) = .ok found := by
  induction probes generalizing step with
  | zero => exact ⟨none,rfl⟩
  | succ probes ih =>
    have bound := slot_lt lockfile.hashTable.items.length
      ((djb2Hash name).toNat % lockfile.hashTable.items.length) step (by omega)
    obtain ⟨bucket,read⟩ := (itemAt_ok_iff _ _).mpr bound
    have found := itemAt_eq read
    simp only [Lockfile.lookupLoop,read,slot_next]
    split
    next => exact ⟨none,rfl⟩
    next used =>
    have rest := ih (step+1) (by omega) (path.succ _ _ _ bucket found used)
    split
    next same =>
      have inRange := sound.buckets step (by omega) bucket (by rw [same]; exact found) used (by rw [same]; exact path)
      obtain ⟨pkg,present⟩ := (itemAt_ok_iff lockfile.packages.items _).mpr inRange
      have member := mem_of_getElem? (itemAt_eq present)
      obtain ⟨text,sliced⟩ := (sliceOf_ok_iff target pkg.name lockfile.stringTable).mpr (sound.strings pkg member).1
      simp only [present,sliced]
      split
      next => exact ⟨some pkg,rfl⟩
      next => exact rest
    next => exact rest

theorem lookupPackage_ok (sound : Sound target lockfile) (name : Bytes) :
    ∃ found, lockfile.lookupPackage target name = .ok found := by
  unfold Lockfile.lookupPackage
  split
  next => exact ⟨none,rfl⟩
  next filled =>
    have home := Nat.mod_lt (djb2Hash name).toNat (Nat.pos_of_ne_zero filled)
    have run := lookupLoop_ok sound name lockfile.hashTable.items.length 0 (by omega)
      (by intro step impossible; omega)
    rwa [slot_zero home] at run

end

private theorem slice_length {ref : StringRef} {table text : Bytes} (sliced : sliceOf target ref table = .ok text) :
    text.length ≤ table.length := by
  unfold sliceOf at sliced
  split at sliced
  next => cases sliced; simp
  split at sliced
  next => contradiction
  next =>
    cases sliced
    unfold StringRef.slice
    split
    next => simp
    next => simp only [length_drop,length_take]; omega

/-- A long name with the hash of an unbacked bucket walks the path to that bucket and faults there, if
not before: no stored name is as long as it is. -/
private theorem lookupLoop_faults (target : Target) (lockfile : Lockfile) {name : Bytes}
    (long : lockfile.stringTable.length < name.length) (last : Nat) {bucket : HashBucket}
    (hashed : bucket.nameHash = djb2Hash name) (used : bucket.packageIndex ≠ maxIndex)
    (unbacked : lockfile.packages.items.length ≤ bucket.packageIndex.toNat)
    (found : lockfile.hashTable.items[slot lockfile.hashTable.items.length
      ((djb2Hash name).toNat % lockfile.hashTable.items.length) last]? = some bucket)
    (path : PathInUse lockfile.hashTable.items (djb2Hash name) last)
    {left : Nat} (step probes : Nat) (reach : step + left = last) (enough : left < probes) :
    ∃ fault, lockfile.lookupLoop target name probes
      (slot lockfile.hashTable.items.length ((djb2Hash name).toNat % lockfile.hashTable.items.length) step) =
        .error fault := by
  induction left generalizing step probes with
  | zero =>
    obtain ⟨probes,rfl⟩ := Nat.exists_eq_succ_of_ne_zero (Nat.ne_of_gt enough)
    have here : step = last := by omega
    have missing : lockfile.packages.items[bucket.packageIndex.toNat]? = none :=
      getElem?_eq_none_iff.mpr unbacked
    subst here
    exact ⟨.outOfRange,by simp [Lockfile.lookupLoop,itemAt,found,used,hashed,missing]⟩
  | succ left ih =>
    obtain ⟨probes,rfl⟩ := Nat.exists_eq_succ_of_ne_zero (Nat.ne_of_gt (Nat.zero_lt_of_lt enough))
    obtain ⟨passed,present,inUse⟩ := path step (by omega)
    obtain ⟨fault,rest⟩ := ih (step+1) probes (by omega) (by omega)
    have read : itemAt lockfile.hashTable.items (slot lockfile.hashTable.items.length
        ((djb2Hash name).toNat % lockfile.hashTable.items.length) step) = .ok passed := by simp [itemAt,present]
    simp only [Lockfile.lookupLoop,read,inUse,if_false,slot_next,rest]
    split
    next same =>
      cases backed : itemAt lockfile.packages.items passed.packageIndex.toNat with
      | error error => exact ⟨error,rfl⟩
      | ok pkg =>
        cases sliced : sliceOf target pkg.name lockfile.stringTable with
        | error error => exact ⟨error,by simp [sliced]⟩
        | ok text =>
          have shorter := slice_length sliced
          have different : text ≠ name := by
            intro equal
            subst equal
            omega
          exact ⟨fault,by simp [sliced,different]⟩
    next => exact ⟨fault,rfl⟩

private theorem buckets_backed {lockfile : Lockfile}
    (lookup : ∀ name, ∃ found, lockfile.lookupPackage target name = .ok found) (step : Nat)
    (within : step < lockfile.hashTable.items.length) (bucket : HashBucket)
    (found : lockfile.hashTable.items[slot lockfile.hashTable.items.length (bucket.nameHash.toNat % lockfile.hashTable.items.length) step]? = some bucket)
    (used : bucket.packageIndex ≠ maxIndex) (path : PathInUse lockfile.hashTable.items bucket.nameHash step) :
    bucket.packageIndex.toNat < lockfile.packages.items.length := by
  by_contra unbacked
  obtain ⟨name,long,hashed⟩ := djb2Hash_surjective bucket.nameHash (lockfile.stringTable.length + 1)
  have filled : lockfile.hashTable.items.length ≠ 0 := by omega
  have home := Nat.mod_lt (djb2Hash name).toNat (Nat.pos_of_ne_zero filled)
  obtain ⟨fault,faults⟩ := lookupLoop_faults target lockfile (by omega) step hashed.symm used
    (by omega) (by rw [hashed]; exact found) (by rw [hashed]; exact path) 0
    lockfile.hashTable.items.length (by omega) within
  rw [slot_zero home] at faults
  obtain ⟨result,ok⟩ := lookup name
  simp only [Lockfile.lookupPackage,filled,faults] at ok
  contradiction

/-- An accepted lockfile can be used without a fault exactly when its sections are aligned, every
bucket a search can reach names a stored package, and the ranges of its packages do not overflow. -/
theorem accessors_safe_iff (owned : Bool) (target : Target) (data : Bytes) (lockfile : Lockfile)
    (accepted : initFrom owned target data = .ok lockfile) : Safe target lockfile ↔ Sound target lockfile := by
  obtain ⟨isData,_,isPackages,isDependencies,isHashTable,isBins,isDisabled,isPlatform,core,hashEnd,hashFits,bins⟩ :=
    initFrom_accepted accepted
  obtain ⟨packagesFit,dependenciesFit⟩ := core_bounds core
  obtain ⟨hashTotal,hashBound⟩ := sectionEnd_some hashFits
  obtain ⟨platformInside,platformAligned⟩ := platform_placed isPlatform
  constructor
  · intro safe
    refine ⟨?_,?_,?_,?_,platformAligned.mp safe.platformPlaced.2,buckets_backed safe.lookup,
      fun pkg member => (getPackageDeps_ok_iff lockfile pkg).mp (safe.deps pkg member),?_⟩
    · exact safe.packagesPlaced.2 _ (by rw [isPackages]; rfl)
    · exact safe.dependenciesPlaced.2 _ (by rw [isDependencies]; rfl)
    · exact safe.hashTablePlaced.2 _ (by rw [isHashTable]; rfl)
    · intro present
      exact safe.binEntriesPlaced.2 _ (by rw [isBins,binEntriesFromData,if_pos present]; rfl)
    · intro pkg member
      obtain ⟨nameFits,parentFits⟩ := (installPath_ok_iff target pkg _).mp (safe.path pkg member)
      exact ⟨nameFits,(versionString_ok_iff target pkg _).mp (safe.version pkg member),parentFits⟩
  · intro sound
    refine ⟨lookupPackage_ok sound,
      fun pkg member => (getPackageDeps_ok_iff lockfile pkg).mpr (sound.ranges pkg member),
      fun index => entriesOf_ok,fun index => entriesOf_ok,?_,?_,?_,?_,?_,?_,?_,?_⟩
    · intro pkg member
      exact (versionString_ok_iff target pkg _).mpr (sound.strings pkg member).2.1
    · intro pkg member
      exact (installPath_ok_iff target pkg _).mpr ⟨(sound.strings pkg member).1,(sound.strings pkg member).2.2⟩
    · rw [isData,isPackages]
      exact ⟨read_inside packagesFit,by intro offset equal; cases equal; exact sound.packages⟩
    · rw [isData,isDependencies]
      exact ⟨read_inside dependenciesFit,by intro offset equal; cases equal; exact sound.dependencies⟩
    · rw [isData,isHashTable]
      exact ⟨read_inside (by omega),by intro offset equal; cases equal; exact sound.hashTable⟩
    · rw [isData,isBins]
      refine ⟨binEntries_inside bins,?_⟩
      intro offset position
      unfold binEntriesFromData at position
      split at position
      next present => cases position; exact sound.binEntries present
      next => cases position
    · rw [isData]
      exact disabled_placed isDisabled
    · rw [isData]
      exact ⟨platformInside,platformAligned.mpr sound.platformEntries⟩

def oneBucketFile (bucket : HashBucket) : Bytes :=
  let header : Header := {
    stringTableOffset := 88
    packageArrayOffset := 88
    dependencyArrayOffset := 88
    hashTableOffset := 88
    hashTableSize := 1 }
  Header.layout.encode header ++ HashBucket.layout.encode bucket

theorem accessors_safe_one_empty_bucket :
    ∃ lockfile, initFrom false .bits64 (oneBucketFile .empty) = .ok lockfile ∧ Safe .bits64 lockfile := by
  refine ⟨_,rfl,?_⟩
  refine (accessors_safe_iff false .bits64 (oneBucketFile .empty) _ rfl).mpr ?_
  refine ⟨by decide,by decide,by decide,by decide,by decide,?_,?_,?_⟩
  · intro step within bucket found used path
    have member := mem_of_getElem? found
    exact absurd (congrArg (·.packageIndex) (mem_singleton.mp member)) used
  · intro pkg member
    cases member
  · intro pkg member
    cases member

/-- The empty name hashes to the home slot of a bucket that names package 0 of an empty package array. -/
theorem unbacked_bucket_faults : ∃ lockfile, initFromData .bits64 (oneBucketFile ⟨5381,0⟩) = .ok lockfile ∧
      lockfile.lookupPackage .bits64 [] = .error .outOfRange ∧ ¬ Safe .bits64 lockfile := by
  refine ⟨_,rfl,rfl,?_⟩
  intro safe
  obtain ⟨found,ok⟩ := safe.lookup []
  cases ok

end Ant.Pkg.LockfileSafety
