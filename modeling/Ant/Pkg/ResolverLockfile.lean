import Ant.Pkg.LockfileBuild
import Ant.Pkg.ResolvedPackages
import Mathlib.Data.List.Induction

/-! `Resolver.writeLockfileTo` of `resolver.zig`: the resolved packages and the edges between
them, and when those edges are the ones that Node follows. -/
namespace Ant.Pkg.ResolverLockfile
open Library.ByteLayout Library.ByteString Library.OrderedMap LockfileFormat LockfileSerialize LockfileBuild Option
  ResolvedPackages

/-- What the writer reads of a resolver. The map of resolved packages has their install paths as keys. -/
structure Resolver where
  resolved : List ResolvedPackage
  distinct : (resolved.map installPath).Nodup
  disabledRootDependencies : List (Bytes × Bytes) := []
  lockResolutionHash : UInt64 := 0

def packagesOrdered (resolver : Resolver) : List ResolvedPackage := memSort orderForLockfile resolver.resolved

def pkgIndices (ordered : List ResolvedPackage) : List (Bytes × Nat) :=
  ordered.zipIdx.foldl (fun indices entry => put (installPath entry.1) entry.2 indices) []

/-- A package at the top goes before the one below the dependent package. -/
def foundIndex (indices : List (Bytes × Nat)) (path name : Bytes) : Option Nat :=
  (find name indices).or (find (nested path name) indices)

def depFlags (flags : DepFlags) : DependencyFlags := {peer := flags.peer, dev := flags.dev, optional := flags.optional}

def writeDep (indices : List (Bytes × Nat)) (path : Bytes) (writer : LockfileWriter) (dep : Dep) :
    Except WriterError LockfileWriter :=
  match foundIndex indices path dep.name with
  | none => .ok writer
  | some index => do
    let (constraint,writer) ← internString writer dep.constraint
    let index ← u32 index
    return addDependency writer ⟨index,constraint,depFlags dep.flags,Vector.replicate 3 0⟩

def fileCountBytes (count : Nat) : Vector UInt8 3 :=
  let capped := min count 0xffffff
  #v[UInt8.ofNat capped,UInt8.ofNat (capped / 2^8),UInt8.ofNat (capped / 2^16)]

def writePackage (indices : List (Bytes × Nat)) (writer : LockfileWriter) (pkg : ResolvedPackage) :
    Except WriterError LockfileWriter := do
  let (name,writer) ← internString writer pkg.name
  let (url,writer) ← internString writer pkg.tarballUrl
  let (prerelease,writer) ← internOptional writer pkg.version.prerelease
  let (parent,writer) ← internOptional writer pkg.parentPath
  let depsStart ← u32 writer.dependencies.length
  let before := writer.dependencies.length
  let writer ← pkg.dependencies.foldlM (writeDep indices (installPath pkg)) writer
  let depsCount ← u32 (writer.dependencies.length - before)
  let (index,writer) ← addPackage writer {
    name := name
    versionMajor := UInt64.ofNat pkg.version.major
    versionMinor := UInt64.ofNat pkg.version.minor
    versionPatch := UInt64.ofNat pkg.version.patch
    prerelease := prerelease
    integrity := pkg.integrity
    tarballUrl := url
    parentPath := parent
    depsStart := depsStart
    depsCount := depsCount
    flags := {direct := pkg.direct, hasBin := pkg.hasBin}
    fileCountBytes := fileCountBytes pkg.fileCount}
  let writer ← pkg.bins.foldlM (fun writer bin => addBinEntry writer index bin.1 bin.2) writer
  let writer ← pkg.disabledDependencies.foldlM
    (fun writer dep => addDisabledDependency writer index dep.1 dep.2) writer
  addPlatformEntry writer index pkg.os pkg.cpu pkg.libc

/-- `writeLockfileTo` up to the writer that it then writes to its destination. -/
def writeLockfileTo (resolver : Resolver) : Except WriterError LockfileWriter := do
  let writer := setResolutionHash {} resolver.lockResolutionHash
  let ordered := packagesOrdered resolver
  let writer ← ordered.foldlM (writePackage (pkgIndices ordered)) writer
  resolver.disabledRootDependencies.foldlM
    (fun writer dep => addDisabledDependency writer maxIndex dep.1 dep.2) writer

structure Edge where
  target : Nat
  constraint : Bytes
  flags : DependencyFlags
  deriving DecidableEq,Repr

def edgeOf (table : Bytes) (dep : Dependency) : Edge := ⟨dep.packageIndex.toNat,dep.constraint.slice table,dep.flags⟩

def edges (writer : LockfileWriter) (index : Nat) : List Edge :=
  match writer.packages[index]? with
  | none => []
  | some pkg => ((writer.dependencies.drop pkg.depsStart.toNat).take pkg.depsCount.toNat).map
      (edgeOf writer.stringBuilder)

def edgesBy (lookup : Bytes → Option Nat) (pkg : ResolvedPackage) : List Edge :=
  pkg.dependencies.filterMap fun dep => (lookup dep.name).map fun index => ⟨index,dep.constraint,depFlags dep.flags⟩

def nodeLookup (indices : List (Bytes × Nat)) (path name : Bytes) : Option Nat :=
  (lookupPaths path name).findSome? (find · indices)

theorem pkgIndices_snoc (ordered : List ResolvedPackage) (last : ResolvedPackage) :
    pkgIndices (ordered ++ [last]) = put (installPath last) ordered.length (pkgIndices ordered) := by
  simp [pkgIndices,List.zipIdx_append]

variable {path : Bytes} {writer next : LockfileWriter} {α : Type} {indices : List (Bytes × Nat)} {pkg : ResolvedPackage}
  {resolver : Resolver}

theorem find_pkgIndices {ordered : List ResolvedPackage} (distinct : (ordered.map installPath).Nodup) (index : Nat) :
    find path (pkgIndices ordered) = some index ↔ ∃ pkg, ordered[index]? = some pkg ∧ installPath pkg = path := by
  induction ordered using List.reverseRecOn generalizing index with
  | nil => simp [pkgIndices]
  | append_singleton ordered last ih =>
    simp only [List.map_append,List.map_cons,List.map_nil,List.nodup_append,List.mem_singleton] at distinct
    obtain ⟨distinct,_,fresh⟩ := distinct
    rw [pkgIndices_snoc,find_put]
    by_cases same : path = installPath last
    · rw [if_pos same,same]
      constructor
      · intro found
        cases found
        exact ⟨last,by simp,rfl⟩
      · rintro ⟨pkg,at_,equal⟩
        rcases Nat.lt_trichotomy index ordered.length with before | here | after
        · rw [List.getElem?_append_left before] at at_
          exact absurd equal (fresh _ (List.mem_map_of_mem (List.mem_of_getElem? at_)) _ rfl)
        · rw [here]
        · simp [List.getElem?_append_right (le_of_lt after),show index - ordered.length ≠ 0 by omega] at at_
    · rw [if_neg same,ih distinct]
      constructor
      · rintro ⟨pkg,at_,equal⟩
        exact ⟨pkg,by rw [List.getElem?_append_left (List.getElem?_eq_some_iff.mp at_).1]; exact at_,equal⟩
      · rintro ⟨pkg,at_,equal⟩
        refine ⟨pkg,?_,equal⟩
        by_cases before : index < ordered.length
        · rwa [List.getElem?_append_left before] at at_
        · rw [List.getElem?_append_right (by omega),List.getElem?_singleton] at at_
          split at at_
          next =>
            cases at_
            exact absurd equal.symm same
          next => contradiction

section Writing

def Known (writer : LockfileWriter) : Prop := ∃ commands, Built commands writer

structure Kept (writer next : LockfileWriter) : Prop where
  packages : next.packages = writer.packages
  dependencies : next.dependencies = writer.dependencies
  known : Known next
  denotes : ∀ ref text, Denotes writer.stringBuilder ref text → Denotes next.stringBuilder ref text

theorem Kept.refl (writer : LockfileWriter) (known : Known writer) : Kept writer writer :=
  ⟨rfl,rfl,known,fun _ _ denotes => denotes⟩

theorem Kept.trans {first second third : LockfileWriter} (one : Kept first second) (two : Kept second third) :
    Kept first third :=
  ⟨two.packages.trans one.packages,two.dependencies.trans one.dependencies,two.known,
    fun ref text denotes => two.denotes ref text (one.denotes ref text denotes)⟩

theorem internString_tables (writer next : LockfileWriter) (text : Bytes) (ref : StringRef)
    (ok : internString writer text = .ok (ref,next)) :
    next.packages = writer.packages ∧ next.dependencies = writer.dependencies := by
  unfold internString at ok
  split at ok
  next =>
    cases ok
    exact ⟨rfl,rfl⟩
  next =>
  split at ok
  next =>
    cases ok
    exact ⟨rfl,rfl⟩
  next =>
  split at ok
  next => contradiction
  next =>
  split at ok
  next => contradiction
  next =>
    cases ok
    exact ⟨rfl,rfl⟩

theorem internString_kept (next : LockfileWriter) (text : Bytes) (ref : StringRef) (known : Known writer)
    (ok : internString writer text = .ok (ref,next)) : Kept writer next ∧ Denotes next.stringBuilder ref text := by
  obtain ⟨commands,built⟩ := known
  obtain ⟨packages,dependencies⟩ := internString_tables writer next text ref ok
  obtain ⟨grown,denotes,kept⟩ := internString_built commands writer next text ref built ok
  exact ⟨⟨packages,dependencies,⟨commands,grown⟩,kept⟩,denotes⟩

theorem internOptional_kept {text : Option Bytes} {ref : StringRef} (known : Known writer)
    (ok : internOptional writer text = .ok (ref,next)) : Kept writer next := by
  cases text with
  | none =>
    cases ok
    exact .refl writer known
  | some text => exact (internString_kept next text ref known ok).1

private theorem kept_of_perform {middle : LockfileWriter} {command : Command} (known : Known writer)
    (performed : perform writer command = .ok next) (kept : Kept writer middle) (packages : next.packages = middle.packages)
    (dependencies : next.dependencies = middle.dependencies) (strings : next.stringBuilder = middle.stringBuilder) :
    Kept writer next := by
  obtain ⟨commands,built⟩ := known
  refine ⟨packages.trans kept.packages,dependencies.trans kept.dependencies,
    ⟨_,perform_built writer next command built performed⟩,?_⟩
  rw [strings]
  exact kept.denotes

theorem addBinEntry_kept (writer next : LockfileWriter) (index : UInt32) (name path : Bytes) (known : Known writer)
    (ok : addBinEntry writer index name path = .ok next) : Kept writer next := by
  have performed : perform writer (.addBinEntry index name path) = .ok next := ok
  obtain ⟨⟨nameRef,named⟩,internedName,ok⟩ := bind_success ok
  obtain ⟨⟨pathRef,pathed⟩,internedPath,ok⟩ := bind_success ok
  cases ok
  have first := (internString_kept named name nameRef known internedName).1
  have second := (internString_kept pathed path pathRef first.known internedPath).1
  exact kept_of_perform known performed (first.trans second) rfl rfl rfl

theorem addDisabledDependency_kept (writer next : LockfileWriter) (parent : UInt32) (name constraint : Bytes)
    (known : Known writer) (ok : addDisabledDependency writer parent name constraint = .ok next) : Kept writer next := by
  have performed : perform writer (.addDisabledDependency parent name constraint) = .ok next := ok
  obtain ⟨⟨nameRef,named⟩,internedName,ok⟩ := bind_success ok
  obtain ⟨⟨pathRef,pathed⟩,internedPath,ok⟩ := bind_success ok
  cases ok
  have first := (internString_kept named name nameRef known internedName).1
  have second := (internString_kept pathed constraint pathRef first.known internedPath).1
  exact kept_of_perform known performed (first.trans second) rfl rfl rfl

theorem addPlatformEntry_kept (writer next : LockfileWriter) (index : UInt32) (os cpu libc : Option Bytes)
    (known : Known writer) (ok : addPlatformEntry writer index os cpu libc = .ok next) : Kept writer next := by
  have performed : perform writer (.addPlatformEntry index os cpu libc) = .ok next := ok
  unfold addPlatformEntry at ok
  split at ok
  next =>
    cases ok
    exact .refl writer known
  next =>
    obtain ⟨⟨osRef,first⟩,internedOs,ok⟩ := bind_success ok
    obtain ⟨⟨cpuRef,second⟩,internedCpu,ok⟩ := bind_success ok
    obtain ⟨⟨libcRef,third⟩,internedLibc,ok⟩ := bind_success ok
    cases ok
    have one := internOptional_kept known internedOs
    have two := internOptional_kept one.known internedCpu
    have three := internOptional_kept two.known internedLibc
    exact kept_of_perform known performed ((one.trans two).trans three) rfl rfl rfl

theorem foldlM_kept {step : LockfileWriter → α → Except WriterError LockfileWriter}
    (keeps : ∀ writer next item, Known writer → step writer item = .ok next → Kept writer next) {items : List α}
    (writer : LockfileWriter) (known : Known writer) (ok : items.foldlM step writer = .ok next) : Kept writer next := by
  induction items generalizing writer with
  | nil =>
    cases ok
    exact .refl _ known
  | cons item items ih =>
    obtain ⟨middle,performed,rest⟩ := bind_success ok
    have first := keeps writer middle item known performed
    exact first.trans (ih middle first.known rest)

def Stores (table : Bytes) (dep : Dependency) (edge : Edge) : Prop :=
  dep.packageIndex.toNat = edge.target ∧ Denotes table dep.constraint edge.constraint ∧ dep.flags = edge.flags

theorem Stores.edge {table : Bytes} {dep : Dependency} {edge : Edge} (stores : Stores table dep edge) :
    edgeOf table dep = edge := by
  obtain ⟨target,denotes,flags⟩ := stores
  rw [edgeOf,target,denotes.slice,flags]

theorem u32_value {value : Nat} {word : UInt32} (ok : u32 value = .ok word) : word.toNat = value := by
  unfold u32 at ok
  split at ok
  next fits =>
    cases ok
    exact toNat_ofNat fits
  next => contradiction

theorem writeDeps_adds {deps : List Dep} (writer : LockfileWriter) (known : Known writer)
    (ok : deps.foldlM (writeDep indices path) writer = .ok next) :
    ∃ added, next.dependencies = writer.dependencies ++ added ∧ next.packages = writer.packages ∧ Known next ∧
      (∀ ref text, Denotes writer.stringBuilder ref text → Denotes next.stringBuilder ref text) ∧
      List.Forall₂ (Stores next.stringBuilder) added (deps.filterMap fun dep =>
        (foundIndex indices path dep.name).map fun index => ⟨index,dep.constraint,depFlags dep.flags⟩) := by
  induction deps generalizing writer with
  | nil =>
    cases ok
    exact ⟨[],by simp,rfl,known,fun _ _ denotes => denotes,.nil⟩
  | cons dep deps ih =>
    obtain ⟨middle,written,rest⟩ := bind_success ok
    unfold writeDep at written
    split at written
    next absent =>
      cases written
      obtain ⟨added,dependencies,packages,grown,denotes,stores⟩ := ih writer known rest
      exact ⟨added,dependencies,packages,grown,denotes,by simpa [absent] using stores⟩
    next index found =>
      obtain ⟨⟨constraint,interned⟩,internedText,written⟩ := bind_success written
      obtain ⟨word,cast,written⟩ := bind_success written
      obtain ⟨kept,denotesText⟩ := internString_kept interned dep.constraint constraint known internedText
      obtain ⟨commands,built⟩ := kept.known
      cases written
      obtain ⟨added,dependencies,packages,grown,denotes,stores⟩ :=
        ih _ ⟨_,perform_built interned _ (.addDependency _) built rfl⟩ rest
      refine ⟨⟨word,constraint,depFlags dep.flags,Vector.replicate 3 0⟩ :: added,?_,packages.trans kept.packages,grown,
        fun ref text old => denotes ref text (kept.denotes ref text old),?_⟩
      · rw [dependencies]
        simp only [addDependency,kept.dependencies,List.append_assoc,List.cons_append,List.nil_append]
      · simp only [List.filterMap_cons,found]
        exact .cons ⟨u32_value cast,denotes _ _ denotesText,rfl⟩ stores

structure Written (indices : List (Bytes × Nat)) (done : List ResolvedPackage) (writer : LockfileWriter) : Prop where
  known : Known writer
  count : writer.packages.length = done.length
  stores : ∀ (index : Nat) (pkg : ResolvedPackage), done[index]? = some pkg → ∃ record : Package, writer.packages[index]? = some record ∧
    record.depsStart.toNat + record.depsCount.toNat ≤ writer.dependencies.length ∧
    List.Forall₂ (Stores writer.stringBuilder)
      ((writer.dependencies.drop record.depsStart.toNat).take record.depsCount.toNat)
      (edgesBy (foundIndex indices (installPath pkg)) pkg)

section
variable {indices : List (Bytes × Nat)} {done : List ResolvedPackage} {writer next : LockfileWriter}

theorem Written.grown (written : Written indices done writer) (known : Known next)
    (packages : next.packages = writer.packages) (added : List Dependency)
    (dependencies : next.dependencies = writer.dependencies ++ added)
    (denotes : ∀ ref text, Denotes writer.stringBuilder ref text → Denotes next.stringBuilder ref text) :
    Written indices done next := by
  refine ⟨known,by rw [packages,written.count],?_⟩
  intro index pkg at_
  obtain ⟨record,found,inside,stores⟩ := written.stores index pkg at_
  refine ⟨record,by rw [packages,found],by rw [dependencies,List.length_append]; omega,?_⟩
  rw [dependencies,List.drop_append_of_le_length (by omega),List.take_append_of_le_length (by simp; omega)]
  exact stores.imp fun dep edge stored => ⟨stored.1,denotes _ _ stored.2.1,stored.2.2⟩

theorem Written.kept (written : Written indices done writer) (kept : Kept writer next) : Written indices done next :=
  written.grown kept.known kept.packages [] (by simpa using kept.dependencies) kept.denotes

theorem addPackage_known {record : Package} {index : UInt32} (known : Known writer)
    (ok : addPackage writer record = .ok (index,next)) :
    next = {writer with packages := writer.packages ++ [record]} ∧ Known next := by
  obtain ⟨commands,built⟩ := known
  have performed : perform writer (.addPackage record) = .ok next := by simp only [perform,ok,Except.map]
  refine ⟨?_,_,perform_built writer next _ built performed⟩
  obtain ⟨position,_,added⟩ := bind_success ok
  cases added
  rfl

end

theorem writePackage_written {done : List ResolvedPackage} (written : Written indices done writer)
    (ok : writePackage indices writer pkg = .ok next) : Written indices (done ++ [pkg]) next := by
  obtain ⟨⟨name,named⟩,internedName,ok⟩ := bind_success ok
  obtain ⟨⟨url,located⟩,internedUrl,ok⟩ := bind_success ok
  obtain ⟨⟨prerelease,versioned⟩,internedPrerelease,ok⟩ := bind_success ok
  obtain ⟨⟨parent,placed⟩,internedParent,ok⟩ := bind_success ok
  obtain ⟨depsStart,start,ok⟩ := bind_success ok
  obtain ⟨linked,linking,ok⟩ := bind_success ok
  obtain ⟨depsCount,count,ok⟩ := bind_success ok
  obtain ⟨⟨index,recorded⟩,adding,ok⟩ := bind_success ok
  obtain ⟨binned,binning,ok⟩ := bind_success ok
  obtain ⟨disabled,disabling,platformed⟩ := bind_success ok
  have one := (internString_kept named pkg.name name written.known internedName).1
  have two := (internString_kept located pkg.tarballUrl url one.known internedUrl).1
  have three := internOptional_kept two.known internedPrerelease
  have four := internOptional_kept three.known internedParent
  have interned := ((one.trans two).trans three).trans four
  obtain ⟨added,dependencies,packages,known,denotes,stores⟩ :=
    writeDeps_adds placed four.known linking
  have before := (written.kept interned).grown known packages added dependencies denotes
  obtain ⟨shape,recordedKnown⟩ := addPackage_known known adding
  have recordedWritten : Written indices (done ++ [pkg]) recorded := by
    subst shape
    refine ⟨recordedKnown,by simp [before.count],?_⟩
    intro other found at_
    by_cases earlier : other < done.length
    · rw [List.getElem?_append_left earlier] at at_
      obtain ⟨record,there,inside,stored⟩ := before.stores other found at_
      refine ⟨record,?_,inside,stored⟩
      rw [List.getElem?_append_left (by rw [before.count]; exact earlier)]
      exact there
    · rw [List.getElem?_append_right (by omega),List.getElem?_singleton] at at_
      split at at_
      next here =>
        cases at_
        have same : other = linked.packages.length := by rw [before.count]; omega
        refine ⟨_,by rw [same,List.getElem?_concat_length],?_⟩
        simp only [u32_value start,u32_value count,dependencies,List.length_append,Nat.add_sub_cancel_left,
          List.drop_left,List.take_length,le_refl,true_and]
        exact stores
      next => contradiction
  have bins := foldlM_kept (fun writer next bin known ok => addBinEntry_kept writer next _ _ _ known ok) _ recordedKnown binning
  have disabledKept := foldlM_kept
    (fun writer next dep known ok => addDisabledDependency_kept writer next _ _ _ known ok) binned bins.known disabling
  have platform := addPlatformEntry_kept disabled next _ _ _ _ disabledKept.known platformed
  exact recordedWritten.kept ((bins.trans disabledKept).trans platform)

theorem writePackages_written (indices : List (Bytes × Nat)) (done rest : List ResolvedPackage)
    (writer next : LockfileWriter) (written : Written indices done writer)
    (ok : rest.foldlM (writePackage indices) writer = .ok next) : Written indices (done ++ rest) next := by
  induction rest generalizing done writer with
  | nil =>
    cases ok
    simpa using written
  | cons pkg rest ih =>
    obtain ⟨middle,first,ok⟩ := bind_success ok
    have step := ih (done ++ [pkg]) middle (writePackage_written written first) ok
    simpa using step

end Writing

theorem writeLockfileTo_edges (ok : writeLockfileTo resolver = .ok writer) {index : Nat}
    (at_ : (packagesOrdered resolver)[index]? = some pkg) :
    edges writer index = edgesBy (foundIndex (pkgIndices (packagesOrdered resolver)) (installPath pkg)) pkg := by
  obtain ⟨listed,packages,disabling⟩ := bind_success ok
  have start : Written (pkgIndices (packagesOrdered resolver)) [] (setResolutionHash {} resolver.lockResolutionHash) :=
    ⟨⟨_,perform_built {} _ (.setResolutionHash resolver.lockResolutionHash) built_init rfl⟩,rfl,by simp⟩
  have written := writePackages_written _ [] _ _ listed start packages
  have kept := foldlM_kept (fun writer next dep known ok => addDisabledDependency_kept writer next _ _ _ known ok) listed written.known disabling
  obtain ⟨record,found,_,stores⟩ := (written.kept kept).stores index pkg (by simpa using at_)
  rw [edges,found]
  exact map_eq_of_forall₂ (stores.imp fun dep edge stored => stored.edge)

def FollowsNode (resolver : Resolver) (writer : LockfileWriter) : Prop :=
  ∀ (index : Nat) (pkg : ResolvedPackage), (packagesOrdered resolver)[index]? = some pkg →
    edges writer index = edgesBy (nodeLookup (pkgIndices (packagesOrdered resolver)) (installPath pkg)) pkg

def Installed (resolver : Resolver) (path : Bytes) : Prop := ∃ pkg ∈ resolver.resolved, installPath pkg = path

/-- A dependency with a copy at the top has no nearer one; without a copy at the top, a copy below an
enclosing package is hidden by one below the package itself. -/
def Unshadowed (resolver : Resolver) (path name : Bytes) : Prop :=
  (Installed resolver name → ∀ outer ∈ path :: enclosing path, ¬ Installed resolver (nested outer name)) ∧
  (¬ Installed resolver name → (∃ outer ∈ enclosing path, Installed resolver (nested outer name)) →
    Installed resolver (nested path name))

theorem packagesOrdered_distinct : ((packagesOrdered resolver).map installPath).Nodup := by
  have perm : (packagesOrdered resolver).Perm resolver.resolved := List.mergeSort_perm _ _
  exact (perm.map installPath).nodup_iff.mpr resolver.distinct

theorem find_ordered (resolver : Resolver) (path : Bytes) (index : Nat) :
    find path (pkgIndices (packagesOrdered resolver)) = some index ↔
      ∃ pkg, (packagesOrdered resolver)[index]? = some pkg ∧ installPath pkg = path :=
  find_pkgIndices packagesOrdered_distinct index

theorem installed_iff (resolver : Resolver) (path : Bytes) :
    Installed resolver path ↔ (find path (pkgIndices (packagesOrdered resolver))).isSome := by
  have perm : (packagesOrdered resolver).Perm resolver.resolved := List.mergeSort_perm _ _
  rw [isSome_iff_exists]
  constructor
  · rintro ⟨pkg,member,equal⟩
    obtain ⟨index,at_⟩ := List.mem_iff_getElem?.mp (perm.mem_iff.mpr member)
    exact ⟨index,(find_ordered resolver path index).mpr ⟨pkg,at_,equal⟩⟩
  · rintro ⟨index,found⟩
    obtain ⟨pkg,at_,equal⟩ := (find_ordered resolver path index).mp found
    exact ⟨pkg,perm.mem_iff.mp (List.mem_of_getElem? at_),equal⟩

theorem find_injective {resolver : Resolver} {first second : Bytes} {index : Nat}
    (one : find first (pkgIndices (packagesOrdered resolver)) = some index)
    (two : find second (pkgIndices (packagesOrdered resolver)) = some index) : first = second := by
  obtain ⟨pkg,at_,equal⟩ := (find_ordered resolver first index).mp one
  obtain ⟨other,also,same⟩ := (find_ordered resolver second index).mp two
  rw [at_] at also
  cases also
  rw [← equal,same]

theorem nested_ne {outer name : Bytes} : nested outer name ≠ name := by
  intro equal
  have lengths := congrArg List.length equal
  have separator : (ascii "/node_modules/").length = 14 := by decide +kernel
  simp only [nested,List.length_append] at lengths
  omega

section Lookups
variable (indices : List (Bytes × Nat)) (path name : Bytes)

theorem nodeLookup_eq : nodeLookup indices path name = ((find (nested path name) indices).or
    ((enclosing path).findSome? fun outer => find (nested outer name) indices)).or (find name indices) := by
  simp only [nodeLookup,lookupPaths,List.findSome?_cons,List.findSome?_append,
    List.findSome?_map,Function.comp_def]
  cases find (nested path name) indices with
  | some index => rfl
  | none => cases find name indices <;> simp

theorem nodeLookup_total (index : Nat) (found : foundIndex indices path name = some index) :
    (nodeLookup indices path name).isSome := by
  rw [nodeLookup_eq]
  unfold foundIndex at found
  generalize find name indices = top at found ⊢
  generalize find (nested path name) indices = own at found ⊢
  cases top <;> cases own <;> simp_all

theorem lookups_agree_iff (resolver : Resolver) : foundIndex (pkgIndices (packagesOrdered resolver)) path name =
    nodeLookup (pkgIndices (packagesOrdered resolver)) path name ↔ Unshadowed resolver path name := by
  rw [nodeLookup_eq,Unshadowed]
  simp only [installed_iff,foundIndex]
  have injective := @find_injective resolver
  generalize pkgIndices (packagesOrdered resolver) = indices at injective ⊢
  cases top : find name indices with
  | some index =>
    -- the writer takes the copy at the top, so every nearer one would be another package
    have other : ∀ outer, find (nested outer name) indices ≠ some index :=
      fun outer found => nested_ne (injective found top)
    simp only [isSome_some,forall_const,not_true_eq_false,false_implies,and_true,
      List.forall_mem_cons]
    constructor
    · intro agree
      have own : find (nested path name) indices = none := by
        cases own : find (nested path name) indices with
        | none => rfl
        | some nearer =>
          rw [own,some_or] at agree
          cases agree
          exact absurd own (other path)
      refine ⟨by simp [own],?_⟩
      rw [own,none_or] at agree
      intro outer member found
      obtain ⟨nearer,isNearer⟩ := isSome_iff_exists.mp found
      cases between : (enclosing path).findSome? fun outer => find (nested outer name) indices with
      | none =>
        rw [List.findSome?_eq_none_iff] at between
        rw [between outer member] at isNearer
        contradiction
      | some first =>
        obtain ⟨before,_,isFirst⟩ := List.exists_of_findSome?_eq_some between
        rw [between] at agree
        cases agree
        exact absurd isFirst (other before)
    · rintro ⟨own,between⟩
      have absent : ((enclosing path).findSome? fun outer => find (nested outer name) indices) = none :=
        List.findSome?_eq_none_iff.mpr fun outer member => by simpa using between outer member
      simp [not_isSome_iff_eq_none.mp own,absent]
  | none =>
    simp only [or_none,isSome_none,Bool.false_eq_true,false_implies,true_and,
      not_false_eq_true,forall_const]
    cases own : find (nested path name) indices with
    | some index => simp
    | none =>
      simp only [none_or,isSome_none,Bool.false_eq_true,imp_false,not_exists,not_and]
      rw [eq_comm,List.findSome?_eq_none_iff]
      exact forall₂_congr fun outer _ => by rw [not_isSome_iff_eq_none]

end Lookups

private theorem filterMap_eq_iff {β : Type} (first second : α → Option β) (items : List α)
    (more : ∀ item ∈ items, (first item).isSome → (second item).isSome) :
    items.filterMap first = items.filterMap second ↔ ∀ item ∈ items, first item = second item := by
  have shorter : ∀ items : List α, (∀ item ∈ items, (first item).isSome → (second item).isSome) →
      (items.filterMap first).length ≤ (items.filterMap second).length := by
    intro items
    induction items with
    | nil => simp
    | cons item items ih =>
      intro more
      cases one : first item <;> cases two : second item <;> simp_all
      omega
  induction items with
  | nil => simp
  | cons item items ih =>
    have below := fun other member => more other (List.mem_cons_of_mem item member)
    have here := more item List.mem_cons_self
    have rest := ih below
    have bound := shorter items below
    cases one : first item with
    | none =>
      cases two : second item with
      | none => simp [one,two,rest]
      | some value =>
        simp only [List.filterMap_cons,one,two,List.forall_mem_cons,reduceCtorEq,false_and,iff_false]
        intro equal
        have lengths := congrArg List.length equal
        simp only [List.length_cons] at lengths
        omega
    | some value =>
      obtain ⟨other,two⟩ := isSome_iff_exists.mp (here (by simp [one]))
      simp [one,two,rest]

/-- The lockfile has Node's edges exactly when no dependency of a package has a shadowed copy. -/
theorem edges_follow_node_iff (resolver : Resolver) (writer : LockfileWriter) (ok : writeLockfileTo resolver = .ok writer) :
    FollowsNode resolver writer ↔
      ∀ pkg ∈ resolver.resolved, ∀ dep ∈ pkg.dependencies, Unshadowed resolver (installPath pkg) dep.name := by
  have perm : (packagesOrdered resolver).Perm resolver.resolved := List.mergeSort_perm _ _
  have agree : ∀ pkg : ResolvedPackage,
      edgesBy (foundIndex (pkgIndices (packagesOrdered resolver)) (installPath pkg)) pkg =
        edgesBy (nodeLookup (pkgIndices (packagesOrdered resolver)) (installPath pkg)) pkg ↔
      ∀ dep ∈ pkg.dependencies, Unshadowed resolver (installPath pkg) dep.name := by
    intro pkg
    have total := nodeLookup_total (pkgIndices (packagesOrdered resolver)) (installPath pkg)
    rw [edgesBy,edgesBy,filterMap_eq_iff]
    · refine forall₂_congr fun dep _ => ?_
      rw [← lookups_agree_iff,map_inj_right]
      intro first second equal
      exact congrArg Edge.target equal
    · intro dep _ found
      rw [isSome_map] at found ⊢
      obtain ⟨index,isIndex⟩ := isSome_iff_exists.mp found
      exact total dep.name index isIndex
  constructor
  · intro follows pkg member
    obtain ⟨index,at_⟩ := List.mem_iff_getElem?.mp (perm.mem_iff.mpr member)
    have same := follows index pkg at_
    rw [writeLockfileTo_edges ok at_] at same
    exact (agree pkg).mp same
  · intro unshadowed index pkg at_
    rw [writeLockfileTo_edges ok at_]
    exact (agree pkg).mpr (unshadowed pkg (perm.mem_iff.mp (List.mem_of_getElem? at_)))

section Samples

def sampleVersion (major : Nat) : Semver.Version := ⟨major,0,0,none,none⟩

def samplePackage (name : String) (parent : Option String) (major : Nat) (needs : List (String × String)) :
    ResolvedPackage where
  name := ascii name
  version := sampleVersion major
  integrity := Vector.replicate 64 0
  tarballUrl := []
  parentPath := parent.map ascii
  dependencies := needs.map fun need => ⟨ascii need.1,ascii need.2,{}⟩

def shadowed : Resolver where
  resolved := [samplePackage "a" none 1 [("d","^2.0.0")],samplePackage "d" none 1 [],samplePackage "d" (some "a") 2 []]
  distinct := by decide +kernel

def enclosed : Resolver where
  resolved := [samplePackage "a" none 1 [],samplePackage "b" (some "a") 1 [("d","^2.0.0")],
    samplePackage "d" (some "a") 2 []]
  distinct := by decide +kernel

theorem shadowed_ordered : packagesOrdered shadowed = shadowed.resolved :=
  List.mergeSort_of_pairwise (by decide +kernel)

theorem enclosed_ordered : packagesOrdered enclosed = enclosed.resolved :=
  List.mergeSort_of_pairwise (by decide +kernel)

private theorem edges_of_run (ordered : packagesOrdered resolver = resolver.resolved) (index : Nat) (expected : List Edge)
    (run : ((resolver.resolved.foldlM (writePackage (pkgIndices resolver.resolved)) (setResolutionHash {} resolver.lockResolutionHash)) >>= fun writer => resolver.disabledRootDependencies.foldlM (fun writer dep => addDisabledDependency writer maxIndex dep.1 dep.2) writer).map (edges · index) = .ok expected)
    : ∃ writer, writeLockfileTo resolver = .ok writer ∧ edges writer index = expected := by
  obtain ⟨writer,ok,same⟩ := map_success run
  refine ⟨writer,?_,same⟩
  rw [← ok,writeLockfileTo,ordered]

/-- `a`'s edge leads to the `d` at the top, which Node does not find; and `b`'s dependency on the `d` around it is
dropped. -/
theorem nested_copy_passed_over :
    (∃ writer, writeLockfileTo shadowed = .ok writer ∧ edges writer 0 = [⟨1,ascii "^2.0.0",{}⟩] ∧
      nodeLookup (pkgIndices (packagesOrdered shadowed)) (ascii "a") (ascii "d") = some 2 ∧ ¬ FollowsNode shadowed writer) ∧
    (∃ writer, writeLockfileTo enclosed = .ok writer ∧ edges writer 1 = [] ∧
      nodeLookup (pkgIndices (packagesOrdered enclosed)) (ascii "a/node_modules/b") (ascii "d") = some 2 ∧
      ¬ FollowsNode enclosed writer) := by
  constructor
  · obtain ⟨writer,ok,written⟩ := edges_of_run shadowed_ordered 0 [⟨1,ascii "^2.0.0",{}⟩] (by decide +kernel)
    refine ⟨writer,ok,written,by rw [shadowed_ordered]; decide +kernel,fun follows => ?_⟩
    have same := follows 0 (samplePackage "a" none 1 [("d","^2.0.0")]) (by rw [shadowed_ordered]; rfl)
    rw [written,shadowed_ordered] at same
    revert same
    decide +kernel
  · obtain ⟨writer,ok,written⟩ := edges_of_run enclosed_ordered 1 [] (by decide +kernel)
    refine ⟨writer,ok,written,by rw [enclosed_ordered]; decide +kernel,fun follows => ?_⟩
    have same := follows 1 (samplePackage "b" (some "a") 1 [("d","^2.0.0")]) (by rw [enclosed_ordered]; rfl)
    rw [written,enclosed_ordered] at same
    revert same
    decide +kernel

def plain : Resolver where
  resolved := [samplePackage "a" none 1 [("d","^2.0.0")],samplePackage "d" (some "a") 2 []]
  distinct := by decide +kernel

theorem edges_follow_node_plain : ∃ writer, writeLockfileTo plain = .ok writer ∧
    edges writer 0 = [⟨1,ascii "^2.0.0",{}⟩] ∧ FollowsNode plain writer := by
  have ordered : packagesOrdered plain = plain.resolved := List.mergeSort_of_pairwise (by decide +kernel)
  obtain ⟨writer,ok,written⟩ := edges_of_run ordered 0 [⟨1,ascii "^2.0.0",{}⟩] (by decide +kernel)
  refine ⟨writer,ok,written,(edges_follow_node_iff plain writer ok).mpr ?_⟩
  intro pkg member dep needed
  simp only [Unshadowed,installed_iff,ordered]
  revert pkg dep
  decide +kernel

end Samples

end Ant.Pkg.ResolverLockfile
