import Ant.Pkg.Metadata
import Ant.Pkg.ResolvedPackages

/-! The dependencies that the resolver records for a package, on each of the paths that record them. -/
namespace Ant.Pkg.DependencyLists
open Library.ByteLayout Library.ByteString Semver Metadata ResolvedPackages

/-- The part of a resolver that decides which optional dependencies are skipped. -/
structure Resolver where
  platform : Platform
  metadataCache : List (Bytes × PackageMetadata)

def optionalDependencyShouldSkip (self : Resolver) (name constraint : Bytes) : Bool :=
  if optionalDependencyNamePlatformMismatch self.platform name then true
  else
    let spec := dependencySpec name constraint
    match Constraint.parse spec.constraint with
    | none => false
    | some constraint =>
      match self.metadataCache.lookup spec.packageName with
      | some metadata => (selectBestVersion self.platform metadata constraint).isNone
      | none => false

structure Recorded where
  dependencies : List Dep := []
  disabledDependencies : List (Bytes × Bytes) := []
  deriving DecidableEq

section Copies
variable (self : Resolver) (info : VersionInfo)

def appendDependencies (pkg : Recorded) : Recorded :=
  info.dependencies.foldl (fun pkg (name,constraint) =>
    {pkg with dependencies := pkg.dependencies ++ [⟨name,constraint,{}⟩]}) pkg

def appendOptional (pkg : Recorded) : Recorded :=
  info.optionalDependencies.foldl (fun pkg (name,constraint) =>
    if optionalDependencyShouldSkip self name constraint then
      {pkg with disabledDependencies := pkg.disabledDependencies ++ [(name,constraint)]}
    else {pkg with dependencies := pkg.dependencies ++ [⟨name,constraint,{optional := true}⟩]}) pkg

def appendPeers (pkg : Recorded) : Recorded :=
  info.peerDependencies.foldl (fun pkg (name,constraint) =>
    if info.peerDependenciesMeta.contains name then pkg
    else {pkg with dependencies := pkg.dependencies ++ [⟨name,constraint,{peer := true}⟩]}) pkg

def copyDependenciesFromVersion (_pkg : Recorded) : Recorded := appendOptional self info (appendDependencies info {})

def refreshResolvedPackageFromVersion (pkg : Recorded) : Recorded := copyDependenciesFromVersion self info pkg

def createPackageFromVersion : Recorded := appendPeers info (appendOptional self info (appendDependencies info {}))

def resolveSingleWithOptimal : Recorded := appendPeers info (appendOptional self info (appendDependencies info {}))

def resolveSingle : Recorded := appendPeers info (appendOptional self info (appendDependencies info {}))

def createNestedPackage : Recorded := appendOptional self info (appendDependencies info {})

end Copies

/-- The peer dependencies that are not optional. -/
def peers (info : VersionInfo) : List Dep :=
  (info.peerDependencies.filter fun entry => !info.peerDependenciesMeta.contains entry.1).map fun entry =>
    ⟨entry.1,entry.2,{peer := true}⟩

theorem appendPeers_eq (info : VersionInfo) (pkg : Recorded) :
    appendPeers info pkg = {pkg with dependencies := pkg.dependencies ++ peers info} := by
  unfold appendPeers peers
  induction info.peerDependencies generalizing pkg with
  | nil => simp
  | cons entry rest ih =>
    rw [List.foldl_cons,ih]
    by_cases listed : entry.1 ∈ info.peerDependenciesMeta
    · simp [listed]
    · simp [listed]

theorem appendPeers_self_iff (info : VersionInfo) (pkg : Recorded) : appendPeers info pkg = pkg ↔
    ∀ entry ∈ info.peerDependencies, entry.1 ∈ info.peerDependenciesMeta := by
  rw [appendPeers_eq]
  constructor
  · intro same
    have none_ := List.append_right_eq_self.mp (congrArg Recorded.dependencies same)
    simpa [peers] using none_
  · intro all
    have none_ : peers info = [] := by simpa [peers] using all
    rw [none_,List.append_nil]

/-- The five paths record the same dependencies exactly when every peer dependency is optional: a nested
package and a refreshed one lose the others. -/
theorem recorded_alike_iff (self : Resolver) (info : VersionInfo) (pkg : Recorded) :
    (resolveSingle self info = resolveSingleWithOptimal self info ∧
      createPackageFromVersion self info = resolveSingleWithOptimal self info ∧
      createNestedPackage self info = resolveSingleWithOptimal self info ∧
      refreshResolvedPackageFromVersion self info pkg = resolveSingleWithOptimal self info) ↔
    ∀ entry ∈ info.peerDependencies, entry.1 ∈ info.peerDependenciesMeta := by
  rw [← appendPeers_self_iff info (appendOptional self info (appendDependencies info {}))]
  constructor
  · intro ⟨_,_,nested,_⟩
    exact nested.symm
  · intro same
    exact ⟨rfl,rfl,same.symm,same.symm⟩

def peerInfo : VersionInfo where
  version := ⟨1,0,0,none,none⟩
  integrity := []
  tarballUrl := []
  peerDependencies := [(ascii "react",ascii "^18.0.0")]

def plainResolver : Resolver := ⟨⟨ascii "linux",ascii "x64",none⟩,[]⟩

/-- The peer dependency of a package is recorded at the top, and lost when the package is nested. -/
theorem nested_peer_lost :
    resolveSingle plainResolver peerInfo = ⟨[⟨ascii "react",ascii "^18.0.0",{peer := true}⟩],[]⟩ ∧
      createNestedPackage plainResolver peerInfo = ⟨[],[]⟩ ∧
      refreshResolvedPackageFromVersion plainResolver peerInfo (resolveSingle plainResolver peerInfo) = ⟨[],[]⟩ := by
  decide +kernel

end Ant.Pkg.DependencyLists
