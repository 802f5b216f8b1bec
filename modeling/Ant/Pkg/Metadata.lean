import Ant.Pkg.Semver
import Mathlib.Algebra.Ring.Nat

/-! The metadata of published packages, and which version of a package is selected. -/
namespace Ant.Pkg.Metadata
open Library.ByteLayout Library.ByteString Semver

abbrev Entries := List (Bytes × Bytes)

structure VersionInfo where
  version : Version
  integrity : Bytes
  tarballUrl : Bytes
  dependencies : Entries := []
  optionalDependencies : Entries := []
  peerDependencies : Entries := []
  peerDependenciesMeta : List Bytes := []
  os : Option Bytes := none
  cpu : Option Bytes := none
  libc : Option Bytes := none
  bin : Entries := []
  deriving DecidableEq,Repr

structure PackageMetadata where
  versions : List VersionInfo
  distTagLatest : Option Version := none
  distTags : List (Bytes × Version) := []
  deriving DecidableEq,Repr

structure Platform where
  osName : Bytes
  cpuName : Bytes
  libcName : Option Bytes
  deriving DecidableEq,Repr

structure Registry where
  platform : Platform
  packages : List (Bytes × PackageMetadata)
  hosted : List ((Bytes × Bytes) × PackageMetadata) := []
  deriving DecidableEq,Repr

section Names

structure DependencySpec where
  installName : Bytes
  packageName : Bytes
  constraint : Bytes
  deriving DecidableEq,Repr

def parseNpmAliasSpec (spec : Bytes) : Option (Bytes × Bytes) :=
  if !(ascii "npm:").isPrefixOf spec then none
  else
    let rest := spec.drop 4
    let parted : Option (Bytes × Option Bytes) :=
      if rest.head? = some 64 then
        match cutAt slash rest with
        | none => none
        | some (_,[]) => none
        | some (scope,name) =>
          match cutAt 64 name with
          | some (base,constraint) => some (scope ++ [slash] ++ base,some constraint)
          | none => some (rest,none)
      else match cutAt 64 rest with
        | some (name,constraint) => some (name,some constraint)
        | none => some (rest,none)
    match parted with
    | none => none
    | some ([],_) => none
    | some (name,some constraint) => some (name,if constraint = [] then ascii "latest" else constraint)
    | some (name,none) => some (name,ascii "latest")

def dependencySpec (installName constraint : Bytes) : DependencySpec :=
  match parseNpmAliasSpec constraint with
  | some (packageName,constraint) => ⟨installName,packageName,constraint⟩
  | none => ⟨installName,installName,constraint⟩

def isTarballUrl (spec : Bytes) : Bool := (ascii "https://").isPrefixOf spec || (ascii "http://").isPrefixOf spec

def httpUrlHost (url : Bytes) : Option Bytes :=
  let host := fun rest : Bytes => rest.takeWhile fun char => !(ascii "/?#").contains char
  let found := if (ascii "https://").isPrefixOf url then some (host (url.drop 8))
    else if (ascii "http://").isPrefixOf url then some (host (url.drop 7)) else none
  found.filter (· ≠ [])

end Names

section Platforms
variable (platform : Platform)

def matchesFilter (filter value : Bytes) : Bool :=
  let parts := ((split 44 filter).map Constraint.trimSpaces).filter (· ≠ [])
  let positive := parts.filter (·.head? ≠ some 33)
  parts.all (fun part => part != 33 :: value) &&
    (positive.isEmpty || positive.any fun part => part == ascii "any" || part == value)

def VersionInfo.matchesPlatform (info : VersionInfo) : Bool :=
  info.os.all (matchesFilter · platform.osName) && info.cpu.all (matchesFilter · platform.cpuName) &&
    info.libc.all fun filter => platform.libcName.any (matchesFilter filter)

def packageBasename (name : Bytes) : Bytes := (name.reverse.takeWhile (· != slash)).reverse

def isAlphanumeric (char : UInt8) : Bool :=
  (48 ≤ char && char ≤ 57) || (65 ≤ char && char ≤ 90) || (97 ≤ char && char ≤ 122)

/-- Whether the token stands alone in the text; after an occurrence the search goes on behind it. -/
def tokenFrom (token : Bytes) : Nat → Bool → Bytes → Bool
  | _,_,[] => false
  | skip+1,_,char :: rest => tokenFrom token skip (!isAlphanumeric char) rest
  | 0,leftOk,char :: rest =>
    if token.isPrefixOf (char :: rest) then
      (leftOk && ((char :: rest).drop token.length).head?.all (fun next => !isAlphanumeric next)) ||
        tokenFrom token (token.length - 1) (!isAlphanumeric char) rest
    else tokenFrom token 0 (!isAlphanumeric char) rest

def tokenInPackageBasename (name token : Bytes) : Bool := tokenFrom token 0 true (packageBasename name)

def optionalDependencyUsesNativePlatformName (name : Bytes) : Bool :=
  (["@esbuild/","@rollup/rollup-","@swc/core-","@tailwindcss/oxide-","@parcel/watcher-","@biomejs/cli-","@oxlint/",
    "@img/sharp-"].any fun start => (ascii start).isPrefixOf name) ||
  ["lightningcss-","turbo-"].any fun start => (ascii start).isPrefixOf (packageBasename name)

def tokenMatchesCurrentOs (token : Bytes) : Bool :=
  token == platform.osName || (platform.osName == ascii "darwin" && token == ascii "macos") ||
    (platform.osName == ascii "win32" && token == ascii "windows")

def tokenMatchesCurrentArch (token : Bytes) : Bool := token == platform.cpuName

def tokenMatchesCurrentLibc (token : Bytes) : Bool :=
  match platform.libcName with
  | none => false
  | some libc => if libc = ascii "glibc" then token == ascii "gnu" || token == ascii "glibc" else token == libc

def osTokens : List Bytes := ["aix","android","darwin","freebsd","linux","macos","netbsd","openbsd","openharmony",
  "sunos","win32","windows"].map ascii

def archTokens : List Bytes := ["arm","arm64","ia32","loong64","mips64el","ppc64","riscv64","s390x","x64"].map ascii

def libcTokens : List Bytes := ["glibc","gnu","musl"].map ascii

/-- The name has tokens of this list, and none of them is the current one. -/
def tokensMismatch (name : Bytes) (tokens : List Bytes) (isCurrent : Bytes → Bool) : Bool :=
  let found := tokens.filter (tokenInPackageBasename name)
  !found.isEmpty && !found.any isCurrent

def optionalDependencyNamePlatformMismatch (name : Bytes) : Bool :=
  optionalDependencyUsesNativePlatformName name &&
    (tokensMismatch name osTokens (tokenMatchesCurrentOs platform) ||
      tokensMismatch name archTokens (tokenMatchesCurrentArch platform) ||
      tokensMismatch name libcTokens (tokenMatchesCurrentLibc platform))

end Platforms

section Selection
variable (platform : Platform) (metadata : PackageMetadata)

def PackageMetadata.constraintMatches (constraint : Constraint) (version : Version) : Bool :=
  if constraint.kind = .tag then
    match constraint.tag with
    | none => false
    | some tag => (metadata.distTags.lookup tag).any fun wanted => version.order wanted == .eq
  else constraint.satisfies version

def greatest (passes : VersionInfo → Bool) : Option VersionInfo :=
  (metadata.versions.filter passes).foldl (fun best info => match best with
    | none => some info
    | some best => if info.version.order best.version = .gt then some info else some best) none

def latest : Option VersionInfo :=
  metadata.distTagLatest.bind fun latest =>
    metadata.versions.find? fun info => info.version.order latest == .eq && info.matchesPlatform platform

def selectBestVersion (constraint : Constraint) : Option VersionInfo :=
  let tagged := if constraint.kind = .tag then
    metadata.versions.find? fun info => metadata.constraintMatches constraint info.version && info.matchesPlatform platform
    else none
  let newest := if constraint.kind = .any then latest platform metadata else none
  let admitted := fun info : VersionInfo => info.matchesPlatform platform &&
    metadata.constraintMatches constraint info.version
  let best := greatest metadata fun info => admitted info &&
    (info.version.prerelease.isNone || constraint.version.prerelease.isSome)
  match tagged,newest,best with
  | some info,_,_ => some info
  | none,some info,_ => some info
  | none,none,some info => some info
  | none,none,none => if constraint.kind ≠ .any then none else greatest metadata admitted

theorem firstFound_isSome (tagged newest best last : Option VersionInfo) : (match tagged,newest,best with
    | some info,_,_ => some info
    | none,some info,_ => some info
    | none,none,some info => some info
    | none,none,none => last).isSome = true ↔ tagged.isSome ∨ newest.isSome ∨ best.isSome ∨ last.isSome := by
  cases tagged <;> cases newest <;> cases best <;> simp

def selectBestVersionForConstraints (constraints : List Constraint) : Option VersionInfo :=
  let wantPrerelease := constraints.any fun constraint => constraint.version.prerelease.isSome || constraint.kind == .tag
  let allAny := constraints.all (·.kind == .any)
  let newest := if allAny then latest platform metadata else none
  let admitted := fun info : VersionInfo => info.matchesPlatform platform &&
    constraints.all (metadata.constraintMatches · info.version)
  let best := greatest metadata fun info => admitted info && (info.version.prerelease.isNone || wantPrerelease)
  match newest,best with
  | some info,_ => some info
  | none,some info => some info
  | none,none => if !allAny then none else greatest metadata admitted

/-- How many constraints a version satisfies; those near the root weigh more. -/
def score (constraints : List (Constraint × Nat)) (info : VersionInfo) : Nat :=
  (constraints.map fun (constraint,depth) =>
    if metadata.constraintMatches constraint info.version then 1000 / (depth + 1) else 0).sum

def selectVersionSatisfyingMost (constraints : List (Constraint × Nat)) : Option VersionInfo :=
  let wantPrerelease := constraints.any fun (constraint,_) =>
    constraint.version.prerelease.isSome || constraint.kind == .tag
  let offered := metadata.versions.filter fun info =>
    (info.version.prerelease.isNone || wantPrerelease) && info.matchesPlatform platform
  offered.foldl (fun best info => match best with
    | none => some info
    | some best =>
      if score metadata constraints best < score metadata constraints info ∨
        (score metadata constraints best = score metadata constraints info ∧ info.version.order best.version = .gt)
      then some info else some best) none

def selectVersionByTarballUrl (url : Bytes) : Option VersionInfo := metadata.versions.find? (·.tarballUrl == url)

end Selection

end Ant.Pkg.Metadata
