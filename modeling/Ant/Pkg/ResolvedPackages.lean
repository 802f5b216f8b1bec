import Ant.Library.OrderedMap
import Ant.Pkg.LockfileFormat
import Ant.Pkg.Semver

/-! The packages a resolver has settled on, where they are installed, and where the module
lookup of Node finds a dependency. -/
namespace Ant.Pkg.ResolvedPackages
open Library.ByteLayout Library.ByteString

structure DepFlags where
  peer : Bool := false
  dev : Bool := false
  optional : Bool := false
  deriving DecidableEq,Repr

structure Dep where
  name : Bytes
  constraint : Bytes
  flags : DepFlags := {}
  deriving DecidableEq,Repr

structure ResolvedPackage where
  name : Bytes
  version : Semver.Version
  integrity : Vector UInt8 64
  tarballUrl : Bytes
  dependencies : List Dep := []
  depth : Nat := 0
  direct : Bool := false
  parentPath : Option Bytes := none
  hasBin : Bool := false
  bins : List (Bytes × Bytes) := []
  disabledDependencies : List (Bytes × Bytes) := []
  os : Option Bytes := none
  cpu : Option Bytes := none
  libc : Option Bytes := none
  fileCount : Nat := 0

def nested (parent name : Bytes) : Bytes := parent ++ ascii "/node_modules/" ++ name

def installPath (pkg : ResolvedPackage) : Bytes :=
  match pkg.parentPath with
  | some parent => nested parent pkg.name
  | none => pkg.name

def orderForLockfile (a b : ResolvedPackage) : Bool :=
  let parentOrder := compare (a.parentPath.getD []) (b.parentPath.getD [])
  if parentOrder ≠ .eq then parentOrder == .lt else compare a.name b.name == .lt

def beforeLast (pattern : Bytes) : Bytes → Option Bytes
  | [] => none
  | char :: rest =>
    match beforeLast pattern rest with
    | some before => some (char :: before)
    | none => if pattern.isPrefixOf (char :: rest) then some [] else none

theorem beforeLast_length (pattern text before : Bytes) (found : beforeLast pattern text = some before) :
    before.length < text.length := by
  induction text generalizing before with
  | nil => contradiction
  | cons char rest ih =>
    simp only [beforeLast] at found
    split at found
    next inner below =>
      cases found
      simpa using ih inner below
    next =>
      split at found
      next =>
        cases found
        simp
      next => contradiction

def enclosing (path : Bytes) : List Bytes :=
  match _found : beforeLast (ascii "/node_modules/") path with
  | none => []
  | some outer => outer :: enclosing outer
termination_by path.length
decreasing_by exact beforeLast_length _ _ _ _found

/-- The places where Node looks for `name` on behalf of the package at `path`: below the package
itself, below the packages around it, and at the top. -/
def lookupPaths (path name : Bytes) : List Bytes :=
  (path :: enclosing path).map (nested · name) ++ [name]

end Ant.Pkg.ResolvedPackages
