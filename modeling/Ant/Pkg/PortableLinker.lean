import Ant.Pkg.Storage
import Mathlib.Data.List.Basic

/-! `StorageLinker` of `linker.zig` and the linking part of `portableResolveAndInstall` in
`root.zig`: packages are copied from the cache to the project's `node_modules`. -/
namespace Ant.Pkg.PortableLinker
open Library.ByteLayout Library.ByteString Library.Effect Library.PathTree Storage

structure PackageBin where
  name : Bytes
  path : Bytes
  deriving DecidableEq,Repr

structure PackageLink where
  cachePath : Bytes
  name : Bytes
  parentPath : Option Bytes
  fileCount : Nat
  hasBin : Bool
  bins : List PackageBin
  deriving DecidableEq,Repr

inductive InstallError where
  | storage (error : StorageError)
  | pathNotFound
  deriving DecidableEq,Repr

structure StorageLinker where
  source : Store
  nodeModulesPath : Bytes
  versionOf : Bytes → Option Bytes

def lift (operation : Action StorageError Store) : Action InstallError Store := mapError .storage operation

def installPath (self : StorageLinker) (pkg : PackageLink) : Bytes :=
  join self.nodeModulesPath (match pkg.parentPath with
    | some parent => parent ++ ascii "/node_modules/" ++ pkg.name
    | none => pkg.name)

def readVersion (self : StorageLinker) (store : Store) (directory : Bytes) : Option Bytes :=
  match read store (join directory (ascii "package.json")) with
  | .ok data => self.versionOf data
  | .error _ => none

def upToDate (self : StorageLinker) (store : Store) (pkg : PackageLink) : Except StorageError Bool :=
  match readVersion self self.source pkg.cachePath,readVersion self store (installPath self pkg) with
  | some source,some destination =>
    if source ≠ destination then .ok false
    else if pkg.fileCount = 0 then .ok true
    else match countFiles store (installPath self pkg) with
      | .error error => .error error
      | .ok count => .ok (decide (pkg.fileCount ≤ count))
  | _,_ => .ok false

def contains (needle text : Bytes) : Bool := text.tails.any needle.isPrefixOf

def binIsSafe (bin : PackageBin) : Bool :=
  !(bin.name.length == 0 || bin.path.length == 0) && !(bin.name.head? == some slash || bin.path.head? == some slash) &&
    !(bin.name.contains slash || bin.name.contains 92 || contains [dot,dot] bin.path || bin.path.contains 92)

def binPath (self : StorageLinker) (bin : PackageBin) : Bytes := self.nodeModulesPath ++ ascii "/.bin/" ++ bin.name

def binScript (pkg : PackageLink) (bin : PackageBin) : Bytes :=
  let target := ascii "../" ++ pkg.name ++ [slash] ++
    (if (ascii "./").isPrefixOf bin.path then bin.path.drop 2 else bin.path)
  ascii "#!/system/bin/sh\nbasedir=$(dirname \"$0\")\nexec ant \"$basedir/" ++ target ++ ascii "\" \"$@\"\n"

def writeBins (self : StorageLinker) (pkg : PackageLink) : Action InstallError Store :=
  forEach (fun bin => lift (write (binPath self bin) (binScript pkg bin) true)) (pkg.bins.filter binIsSafe)

def checkCount (self : StorageLinker) (pkg : PackageLink) : Action InstallError Store := fun store =>
  match countFiles store (installPath self pkg) with
  | .error error => (store,some (.storage error))
  | .ok count => if pkg.fileCount ≠ 0 ∧ count < pkg.fileCount then (store,some (.storage .ioError)) else (store,none)

/-- A package that is up to date is left as it is, and so are its commands. -/
def linkPackage (self : StorageLinker) (pkg : PackageLink) : Action InstallError Store := fun store =>
  match stat self.source pkg.cachePath with
  | .error error => (store,some (.storage error))
  | .ok (some .dir) =>
    match upToDate self store pkg with
    | .error error => (store,some (.storage error))
    | .ok true => (store,none)
    | .ok false =>
      andThen (attempt (lift (remove (installPath self pkg))))
        (andThen (lift (copyBetween self.source pkg.cachePath (installPath self pkg)))
          (andThen (checkCount self pkg)
            (if pkg.parentPath = none ∧ pkg.hasBin then writeBins self pkg else done))) store
  | .ok _ => (store,some .pathNotFound)

def setNodeModulesPath (self : StorageLinker) : Action InstallError Store :=
  andThen (lift (mkdirs self.nodeModulesPath)) (lift (mkdirs (join self.nodeModulesPath (ascii ".bin"))))

def clearOwned (self : StorageLinker) : Action InstallError Store :=
  andThen (attempt (lift (remove (join self.nodeModulesPath (ascii ".bin")))))
    (andThen (attempt (lift (remove (join self.nodeModulesPath (ascii ".ant")))))
      (lift (mkdirs (join self.nodeModulesPath (ascii ".bin")))))

/-- The occurrences of a pattern, from left to right and apart from one another; `skip` bytes belong to the last one. -/
def occurrences (pattern : Bytes) : Nat → Bytes → Nat
  | _,[] => 0
  | skip+1,_ :: rest => occurrences pattern skip rest
  | 0,char :: rest =>
    if pattern.isPrefixOf (char :: rest) then 1 + occurrences pattern (pattern.length - 1) rest
    else occurrences pattern 0 rest

def linkPathDepth (parentPath : Option Bytes) : Nat :=
  match parentPath with
  | none => 0
  | some [] => 0
  | some parent => 1 + occurrences (ascii "/node_modules/") 0 parent

def packageLinkLessThanParentFirst (a b : PackageLink) : Bool :=
  if linkPathDepth a.parentPath ≠ linkPathDepth b.parentPath then
    linkPathDepth a.parentPath < linkPathDepth b.parentPath
  else if compare (a.parentPath.getD []) (b.parentPath.getD []) ≠ .eq then
    compare (a.parentPath.getD []) (b.parentPath.getD []) == .lt
  else compare a.name b.name == .lt

/-- The sort is not stable, but no two links of a graph are equal in this order. -/
def sortLinks (links : List PackageLink) : List PackageLink :=
  links.mergeSort fun a b => !packageLinkLessThanParentFirst b a

def list (store : Store) (path : Bytes) : Except StorageError (List (Bytes × Bool)) :=
  match normalizeRelative path with
  | .error error => .error error
  | .ok place =>
    match fileStat store place with
    | .error error => .error error
    | .ok none => .error .notFound
    | .ok (some (.leaf _)) => .error .ioError
    | .ok (some .dir) => .ok ((children store place).map fun name => (name,isDir store (place ++ [name])))

def pruneScope (expected : List Bytes) (path scope : Bytes) : Action InstallError Store := fun store =>
  match list store path with
  | .error _ => (store,none)
  | .ok entries =>
    andThen (forEach (fun entry : Bytes × Bool =>
        if entry.2 ∧ scope ++ [slash] ++ entry.1 ∉ expected then lift (remove (join path entry.1)) else done) entries)
      (fun store =>
        match list store path with
        | .ok [] => lift (remove path) store
        | _ => (store,none)) store

def pruneStaleTopLevelPackages (self : StorageLinker) (expected : List Bytes) : Action InstallError Store := fun store =>
  match list store self.nodeModulesPath with
  | .error error => (store,some (.storage error))
  | .ok entries =>
    forEach (fun entry : Bytes × Bool =>
      let path := join self.nodeModulesPath entry.1
      if !entry.2 || entry.1 == ascii ".bin" || entry.1 == ascii ".ant" then done
      else if entry.1.head? = some 64 then pruneScope expected path entry.1
      else if entry.1 ∈ expected then done
      else lift (remove path)) entries store

def atomicWrite (path data : Bytes) : Action StorageError Store := write path data true

structure Records where
  lockfilePath : Bytes
  lockfile : Bytes
  marker : Bytes

def writeRecords (self : StorageLinker) (records : Records) : Action InstallError Store :=
  andThen (lift (atomicWrite records.lockfilePath records.lockfile))
    (lift (atomicWrite (join self.nodeModulesPath (ascii ".ant/install-state")) records.marker))

def portableInstall (self : StorageLinker) (links : List PackageLink) (records : Records) : Action InstallError Store :=
  andThen (setNodeModulesPath self)
    (andThen (clearOwned self)
      (andThen (forEach (linkPackage self) (sortLinks links))
        (andThen (pruneStaleTopLevelPackages self ((links.filter (·.parentPath == none)).map (·.name)))
          (writeRecords self records))))

end Ant.Pkg.PortableLinker
