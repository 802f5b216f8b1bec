import Ant.Library.ByteString
import Ant.Library.Effect
import Ant.Library.PathTree

/-! The `FILE_PATH` backend of `storage.c` and the operations of `storage.zig` over it. A
store is the tree below the context's base directory; it holds no symbolic links. -/
namespace Ant.Pkg.Storage
open Library.ByteLayout Library.ByteString Library.Effect Library.PathTree

inductive StorageError where
  | invalidArgument
  | notFound
  | ioError
  deriving DecidableEq,Repr

abbrev Path := List Bytes
abbrev Store := Tree Bytes Bytes

def isSeparator (char : UInt8) : Bool := char == slash || char == 92

def parts (path : Bytes) : List Bytes := split slash (path.map fun char => if isSeparator char then slash else char)

def isSafeRelative (path : Bytes) : Bool :=
  path == [] || (!(ascii "content://").isPrefixOf path && !(path.head?.any isSeparator) &&
    path.all (fun char => !(char < 0x20)) && (parts path).all (· != [dot,dot]))

/-- The components of a path below the context; a C string ends at its first zero byte. -/
def normalizeRelative (path : Bytes) : Except StorageError Path :=
  let path := untilZero path
  if (ascii "ant-saf://").isPrefixOf path then .error .invalidArgument
  else if isSafeRelative path then .ok ((parts path).filter fun part => part != [] && part != [dot])
  else .error .invalidArgument

def join (base child : Bytes) : Bytes :=
  if base = [] then child else if child = [] then base
  else if base.getLast? = some slash then base ++ child else base ++ [slash] ++ child

/-- A component that exists already is left alone, whatever it is. -/
def mkdir (store : Store) (path : Path) : Store := if (get store path).isSome then store else put store path .dir

def mkdirsFrom : Store → Path → Path → Except StorageError Store
  | store,_,[] => .ok store
  | store,above,name :: rest =>
    if get store above = some .dir then mkdirsFrom (mkdir store (above ++ [name])) (above ++ [name]) rest
    else .error .ioError

def fileMkdirs (store : Store) (path : Path) : Except StorageError Store := mkdirsFrom store [] path

def fileWrite (data : Bytes) (truncate : Bool) (store : Store) (path : Path) : Except StorageError Store :=
  match fileMkdirs store path.dropLast with
  | .error error => .error error
  | .ok store =>
    match get store path with
    | some .dir => .error .ioError
    | some (.leaf old) => .ok (put store path (.leaf (if truncate then data else old ++ data)))
    | none => if Fits store path then .ok (put store path (.leaf data)) else .error .ioError

/-- A path below a file is an error, not a missing file. -/
def fileStat (store : Store) (path : Path) : Except StorageError (Option (Node Bytes)) :=
  match get store path with
  | some node => .ok (some node)
  | none => if path.inits.any (fun above => get store above matches some (.leaf _)) then .error .ioError else .ok none

/-- With `recursive`; the base directory itself stays. -/
def fileRemove (store : Store) (path : Path) : Except StorageError Store :=
  match fileStat store path with
  | .error error => .error error
  | .ok none => .ok store
  | .ok (some _) => .ok (eraseTree store path)

/-- The copy of what `view` shows at `source` to `target`; running out of `fuel` is a path that is too long. -/
def fileCopy (view : Store → Store) : Nat → Path → Path → Action StorageError Store
  | 0,_,_ => fail .ioError
  | fuel+1,source,target => fun store =>
    match fileStat (view store) source with
    | .error error => (store,some error)
    | .ok none => (store,some .notFound)
    | .ok (some (.leaf data)) => update (fileWrite data true · target) store
    | .ok (some .dir) =>
      andThen (update (fileMkdirs · target)) (fun store =>
        forEach (fun name => fileCopy view fuel (source ++ [name]) (target ++ [name]))
          (children (view store) source) store) store

def prepare (path : Bytes) (operation : Path → Action StorageError Store) : Action StorageError Store :=
  match normalizeRelative path with
  | .error error => fail error
  | .ok path => operation path

def mkdirs (path : Bytes) : Action StorageError Store := prepare path fun path => update (fileMkdirs · path)

def write (path data : Bytes) (truncate : Bool) : Action StorageError Store :=
  prepare path fun path => update (fileWrite data truncate · path)

def remove (path : Bytes) : Action StorageError Store := prepare path fun path => update (fileRemove · path)

def stat (store : Store) (path : Bytes) : Except StorageError (Option (Node Bytes)) :=
  match normalizeRelative path with
  | .error error => .error error
  | .ok path => fileStat store path

def pathMax : Nat := 4096

def copyFrom (view : Store → Store) (source target : Bytes) : Action StorageError Store :=
  match normalizeRelative source with
  | .error error => fail error
  | .ok source => fun store =>
    match fileStat (view store) source with
    | .error error => (store,some error)
    | .ok none => (store,some .notFound)
    | .ok (some _) => prepare target (fileCopy view pathMax source) store

def copyTree (source target : Bytes) : Action StorageError Store := copyFrom id source target

def copyBetween (origin : Store) (source target : Bytes) : Action StorageError Store :=
  copyFrom (fun _ => origin) source target

def read (store : Store) (path : Bytes) : Except StorageError Bytes :=
  match stat store path with
  | .error error => .error error
  | .ok none => .error .notFound
  | .ok (some .dir) => .error .ioError
  | .ok (some (.leaf data)) => .ok data

def countFiles (store : Store) (path : Bytes) : Except StorageError Nat :=
  match normalizeRelative path with
  | .error error => .error error
  | .ok path =>
    match fileStat store path with
    | .error error => .error error
    | .ok none => .ok 0
    | .ok (some _) => .ok (min (leafCount store path) (2^32 - 1))

section
variable {store : Store} {path : Path} {old : Bytes}

theorem prepare_success {path : Bytes} {operation : Path → Action StorageError Store} {store result : Store}
    (ok : prepare path operation store = (result,none)) :
    ∃ place, normalizeRelative path = .ok place ∧ operation place store = (result,none) := by
  cases normal : normalizeRelative path with
  | error error => simp [prepare,normal,fail] at ok
  | ok place => exact ⟨place,rfl,by simpa [prepare,normal] using ok⟩

theorem fileWrite_truncate {store result : Store} {data : Bytes} (ok : fileWrite data true store path = .ok result) :
    get result path = some (.leaf data) := by
  unfold fileWrite at ok
  split at ok
  next => contradiction
  next store made =>
    split at ok
    next => contradiction
    next old present =>
      cases ok
      simp [get_put store path _ (fits_of_leaf old present)]
    next =>
      split at ok
      next fits =>
        cases ok
        simp [get_put store path _ fits]
      next => contradiction

end

end Ant.Pkg.Storage
