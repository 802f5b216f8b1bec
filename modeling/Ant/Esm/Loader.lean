import Ant.Esm.PackageMap
import Ant.Library.LexicalPath
import Ant.Library.PathTree

/-! The loader's way from a package specifier to a file: the search for the package, its entry
point, and the names that are tried for a target. The disk is a tree without links; the caches
in front of it hold what the tree says. Virtual storage paths and Windows drives are left out. -/
namespace Ant.Esm.Loader
open Library.ByteLayout Library.ByteString Library.OrderedMap Library.JsonTree Library.PathTree Library.LexicalPath
open PackageMap

def pathMax : Nat := 4096

def backslash : UInt8 := 92

def cut (text : Bytes) : Bytes := text.take (pathMax - 1)

abbrev Files := Tree Bytes (Option Value)

structure Env where
  files : Files
  cwd : Bytes
  activeConditions : Option (List Bytes)

/-- The components of a path; both kinds of slashes separate them on every system. -/
def components (path : Bytes) : List Bytes :=
  split slash (path.map fun char => if char = backslash then slash else char)

def field (document : Option Value) (name : String) : Option Value :=
  match document with
  | some (.object members) => members.get (ascii name)
  | _ => none

end Ant.Esm.Loader
