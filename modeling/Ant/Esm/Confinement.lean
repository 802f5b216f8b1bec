import Ant.Esm.Loader

/-! Where the files of an exports map lie: inside the package, as long as no target climbs out
of it. Nothing in the loader checks that. -/
namespace Ant.Esm.Confinement
open Library.ByteLayout Library.ByteString Library.OrderedMap Library.JsonTree Library.PathTree Library.LexicalPath List
open PackageMap Loader

def Named (name : Bytes) : Prop := Plain name ∧ slash ∉ name ∧ backslash ∉ name

variable {text path resolved dir spec : Bytes} {env : Env} {place : List Bytes}

def member (key : String) (value : Value) : Members := .cons (ascii key) value .nil

def installed (key : String) (target : Value) : Env where
  files :=
    let at_ (names : List String) : List Bytes := names.map ascii
    let document := Value.object (member "exports" (.object (member key target)))
    [(["app"],.dir),(["app","secret.js"],.leaf none),(["app","node_modules"],.dir),(["app","node_modules","pkg"],.dir),
      (["app","node_modules","pkg","lib"],.dir),(["app","node_modules","pkg","lib","x.js"],.leaf none),
      (["app","node_modules","pkg","package.json"],.leaf (some document))].foldl
      (fun (tree : Files) (entry : List String × Node (Option Value)) => put tree (at_ entry.1) entry.2) empty
  cwd := ascii "/app"
  activeConditions := none

end Ant.Esm.Confinement
